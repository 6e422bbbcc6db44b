import LeastSquares.Proofs.Solver.Run

/-!
# How a solve ends

The loop ends at the first record below the tolerance, or when its budget is spent
(`Trace.converged_or_spent`).  The status comes from one more evaluation after the loop, so it need
not repeat that reason (`Outcome.Ended`).

For a pure problem it nearly does.  The last evaluation finds again what the last record holds,
unless the last pass has moved the point: only a run that has spent its budget can turn out to have
converged with no record below the tolerance (`Outcome.EndedPure`).
-/

namespace LeastSquares

variable {σ α : Type} [RealScalar α]

/-! ## the end of any solve -/

theorem Criteria.finalStatus_ne_running (c : Criteria α) (v : α) : c.finalStatus v ≠ .running := by
  unfold finalStatus
  split <;> decide

theorem Criteria.finalStatus_eq_converged {c : Criteria α} {v : α} :
    c.finalStatus v = .converged ↔ v < c.tolerance := by
  unfold finalStatus
  split <;> simp [*]

theorem Criteria.finalStatus_eq_maxIterations {c : Criteria α} {v : α} :
    c.finalStatus v = .maxIterations ↔ ¬ v < c.tolerance := by
  unfold finalStatus
  split <;> simp [*]

/-- how a solve ends, whatever its problem answers -/
structure Outcome.Ended (o : Outcome α) (config : Config α) : Prop where
  terminated : o.status ≠ .running
  converged_iff : o.status = .converged ↔ o.residualNorm < config.tolerance
  length_le : o.history.size ≤ config.maxIterations
  /-- only the last record can be below the tolerance -/
  last_of_below : ∀ (k : Nat) (hk : k < o.history.size),
    o.history[k].residualNorm < config.tolerance → k + 1 = o.history.size

theorem Outcome.Ended.of_minimize {p : Problem σ α} {config : Config α} {x₀ : Array α} {q : σ}
    {o : Outcome α} (h : ((minimize config p x₀).run q).1.result = .ok o) : o.Ended config := by
  obtain ⟨last, exit, s, r, s', hsolved⟩ := exists_solved h
  obtain ⟨notes, -, htrace⟩ := (Notes.silent p config x₀.size).trace_of_solved hsolved
  constructor
  case terminated =>
    rw [hsolved.status_eq]
    exact Criteria.finalStatus_ne_running _ _
  case converged_iff =>
    rw [hsolved.status_eq]
    exact Criteria.finalStatus_eq_converged
  case length_le => exact htrace.length_le
  case last_of_below =>
    intro k hk hb
    rw [← o.state_of_lt hk] at hb
    exact (htrace.getD_stop hk hb).1

/-! ## the end of a solve of a pure problem -/

/-- how a solve of the pure problem `p`, which answers what `f` says, ends -/
structure Outcome.EndedPure (o : Outcome α) (p : Problem σ α) (f : PureProblem α)
    (config : Config α) : Prop where
  evaluated : ∀ q, ((p.residualNorm o.solution).run q).1 = .ok o.residualNorm
  /-- passes are left unused only because the last record is below the tolerance -/
  early : o.history.size < config.maxIterations →
    (∃ a, o.history.back? = some a ∧ a.residualNorm < config.tolerance) ∧ o.status = .converged
  spent : o.status = .maxIterations → o.history.size = config.maxIterations ∧
    ∀ a ∈ o.history, ¬ a.residualNorm < config.tolerance
  /-- convergence that no record shows was reached by the last possible pass, or before any -/
  late : o.status = .converged → (∀ a ∈ o.history, ¬ a.residualNorm < config.tolerance) →
    o.history.size = config.maxIterations ∧
      (config.maxIterations = 0 ∨
        ∃ k, k + 1 = o.history.size ∧ o.Passed f config.differenceStep k true)

theorem Problem.IsPure.residualNorm {p : Problem σ α} {f : PureProblem α} (hp : p.IsPure f)
    (x : Array α) (q : σ) : ((p.residualNorm x).run q).1 = f.residualNorm x := by
  unfold Problem.residualNorm
  rw [run_bind, PureProblem.residualNorm, ← hp.residuals x q]
  rcases (p.residuals x).run q with ⟨_ | _, _⟩ <;> rfl

namespace LegalRun
variable {f : PureProblem α} {config : Config α} {x₀ : Array α} {o : Outcome α}

/-- a record below the tolerance is found again by the last evaluation -/
theorem norm_lt_of_recorded (h : LegalRun f config x₀ o) {k : Nat} (hk : k < o.history.size)
    (hb : (o.state k).residualNorm < config.tolerance) : o.residualNorm < config.tolerance := by
  obtain ⟨-, hx, -⟩ := h.stop k hk hb
  have hv := h.evaluated k (Nat.le_of_lt hk)
  rw [← hx, h.evaluated_solution] at hv
  rw [Except.ok.inj hv]
  exact hb

theorem exists_below_of_short (h : LegalRun f config x₀ o)
    (hs : o.history.size < config.maxIterations) :
    (∃ a, o.history.back? = some a ∧ a.residualNorm < config.tolerance) ∧
      o.status = .converged := by
  obtain ⟨k, hk, hb⟩ := h.short hs
  have hlt : k < o.history.size := by omega
  refine ⟨⟨o.state k, ?_, hb⟩, ?_⟩
  · rw [Array.back?_eq_getElem?, ← hk, Nat.add_sub_cancel, o.state_of_lt hlt]
    exact Array.getElem?_eq_getElem hlt
  · rw [h.status]
    exact Criteria.finalStatus_eq_converged.mpr (h.norm_lt_of_recorded hlt hb)

theorem above_of_maxIterations (h : LegalRun f config x₀ o) (hs : o.status = .maxIterations)
    {a : Snapshot α} (ha : a ∈ o.history) : ¬ a.residualNorm < config.tolerance := by
  intro hb
  obtain ⟨k, hk, rfl⟩ := Array.mem_iff_getElem.mp ha
  rw [h.status] at hs
  rw [← o.state_of_lt hk] at hb
  exact Criteria.finalStatus_eq_maxIterations.mp hs (h.norm_lt_of_recorded hk hb)

theorem size_eq_of_above (h : LegalRun f config x₀ o)
    (habove : ∀ a ∈ o.history, ¬ a.residualNorm < config.tolerance) :
    o.history.size = config.maxIterations := by
  by_contra hne
  obtain ⟨a, ha, hb⟩ := (h.exists_below_of_short (Nat.lt_of_le_of_ne h.length_le hne)).1
  exact habove a (Array.mem_of_back? ha) hb

/-- from a last record above the tolerance only an accepted pass leads below it -/
theorem accepted_of_converged (h : LegalRun f config x₀ o) {k : Nat} (hk : k + 1 = o.history.size)
    (ha : ¬ (o.state k).residualNorm < config.tolerance)
    (hb : o.residualNorm < config.tolerance) : o.Passed f config.differenceStep k true := by
  have hlt : k < o.history.size := by omega
  refine (h.accepted_or_point_eq hlt).resolve_right ?_
  intro hx
  have hnorm := h.norm_eq_of_point_eq hlt hx
  rw [hk, o.state_size] at hnorm
  exact ha (hnorm ▸ hb)

theorem endedPure {p : Problem σ α} (hp : p.IsPure f) (h : LegalRun f config x₀ o) :
    o.EndedPure p f config := by
  constructor
  case evaluated =>
    intro q
    rw [hp.residualNorm]
    exact h.evaluated_solution
  case early => exact h.exists_below_of_short
  case spent =>
    intro hs
    have habove (a : Snapshot α) (ha : a ∈ o.history) := h.above_of_maxIterations hs ha
    exact ⟨h.size_eq_of_above habove, habove⟩
  case late =>
    intro hs habove
    have hsize := h.size_eq_of_above habove
    refine ⟨hsize, ?_⟩
    rw [h.status, Criteria.finalStatus_eq_converged] at hs
    rcases Nat.eq_zero_or_pos o.history.size with h0 | hpos
    · exact .inl (hsize ▸ h0)
    · obtain ⟨k, hk⟩ : ∃ k, k + 1 = o.history.size := ⟨_, Nat.sub_add_cancel hpos⟩
      have hlt : k < o.history.size := by omega
      have ha : ¬ (o.state k).residualNorm < config.tolerance := by
        rw [o.state_of_lt hlt]
        exact habove _ (Array.getElem_mem hlt)
      exact .inr ⟨k, hk, h.accepted_of_converged hk ha hs⟩

end LegalRun

/-- **Every solve ends as its last evaluation says, and a solve of a pure problem as its records
say, unless the last possible pass was accepted.** -/
theorem minimize_ended {p : Problem σ α} {config : Config α} {x₀ : Array α} {q : σ}
    {o : Outcome α} (h : ((minimize config p x₀).run q).1.result = .ok o) :
    o.Ended config ∧ ∀ f, p.IsPure f → o.EndedPure p f config := by
  refine ⟨.of_minimize h, ?_⟩
  intro f hp
  exact (LegalRun.of_minimize hp h).endedPure hp

theorem squareRoots_ended : ∃ o, (runSquareRoots #[0.25]).result = .ok o ∧ o.Ended twoPasses ∧
    o.EndedPure (squareRoots.toProblem : Problem Unit Float) squareRoots twoPasses := by
  have hok : (runSquareRoots #[0.25]).result.isOk = true := by decide +kernel
  obtain ⟨o, ho⟩ := Report.exists_outcome hok
  obtain ⟨hended, hpure⟩ := minimize_ended ho
  exact ⟨o, ho, hended, hpure squareRoots squareRoots.isPure_toProblem⟩

end LeastSquares
