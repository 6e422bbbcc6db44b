import LeastSquares.Proofs.Solver.Run

/-!
# The residual norms of a run

Only an accepted pass changes the point, and it is accepted because the norm is strictly lower, so
the norms of a run go down (`Outcome.Descends`).  The comparisons of binary64 allow one exception:
nothing is below a NaN, so a run that starts at a NaN stays at its point (`Outcome.Stands`).

The only facts about binary64 that are used are those of its order: `<` is transitive, irreflexive
and false for a NaN.
-/

namespace LeastSquares
variable {σ : Type} {f : PureProblem Float} {config : Config Float} {x₀ : Array Float}
  {o : Outcome Float} {k : Nat}

/-- a run with the difference step `ε` whose residual norms go down -/
structure Outcome.Descends (o : Outcome Float) (f : PureProblem Float) (ε : Float) : Prop where
  not_nan : ∀ k ≤ o.history.size, (o.state k).residualNorm.isNaN = false
  antitone : ∀ i k, i ≤ k → k ≤ o.history.size →
    (o.state k).residualNorm ≤ (o.state i).residualNorm
  lower_iff_accepted : ∀ k < o.history.size,
    (o.state (k + 1)).residualNorm < (o.state k).residualNorm ↔ o.Passed f ε k true
  /-- the returned norm is the least one -/
  least : ∀ a ∈ o.history, o.residualNorm ≤ a.residualNorm
  /-- and it is the norm at the returned point, which no recorded point betters -/
  best : ∀ a ∈ o.history, ∃ u v, f.residualNorm o.solution = .ok u ∧
    f.residualNorm a.point = .ok v ∧ u ≤ v

/-- a run with the difference step `ε` that stays at the point `x₀` -/
structure Outcome.Stands (o : Outcome Float) (f : PureProblem Float) (ε : Float)
    (x₀ : Array Float) : Prop where
  recorded : ∀ a ∈ o.history, a.point = x₀
  solution : o.solution = x₀
  rejected : ∀ k < o.history.size, ∀ accepted, o.Passed f ε k accepted ↔ accepted = false
  status : o.status = .maxIterations

namespace LegalRun

/-! ## norms that go down -/

theorem lower_or_norm_eq (h : LegalRun f config x₀ o) (hk : k < o.history.size) :
    (o.state (k + 1)).residualNorm < (o.state k).residualNorm ∨
      (o.state (k + 1)).residualNorm = (o.state k).residualNorm := by
  rcases h.accepted_or_point_eq hk with ha | hx
  · exact .inl (h.lower_of_accepted hk ha)
  · exact .inr (h.norm_eq_of_point_eq hk hx)

theorem not_nan (h : LegalRun f config x₀ o) (h0 : (o.state 0).residualNorm.isNaN = false)
    (hk : k ≤ o.history.size) : (o.state k).residualNorm.isNaN = false := by
  induction k with
  | zero => exact h0
  | succ k ih =>
    rcases h.lower_or_norm_eq hk with hlt | heq
    · exact Binary64.isNaN_of_lt hlt
    · rw [heq]
      exact ih (Nat.le_of_succ_le hk)

theorem antitone (h : LegalRun f config x₀ o) (h0 : (o.state 0).residualNorm.isNaN = false)
    {i : Nat} (hi : i ≤ k) (hk : k ≤ o.history.size) :
    (o.state k).residualNorm ≤ (o.state i).residualNorm := by
  induction k, hi using Nat.le_induction with
  | base => exact Binary64.le_refl (h.not_nan h0 hk)
  | succ k _ ih =>
    have hle := ih (Nat.le_of_succ_le hk)
    rcases h.lower_or_norm_eq hk with hlt | heq
    · exact Binary64.le_trans (Binary64.le_of_lt hlt) hle
    · rw [heq]
      exact hle

theorem descends (h : LegalRun f config x₀ o) (h0 : (o.state 0).residualNorm.isNaN = false) :
    o.Descends f config.differenceStep := by
  have hleast (a : Snapshot Float) (ha : a ∈ o.history) : o.residualNorm ≤ a.residualNorm := by
    obtain ⟨k, hk, rfl⟩ := Array.mem_iff_getElem.mp ha
    have hle := h.antitone h0 hk.le (Nat.le_refl _)
    rw [o.state_size, o.state_of_lt hk] at hle
    exact hle
  refine ⟨?_, ?_, ?_, hleast, ?_⟩
  · intro k hk
    exact h.not_nan h0 hk
  · intro i k hi hk
    exact h.antitone h0 hi hk
  · intro k hk
    exact h.lower_iff_of_irrefl Binary64.lt_irrefl hk
  · intro a ha
    have hu := h.evaluated_solution
    have hv := h.evaluated_recorded ha
    exact ⟨_, _, hu, hv, hleast a ha⟩

/-! ## a run that starts at a NaN -/

theorem not_accepted_of_nan (h : LegalRun f config x₀ o) (hk : k < o.history.size)
    (hn : (o.state k).residualNorm.isNaN = true) : ¬ o.Passed f config.differenceStep k true := by
  intro ha
  exact Binary64.not_lt_of_isNaN (.inr hn) (h.lower_of_accepted hk ha)

theorem point_eq_of_nan (h : LegalRun f config x₀ o)
    (h0 : (o.state 0).residualNorm.isNaN = true) (hk : k ≤ o.history.size) :
    (o.state k).point = x₀ ∧ (o.state k).residualNorm.isNaN = true := by
  induction k with
  | zero => exact ⟨h.point_zero, h0⟩
  | succ k ih =>
    obtain ⟨hx, hn⟩ := ih (Nat.le_of_succ_le hk)
    have hstay := (h.accepted_or_point_eq hk).resolve_left (h.not_accepted_of_nan hk hn)
    rw [hstay, h.norm_eq_of_point_eq hk hstay]
    exact ⟨hx, hn⟩

theorem stands (h : LegalRun f config x₀ o) (h0 : (o.state 0).residualNorm.isNaN = true) :
    o.Stands f config.differenceStep x₀ := by
  obtain ⟨hsolution, hnan⟩ := h.point_eq_of_nan h0 (Nat.le_refl _)
  rw [o.state_size] at hsolution hnan
  constructor
  case recorded =>
    intro a ha
    obtain ⟨k, hk, rfl⟩ := Array.mem_iff_getElem.mp ha
    rw [← o.state_of_lt hk]
    exact (h.point_eq_of_nan h0 hk.le).1
  case solution => exact hsolution
  case rejected =>
    intro k hk
    have hn := (h.point_eq_of_nan h0 hk.le).2
    have hnot := h.not_accepted_of_nan hk hn
    obtain ⟨accepted, hpass⟩ := h.pass k hk (Binary64.not_lt_of_isNaN (.inl hn))
    cases accepted with
    | true => exact absurd hpass hnot
    | false =>
      intro accepted
      cases accepted with
      | true => simp [hnot]
      | false => simp [hpass]
  case status =>
    rw [h.status]
    exact if_neg (Binary64.not_lt_of_isNaN (.inl hnan))

end LegalRun

/-! ## both -/

/-- **The residual norms of a pure problem descend, unless the first one is a NaN; then the run
stays where it is.** -/
theorem minimize_descends {p : Problem σ Float} {q : σ} (hp : p.IsPure f)
    (h : ((minimize config p x₀).run q).1.result = .ok o) :
    ∃ v, f.residualNorm x₀ = .ok v ∧
      (v.isNaN = false → o.Descends f config.differenceStep) ∧
      (v.isNaN = true → o.Stands f config.differenceStep x₀) := by
  have hrun := LegalRun.of_minimize hp h
  have hv := hrun.evaluated 0 (Nat.zero_le _)
  rw [hrun.point_zero] at hv
  exact ⟨_, hv, hrun.descends, hrun.stands⟩

theorem squareRoots_descends :
    (∃ o : Outcome Float, o.Descends squareRoots twoPasses.differenceStep) ∧
    ∃ o : Outcome Float, o.Stands squareRoots twoPasses.differenceStep #[0.0 / 0.0] := by
  refine ⟨?_, ?_⟩
  · have hok : (runSquareRoots #[0.25]).result.isOk = true := by decide +kernel
    obtain ⟨o, ho⟩ := Report.exists_outcome hok
    obtain ⟨v, hv, hdescends, -⟩ := minimize_descends squareRoots.isPure_toProblem ho
    obtain rfl := Except.ok.inj hv
    exact ⟨o, hdescends (by decide +kernel)⟩
  · have hok : (runSquareRoots #[0.0 / 0.0]).result.isOk = true := by decide +kernel
    obtain ⟨o, ho⟩ := Report.exists_outcome hok
    obtain ⟨v, hv, -, hstands⟩ := minimize_descends squareRoots.isPure_toProblem ho
    obtain rfl := Except.ok.inj hv
    exact ⟨o, hstands (by decide +kernel)⟩

end LeastSquares
