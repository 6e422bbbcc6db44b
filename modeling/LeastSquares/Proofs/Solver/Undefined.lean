import LeastSquares.Proofs.Binary64.Finite
import LeastSquares.Proofs.Problem.Differences
import LeastSquares.Proofs.Solver.Run

/-!
# Points with a NaN

A solve refuses pivots that are not finite, and no NaN is below the norm of a point.  That keeps a
NaN out of the points of a run as long as a point with a NaN also has a NaN for its residual norm
(`PureProblem.Propagates`): the only way in is an accepted step to a point with a NaN whose norm is
a number (`LegalRun.exists_entered`).

There is such a way.  The pivots depend on the Jacobian alone; where the gradient overflows, all of
them are usable and the step is a NaN all the same.  If the residuals are then decided by a
comparison, which a NaN fails, they are numbers, and the step is accepted (`hinges_reach_nan`).
-/

namespace LeastSquares

/-! ## points with a NaN -/

/-- one of the coordinates is a NaN -/
def HasNaN (x : Array Float) : Prop := ∃ v ∈ x, v.isNaN = true

instance (x : Array Float) : Decidable (HasNaN x) :=
  decidable_of_iff (x.any Float.isNaN = true) Array.any_eq_true'

theorem isNaN_sumOfSquares {l : List Float} {s : Float}
    (h : s.isNaN = true ∨ ∃ v ∈ l, v.isNaN = true) :
    (l.foldl (fun s x => s + x * x) s).isNaN = true := by
  induction l generalizing s with
  | nil =>
    rcases h with h | ⟨v, hv, -⟩
    · exact h
    · cases hv
  | cons x l ih =>
    apply ih
    rcases h with h | ⟨v, hv, hnan⟩
    · exact .inl (Binary64.isNaN_add (.inl h))
    · rcases List.mem_cons.mp hv with rfl | hv
      · exact .inl (Binary64.isNaN_add (.inr (Binary64.isNaN_mul hnan)))
      · exact .inr ⟨v, hv, hnan⟩

theorem isNaN_norm {r : Array Float} (h : HasNaN r) : (norm r).isNaN = true := by
  obtain ⟨v, hv, hnan⟩ := h
  unfold norm
  rw [← Array.foldl_toList]
  exact Binary64.isNaN_sqrt (isNaN_sumOfSquares (.inr ⟨v, hv.val, hnan⟩))

/-- wherever a coordinate is a NaN, the residual norm is one too, if there is a norm at all -/
def PureProblem.Propagates (f : PureProblem Float) : Prop :=
  ∀ x v, HasNaN x → f.residualNorm x = .ok v → v.isNaN = true

/-- pass `k` with the difference step `ε` leads from a point without a NaN to one that has a NaN and
yet a number for its residual norm -/
structure Outcome.EntersNaN (o : Outcome Float) (f : PureProblem Float) (ε : Float) (k : Nat) :
    Prop where
  accepted : o.Passed f ε k true
  before : ¬ HasNaN (o.state k).point
  behind : HasNaN (o.state (k + 1)).point
  number : (o.state (k + 1)).residualNorm.isNaN = false

variable {σ : Type} {f : PureProblem Float} {config : Config Float} {x₀ : Array Float}
  {o : Outcome Float}

namespace LegalRun

/-- a pass that leads to a NaN is an accepted one -/
theorem entersNaN (h : LegalRun f config x₀ o) {k : Nat} (hk : k < o.history.size)
    (hbefore : ¬ HasNaN (o.state k).point) (hbehind : HasNaN (o.state (k + 1)).point) :
    o.EntersNaN f config.differenceStep k := by
  have haccepted : o.Passed f config.differenceStep k true := by
    refine (h.accepted_or_point_eq hk).resolve_right ?_
    intro hx
    rw [hx] at hbehind
    exact hbefore hbehind
  have hlower := h.lower_of_accepted hk haccepted
  exact ⟨haccepted, hbefore, hbehind, Binary64.isNaN_of_lt hlower⟩

/-- the NaN of a later state has come in by some pass before it -/
theorem exists_entered (h : LegalRun f config x₀ o) (hx₀ : ¬ HasNaN x₀) {k : Nat}
    (hk : k ≤ o.history.size) (hnan : HasNaN (o.state k).point) :
    ∃ i < k, o.EntersNaN f config.differenceStep i := by
  induction k with
  | zero =>
    rw [h.point_zero] at hnan
    exact absurd hnan hx₀
  | succ k ih =>
    by_cases hbefore : HasNaN (o.state k).point
    · obtain ⟨i, hi, hentered⟩ := ih (Nat.le_of_succ_le hk) hbefore
      exact ⟨i, Nat.lt_succ_of_lt hi, hentered⟩
    · exact ⟨k, Nat.lt_succ_self k, h.entersNaN hk hbefore hnan⟩

theorem not_entersNaN (h : LegalRun f config x₀ o) (hf : f.Propagates) {k : Nat}
    (hk : k < o.history.size) : ¬ o.EntersNaN f config.differenceStep k := by
  intro hentered
  have hnan := hf _ _ hentered.behind (h.evaluated (k + 1) hk)
  rw [hentered.number] at hnan
  cases hnan

theorem not_hasNaN (h : LegalRun f config x₀ o) (hf : f.Propagates) (hx₀ : ¬ HasNaN x₀) {k : Nat}
    (hk : k ≤ o.history.size) : ¬ HasNaN (o.state k).point := by
  intro hnan
  obtain ⟨i, hi, hentered⟩ := h.exists_entered hx₀ hk hnan
  exact h.not_entersNaN hf (Nat.lt_of_lt_of_le hi hk) hentered

end LegalRun

theorem not_hasNaN_of_isFinite (hx₀ : ∀ v ∈ x₀, v.isFinite = true) : ¬ HasNaN x₀ := by
  intro hnan
  obtain ⟨v, hv, hnan⟩ := hnan
  rw [Binary64.isNaN_of_isFinite (hx₀ v hv)] at hnan
  cases hnan

/-- **A NaN reaches the points of a run only by an accepted step to a point with a NaN whose
residual norm is a number**, so never if the problem propagates NaNs. -/
theorem minimize_entersNaN {p : Problem σ Float} {q : σ} (hp : p.IsPure f)
    (h : ((minimize config p x₀).run q).1.result = .ok o) (hx₀ : ∀ v ∈ x₀, v.isFinite = true) :
    (∀ k ≤ o.history.size, HasNaN (o.state k).point →
      ∃ i < k, o.EntersNaN f config.differenceStep i) ∧
    (f.Propagates → (∀ a ∈ o.history, ¬ HasNaN a.point) ∧ ¬ HasNaN o.solution) := by
  have hrun := LegalRun.of_minimize hp h
  have hnan := not_hasNaN_of_isFinite hx₀
  refine ⟨?_, ?_⟩
  · intro k hk hstate
    exact hrun.exists_entered hnan hk hstate
  · intro hf
    refine ⟨?_, ?_⟩
    · intro a ha
      obtain ⟨k, hk, rfl⟩ := Array.mem_iff_getElem.mp ha
      rw [← o.state_of_lt hk]
      exact hrun.not_hasNaN hf hnan hk.le
    · have hlast := hrun.not_hasNaN hf hnan (Nat.le_refl _)
      rw [o.state_size] at hlast
      exact hlast

theorem squareRoots_propagates : squareRoots.Propagates := by
  intro x v hx hv
  obtain rfl := Except.ok.inj hv
  obtain ⟨t, ht, hnan⟩ := hx
  refine isNaN_norm ⟨_, Array.mem_map_of_mem ht, ?_⟩
  exact Binary64.isNaN_sub (Binary64.isNaN_mul hnan)

theorem squareRoots_not_hasNaN : (∀ v ∈ #[(0.25 : Float)], v.isFinite = true) ∧
    squareRoots.Propagates ∧ ∃ o, (runSquareRoots #[0.25]).result = .ok o ∧
      (∀ a ∈ o.history, ¬ HasNaN a.point) ∧ ¬ HasNaN o.solution := by
  have hfinite : ∀ v ∈ #[(0.25 : Float)], v.isFinite = true := by
    simp only [List.mem_toArray, List.mem_singleton, forall_eq]
    decide +kernel
  have hok : (runSquareRoots #[0.25]).result.isOk = true := by decide +kernel
  obtain ⟨o, ho⟩ := Report.exists_outcome hok
  have hrun := minimize_entersNaN squareRoots.isPure_toProblem ho hfinite
  exact ⟨hfinite, squareRoots_propagates, o, ho, hrun.2 squareRoots_propagates⟩

/-- two steep lines over the positive numbers, which are cut off at zero -/
def hinges (x : Array Float) : Array Float :=
  let t := x.getD 0 0.0
  if 0.0 < t then #[1e150 * t, 1e150 * (t - 2e10)] else #[0.0, 0.0]

def hingeProblem : Problem Unit Float := .ofFunction fun x => pure (hinges x)

def wideStep : Config Float := ⟨2, 1e-8, 1e-3, 1.0⟩

/-- at `1e10` the two parts of the gradient are infinite and have different signs; the step is a
NaN, where the residuals are zero -/
theorem hinges_reach_nan : wideStep.validate = .ok () ∧
    (∀ v ∈ #[(1e10 : Float)], v.isFinite = true) ∧ ∃ f, hingeProblem.IsPure f ∧
      ∃ o, ((minimize wideStep hingeProblem #[1e10]).run ()).1.result = .ok o ∧
        (∃ a ∈ o.history, HasNaN a.point) ∧ HasNaN o.solution ∧ o.status = .converged := by
  have hvalid : wideStep.validate = .ok () :=
    Config.validate_eq_ok.mpr ⟨by decide +kernel, by decide +kernel, by decide +kernel⟩
  have hfinite : ∀ v ∈ #[(1e10 : Float)], v.isFinite = true := by
    simp only [List.mem_toArray, List.mem_singleton, forall_eq]
    decide +kernel
  have hrun : (((minimize wideStep hingeProblem #[1e10]).run ()).1.result.toOption.any fun o =>
      o.history.any (fun a => decide (HasNaN a.point)) && decide (HasNaN o.solution) &&
        decide (o.status = .converged)) = true := by decide +kernel
  obtain ⟨o, ho, hnan⟩ := Report.exists_outcome_of_any hrun
  simp only [Bool.and_eq_true, decide_eq_true_eq, Array.any_eq_true'] at hnan
  obtain ⟨⟨hrecorded, hsolution⟩, hstatus⟩ := hnan
  have hpure : hingeProblem.IsPure (.ofResiduals fun x => .ok (hinges x)) :=
    Problem.isPure_ofResiduals fun _ _ => rfl
  exact ⟨hvalid, hfinite, _, hpure, o, ho, hrecorded, hsolution, hstatus⟩

end LeastSquares
