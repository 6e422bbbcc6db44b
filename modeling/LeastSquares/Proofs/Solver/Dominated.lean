import LeastSquares.Proofs.Binary64.Monotone
import LeastSquares.Proofs.Solver.Run

/-!
# Dominated candidates

Rounding can make a better candidate look no better, but never a worse one look better: if no
residual of a candidate is smaller in magnitude than the one it replaces, its norm is not below the
current one, and it is rejected (`norm_le_norm`, `rejected_of_dominates`).

Every operation of `norm` is monotone, so the order of the residuals goes through all partial sums:
the induction carries two sums that are not below zero, the one of `r` not above that of `t`.
-/

namespace LeastSquares

/-- `t` has as many residuals as `r`, and none is smaller in magnitude than the one in its place.
None of them is a NaN, because a NaN compares with nothing. -/
structure Dominates (t r : Array Float) : Prop where
  size_eq : t.size = r.size
  abs_le : ∀ (i : Nat) (hr : i < r.size) (ht : i < t.size), r[i].abs ≤ t[i].abs

/-! ## norms -/

open Binary64 in
theorem sumOfSquares_le {l l' : List Float} (h : List.Forall₂ (fun a b => a.abs ≤ b.abs) l l')
    {s s' : Float} (hs : (0.0 : Float) ≤ s) (hle : s ≤ s') :
    (0.0 : Float) ≤ l.foldl (fun s x => s + x * x) s ∧
      l.foldl (fun s x => s + x * x) s ≤ l'.foldl (fun s x => s + x * x) s' := by
  induction h generalizing s s' with
  | nil => exact ⟨hs, hle⟩
  | cons hab _ ih =>
    have hsquare := (square_eq (size_le_of_abs_le hab).1).1
    exact ih (add_eq hs hsquare).1 (add_le_add hs hle hsquare (square_le_square hab))

namespace Dominates
variable {r t : Array Float}

theorem forall₂ (h : Dominates t r) :
    List.Forall₂ (fun a b => a.abs ≤ b.abs) r.toList t.toList := by
  rw [List.forall₂_iff_get]
  exact ⟨h.size_eq.symm, fun i hr ht => h.abs_le i hr ht⟩

theorem norm_le_norm (h : Dominates t r) : norm r ≤ norm t := by
  have hzero : (0.0 : Float) ≤ (-0.0 : Float) := of_decide_eq_true rfl
  have hneutral : (-0.0 : Float) ≤ (-0.0 : Float) := of_decide_eq_true rfl
  obtain ⟨hnonneg, hle⟩ := sumOfSquares_le h.forall₂ hzero hneutral
  unfold norm
  rw [← Array.foldl_toList, ← Array.foldl_toList]
  exact Binary64.sqrt_le_sqrt hnonneg hle

theorem accepts_eq_false (h : Dominates t r) : Damping.accepts (norm r) (norm t) = false :=
  decide_eq_false (Binary64.not_lt_of_le h.norm_le_norm)

end Dominates

/-! ## runs -/

open Solve in
/-- **A dominated candidate is never accepted.**  Its norm is not below the current one, whatever
overflows to an infinity or underflows to zero in the two norms.  So a pass of any problem keeps its
point and raises the damping, and no accepted pass of a run has led from `r` to `t`. -/
theorem rejected_of_dominates {r t : Array Float} (h : Dominates t r) :
    norm r ≤ norm t ∧ Damping.accepts (norm r) (norm t) = false ∧
    (∀ {σ : Type} {n : Nat} (p : Problem σ Float) (ε : Float) (i : Nat) (current : Iterate Float n)
        (J : Mat Float r.size n) (step : Vector Float n) (s s₁ s₂ : Session σ Float),
      Returns (jacobian p current.point r.toVector ε) s J s₁ →
      dampedStep J r.toVector current.damping = some step →
      Returns (residuals p (candidate current step).toArray) s₁ t s₂ →
        Returns (attempt p ε i current r) s ⟨current.point, Damping.tighten current.damping⟩
          { s₂ with log := s₂.log.push (.candidate i (norm t) false) }) ∧
    ∀ {σ : Type} (p : Problem σ Float) (f : PureProblem Float) (config : Config Float)
        (x₀ : Array Float) (q : σ) (o : Outcome Float), p.IsPure f →
      ((minimize config p x₀).run q).1.result = .ok o → ∀ k < o.history.size,
        f.residuals (o.state k).point = .ok r → f.residuals (o.state (k + 1)).point = .ok t →
          ¬ o.Passed f config.differenceStep k true := by
  have hrejected := h.accepts_eq_false
  refine ⟨h.norm_le_norm, hrejected, ?pass, ?run⟩
  case pass =>
    intro σ n p ε i current J step s s₁ s₂ hJ hstep ht
    refine returns_attempt.mpr ⟨J, s₁, hJ, .inr ⟨step, t, s₂, hstep, ht, ?_⟩⟩
    rw [hrejected]
    exact ⟨rfl, rfl⟩
  case run =>
    intro σ p f config x₀ q o hp ho k hk hr ht haccepted
    have hrun := LegalRun.of_minimize hp ho
    have hbefore := hrun.evaluated k hk.le
    have hbehind := hrun.evaluated (k + 1) hk
    rw [PureProblem.residualNorm_of_ok hr] at hbefore
    rw [PureProblem.residualNorm_of_ok ht] at hbehind
    have hlower := hrun.lower_of_accepted hk haccepted
    rw [← Except.ok.inj hbefore, ← Except.ok.inj hbehind] at hlower
    exact Binary64.not_lt_of_le h.norm_le_norm hlower

/-- both norms are infinite: one square overflows, the other one underflows -/
theorem overflow_rejected : Dominates #[-1e200, 1e-199] #[1e200, -1e-200] ∧
    (norm #[(1e200 : Float), -1e-200]).isInf = true ∧
    norm #[(1e200 : Float), -1e-200] ≤ norm #[(-1e200 : Float), 1e-199] ∧
    Damping.accepts (norm #[(1e200 : Float), -1e-200]) (norm #[-1e200, 1e-199]) = false := by
  have h : Dominates #[-1e200, 1e-199] #[1e200, -1e-200] := by
    refine ⟨show 2 = 2 from rfl, fun i hr ht => ?_⟩
    have hi : i < 2 := hr
    interval_cases i
    · show (1e200 : Float).abs ≤ (-1e200 : Float).abs
      decide +kernel
    · show (-1e-200 : Float).abs ≤ (1e-199 : Float).abs
      decide +kernel
  obtain ⟨hle, hrejected, -⟩ := rejected_of_dominates h
  exact ⟨h, by decide +kernel, hle, hrejected⟩

end LeastSquares
