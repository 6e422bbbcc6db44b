import LeastSquares.Proofs.Linear.Finite
import LeastSquares.Proofs.Solver.Run

/-!
# A Jacobian that is not finite

A matrix with an infinity or a NaN is reported as singular, and so are the damped normal equations
of such a Jacobian.  To the solver this is a rejected step: the pass ends where it began, with twice
the damping, and evaluates nothing behind the Jacobian.
-/

namespace LeastSquares

namespace DenseMatrix
variable {α : Type} [Scalar α] [FiniteOperands α] {m n : Nat}

theorem solve_of_hasNonFinite {a : Mat α n n} (h : a.HasNonFinite) (b : Vector α n) :
    (⟨n, n, a⟩ : DenseMatrix α).solve b.toArray = .error .singular := by
  rw [solve_mk, Mat.solve_of_hasNonFinite h]

theorem dampedStep_of_hasNonFinite {J : Mat α m n} (h : J.HasNonFinite) (r : Vector α m)
    (damping : α) :
    (⟨m, n, J⟩ : DenseMatrix α).dampedStep r.toArray damping = .error .singular := by
  rw [dampedStep_mk, LeastSquares.dampedStep_of_hasNonFinite h]

end DenseMatrix

namespace Solve
variable {σ α : Type} [RealScalar α] {n : Nat} {p : Problem σ α} {config : Config α}
  {budget i : Nat} {current : Iterate α n} {r : Array α} {s s₁ : Session σ α}

/-- without a usable pivot the rest of the loop goes on from the same point with twice the
damping, in the session that the Jacobian has left -/
theorem run_passes_of_singular {s₂ : Session σ α} {J : Mat α r.size n}
    (hr : Returns (residuals p current.point.toArray) s r s₁)
    (above : ¬ norm r < config.tolerance)
    (hJ : Returns (jacobian p current.point r.toVector config.differenceStep)
      (recorded s₁ i current (norm r)) J s₂)
    (hstep : dampedStep J r.toVector current.damping = none) :
    (passes p config (budget + 1) i current).run s =
      (passes p config budget (i + 1) ⟨current.point, Damping.tighten current.damping⟩).run
        { s₂ with log := s₂.log.push (.singular i current.damping) } := by
  rw [run_passes_of_above hr above]
  exact run_bind_of_returns (returns_attempt.mpr ⟨J, s₂, hJ, .inl ⟨hstep, rfl, rfl⟩⟩)

end Solve

/-- **An infinity or a NaN anywhere in a matrix makes it singular**, as a matrix to be solved and
as a Jacobian; a pass with such a Jacobian keeps the point, doubles the damping and evaluates
nothing more. -/
theorem singular_of_nonFinite :
    (∀ {n : Nat} (a : Mat Float n n) (b : Vector Float n), a.HasNonFinite →
      (⟨n, n, a⟩ : DenseMatrix Float).solve b.toArray = .error .singular) ∧
    (∀ {m n : Nat} (J : Mat Float m n) (r : Vector Float m) (damping : Float), J.HasNonFinite →
      (⟨m, n, J⟩ : DenseMatrix Float).dampedStep r.toArray damping = .error .singular) ∧
    ∀ {σ : Type} (p : Problem σ Float) (config : Config Float) {n : Nat} (budget i : Nat)
      (current : Iterate Float n) (r : Array Float) (J : Mat Float r.size n)
      (s s₁ s₂ : Session σ Float),
      Solve.Returns (Solve.residuals p current.point.toArray) s r s₁ →
      ¬ norm r < config.tolerance →
      Solve.Returns (Solve.jacobian p current.point r.toVector config.differenceStep)
        (Solve.recorded s₁ i current (norm r)) J s₂ →
      J.HasNonFinite →
      (Solve.passes p config (budget + 1) i current).run s =
        (Solve.passes p config budget (i + 1) ⟨current.point, Damping.tighten current.damping⟩).run
          { s₂ with log := s₂.log.push (.singular i current.damping) } := by
  refine ⟨?_, ?_, ?_⟩
  · intro n a b h
    exact DenseMatrix.solve_of_hasNonFinite h b
  · intro m n J r damping h
    exact DenseMatrix.dampedStep_of_hasNonFinite h r damping
  · intro σ p config n budget i current r J s s₁ s₂ hr above hJ h
    exact Solve.run_passes_of_singular hr above hJ (dampedStep_of_hasNonFinite h _ _)

/-- the residual is `1` everywhere, and its derivative a NaN -/
def undefinedSlope : PureProblem Float where
  residuals _ := .ok #[1.0]
  jacobian _ _ _ := .ok ⟨1, 1, Mat.ofFn .rowMajor fun _ _ => 0.0 / 0.0⟩

/-- an infinity above the diagonal, behind usable pivots -/
def infiniteCorner : Mat Float 2 2 := ⟨.rowMajor, #v[#v[1.0, 1.0 / 0.0], #v[0.0, 1.0]]⟩

theorem infiniteCorner_hasNonFinite : infiniteCorner.HasNonFinite := ⟨0, 1, by decide +kernel⟩

/-- the session behind the record of a first pass at `3` -/
def firstRecord : Session Unit Float :=
  Solve.recorded ⟨(), some 1, 1, #[], #[]⟩ 0 ⟨#v[3.0], 0.25⟩ (norm #[1.0])

theorem infiniteCorner_singular :
    (⟨2, 2, infiniteCorner⟩ : DenseMatrix Float).solve #[1.0, 1.0] = .error .singular ∧
    (⟨2, 2, infiniteCorner⟩ : DenseMatrix Float).dampedStep #[1.0, 1.0] 0.5 = .error .singular ∧
    (Solve.passes undefinedSlope.toProblem twoPasses 2 0 ⟨#v[3.0], 0.25⟩).run (.start ()) =
      (Solve.passes undefinedSlope.toProblem twoPasses 1 1 ⟨#v[3.0], Damping.tighten 0.25⟩).run
        { firstRecord with log := firstRecord.log.push (.singular 0 0.25) } := by
  obtain ⟨hsolve, hstep, hpass⟩ := singular_of_nonFinite
  have hr : Solve.Returns (Solve.residuals undefinedSlope.toProblem #[3.0]) (.start ()) #[1.0]
      ⟨(), some 1, 1, #[], #[]⟩ := rfl
  have hJ : Solve.Returns
      (Solve.jacobian undefinedSlope.toProblem #v[3.0] #[1.0].toVector twoPasses.differenceStep)
      firstRecord (Mat.ofFn .rowMajor fun _ _ => 0.0 / 0.0) firstRecord := rfl
  have above : ¬ norm #[1.0] < twoPasses.tolerance := by decide +kernel
  refine ⟨hsolve _ #v[1.0, 1.0] infiniteCorner_hasNonFinite,
    hstep _ #v[1.0, 1.0] 0.5 infiniteCorner_hasNonFinite, ?_⟩
  exact hpass _ _ 1 0 ⟨#v[3.0], 0.25⟩ _ _ _ _ _ hr above hJ ⟨0, 0, by decide +kernel⟩

end LeastSquares
