import LeastSquares.Proofs.Problem.Differences
import LeastSquares.Proofs.Solver.Calls

/-!
# Problems as they are formulated

A problem is formulated by its residuals and, unless these are differentiated numerically, a
Jacobian of its own.  A Jacobian of its own evaluates no residuals; a numeric one evaluates nothing
else, and the solver does not see these evaluations.  `Formulation.observed` does: it lists every
evaluation of the residuals, wherever it is made, and every Jacobian.
-/

namespace LeastSquares
variable {σ α : Type}

structure Formulation (σ α : Type) where
  residuals : Array α → Evaluation σ α (Array α)
  /-- a Jacobian of its own, which evaluates no residuals -/
  jacobian? : Option (Array α → Array α → α → Evaluation σ α (DenseMatrix α))
  hasCustomJacobian : Bool

namespace Formulation
variable [Scalar α]

def problem (F : Formulation σ α) : Problem σ α where
  residuals := F.residuals
  jacobian := F.jacobian?.getD (centralDifference F.residuals)
  hasCustomJacobian := F.hasCustomJacobian

/-- adds a call to the end of the list -/
def note (c : Call α) : Evaluation (σ × List (Call α)) α Unit := modify fun s => (s.1, s.2 ++ [c])

def observedDifference (F : Formulation σ α) (x r : Array α) (ε : α) :
    Evaluation (σ × List (Call α)) α (DenseMatrix α) := do
  let J ← centralDifference F.problem.observed.residuals x r ε
  note (.jacobian x r ε (.ok J))
  return J

/-- the problem with a list of all evaluations of its residuals and of its Jacobians; behind the
evaluations for a numeric Jacobian stands the Jacobian that comes out of them -/
def observed (F : Formulation σ α) : Problem (σ × List (Call α)) α where
  residuals := F.problem.observed.residuals
  jacobian := match F.jacobian? with
    | some _ => F.problem.observed.jacobian
    | none => F.observedDifference
  hasCustomJacobian := F.hasCustomJacobian

variable {F : Formulation σ α}

theorem observed_of_own (h : F.jacobian?.isSome = true) : F.observed = F.problem.observed := by
  obtain ⟨_, _ | _, _⟩ := F
  · cases h
  · rfl

theorem jacobian_of_numeric (h : F.jacobian?.isSome = false) :
    F.problem.jacobian = centralDifference F.residuals ∧
      F.observed.jacobian = F.observedDifference := by
  obtain ⟨_, _ | _, _⟩ := F
  · exact ⟨rfl, rfl⟩
  · cases h

/-! ## observing changes nothing -/

open Solve

theorem agree_observedDifference (F : Formulation σ α) (x r : Array α) (ε : α) :
    Agree Unobserved (call (F.observedDifference x r ε))
      (call (centralDifference F.residuals x r ε)) := by
  have hdifference := agree_centralDifference F.problem.sameAnswers_observed.residuals x r ε
  have hnote (J : DenseMatrix α) : Agree Unobserved
      (call (note (σ := σ) (.jacobian x r ε (.ok J)) >>= fun _ => pure J)) (pure J) := by
    refine .of_run fun s t hst => ?_
    subst hst
    exact ⟨rfl, rfl⟩
  unfold observedDifference
  rw [call_bind, ← bind_pure (call (centralDifference F.residuals x r ε))]
  exact hdifference.bind hnote

theorem sameAnswers_observed (F : Formulation σ α) :
    SameAnswers Unobserved F.observed F.problem where
  residuals := F.problem.sameAnswers_observed.residuals
  jacobian x r ε := by
    cases h : F.jacobian?.isSome with
    | true =>
      rw [observed_of_own h]
      exact F.problem.sameAnswers_observed.jacobian x r ε
    | false =>
      obtain ⟨hjacobian, hobserved⟩ := jacobian_of_numeric h
      rw [hjacobian, hobserved]
      exact F.agree_observedDifference x r ε
  hasCustomJacobian := rfl

end Formulation
end LeastSquares
