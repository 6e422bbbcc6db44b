import LeastSquares.Proofs.Solver.Agreement

/-!
# The calls of a solve

A solve calls its problem for residuals and for Jacobians.  `Problem.observed` is the same problem
with a list of these calls, each one with its answer, beside its own state; a solve of it does what
a solve of the problem itself does (`minimize_observed`).
-/

namespace LeastSquares
variable {σ α : Type}

/-! ## observed problems -/

/-- a call of a problem with its arguments and its answer -/
inductive Call (α : Type) where
  | residuals (x : Array α) (answer : Except (Failure α) (Array α))
  | jacobian (x r : Array α) (ε : α) (answer : Except (Failure α) (DenseMatrix α))

/-- the problem, which now also keeps the list of its calls, the last one at the end -/
def Problem.observed (p : Problem σ α) : Problem (σ × List (Call α)) α where
  residuals x := ExceptT.mk fun s =>
    let (answer, q) := (p.residuals x).run s.1
    (answer, q, s.2 ++ [.residuals x answer])
  jacobian x r ε := ExceptT.mk fun s =>
    let (answer, q) := (p.jacobian x r ε).run s.1
    (answer, q, s.2 ++ [.jacobian x r ε answer])
  hasCustomJacobian := p.hasCustomJacobian

section
variable {p : Problem σ α} {q q' : σ × List (Call α)}

theorem Problem.calls_of_residuals {x r : Array α}
    (h : (p.observed.residuals x).run q = (.ok r, q')) :
    q'.2 = q.2 ++ [.residuals x (.ok r)] := by
  obtain ⟨hanswer, rfl⟩ := Prod.mk.inj h
  show q.2 ++ _ = _
  rw [hanswer]

theorem Problem.calls_of_jacobian {x r : Array α} {ε : α} {J : DenseMatrix α}
    (h : (p.observed.jacobian x r ε).run q = (.ok J, q')) :
    q'.2 = q.2 ++ [.jacobian x r ε (.ok J)] := by
  obtain ⟨hanswer, rfl⟩ := Prod.mk.inj h
  show q.2 ++ _ = _
  rw [hanswer]

end

def Session.calls (s : Session (σ × List (Call α)) α) : List (Call α) := s.problem.2

/-- the session without the list of calls -/
def Session.unobserved (s : Session (σ × List (Call α)) α) : Session σ α :=
  ⟨s.problem.1, s.residualLength, s.evaluations, s.history, s.log⟩

namespace Solve

/-- a call for residuals is the last one of the session behind it -/
theorem run_call_residuals (p : Problem σ α) (x : Array α) (s : Session (σ × List (Call α)) α) :
    (call (p.observed.residuals x)).run s =
      (((p.residuals x).run s.problem.1).1,
        { s with problem := (((p.residuals x).run s.problem.1).2,
            s.calls ++ [.residuals x ((p.residuals x).run s.problem.1).1]) }) := rfl

theorem run_call_jacobian (p : Problem σ α) (x r : Array α) (ε : α)
    (s : Session (σ × List (Call α)) α) :
    (call (p.observed.jacobian x r ε)).run s =
      (((p.jacobian x r ε).run s.problem.1).1,
        { s with problem := (((p.jacobian x r ε).run s.problem.1).2,
            s.calls ++ [.jacobian x r ε ((p.jacobian x r ε).run s.problem.1).1]) }) := rfl

end Solve

/-! ## observing changes nothing -/

/-- `t` is the session `s` without the list of calls -/
def Unobserved (s : Session (σ × List (Call α)) α) (t : Session σ α) : Prop := s.unobserved = t

theorem Unobserved.bookkeeping : Solve.Bookkeeping (Unobserved (σ := σ) (α := α)) 0 where
  length_eq h := congrArg Session.residualLength h
  pin h _ := by
    subst h
    rfl
  count h _ := by
    subst h
    rfl
  record h _ := by
    subst h
    rfl
  emit h e := by
    subst h
    rw [e.later_zero]
    rfl

theorem Problem.sameAnswers_observed (p : Problem σ α) :
    Solve.SameAnswers Unobserved p.observed p where
  residuals x := .of_run fun s t h => by
    subst h
    exact ⟨rfl, rfl⟩
  jacobian x r ε := .of_run fun s t h => by
    subst h
    exact ⟨rfl, rfl⟩
  hasCustomJacobian := rfl

section
open Solve
variable [RealScalar α] {p' : Problem (σ × List (Call α)) α} {p : Problem σ α}

theorem agree_minimize_observed (h : SameAnswers Unobserved p' p) (config : Config α)
    (x₀ : Array α) :
    Agree Unobserved (Solve.minimize p' config x₀) (Solve.minimize p config x₀) := by
  have hstep := h.inStep (n := x₀.size) Unobserved.bookkeeping config.tolerance
    config.differenceStep
  refine hstep.together_minimize rfl rfl (fun _ => trivial) ?_ ⟨x₀, rfl⟩
  intro last exit status v s t hst
  subst hst
  exact ⟨rfl, rfl⟩

/-- a problem that answers the same and keeps a list of calls beside its state is solved the same -/
theorem minimize_of_sameAnswers (h : SameAnswers Unobserved p' p) (config : Config α)
    (x₀ : Array α) (q : σ) (calls : List (Call α)) :
    (minimize config p x₀).run q =
      let (report, s) := (minimize config p' x₀).run (q, calls)
      (report, s.1) := by
  obtain ⟨hresult, hstate⟩ :=
    (agree_minimize_observed h config x₀).run
      (show Unobserved (.start (q, calls)) (.start q) from rfl)
  show (Report.mk ((Solve.minimize p config x₀).run (.start q)).1
      ((Solve.minimize p config x₀).run (.start q)).2.log,
    ((Solve.minimize p config x₀).run (.start q)).2.problem) = _
  rw [← hresult, ← hstate]
  rfl

/-- a solve of an observed problem returns and leaves what a solve of the problem itself does -/
theorem minimize_observed (p : Problem σ α) (config : Config α) (x₀ : Array α) (q : σ)
    (calls : List (Call α)) :
    (minimize config p x₀).run q =
      let (report, s) := (minimize config p.observed x₀).run (q, calls)
      (report, s.1) := minimize_of_sameAnswers p.sameAnswers_observed config x₀ q calls

end
end LeastSquares
