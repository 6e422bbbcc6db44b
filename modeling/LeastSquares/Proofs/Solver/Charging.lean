import LeastSquares.Proofs.Solver.Calls
import LeastSquares.Proofs.Solver.Correspondence
import LeastSquares.Proofs.Solver.Run

/-!
# What a problem says about its Jacobian

A problem says whether its Jacobian costs evaluations of the residuals.  The solver reads that in
one place, where it counts.  So two problems that answer alike (`Problem.Alike`), of which only the
first one says that its Jacobian is its own, are solved with the same calls, and their reports
differ in nothing but the count (`Report.Charged`): a Jacobian is evaluated once behind every record
that is not below the tolerance.

The calls of the two problems need to be alike only where the solver makes them
(`inStep_of_sameAt`).
-/

namespace LeastSquares
variable {σ τ α : Type}

/-! ## reports -/

section
variable [Scalar α]

/-- the outcome with `charge` evaluations more for every pass that did not stop the run -/
def Outcome.charged (tolerance : α) (charge : Nat) (o : Outcome α) : Outcome α :=
  { o with evaluations := o.evaluations + charge * passesAbove tolerance o.history }

/-- two solves fail alike, or they return alike, except that the second one has counted `charge`
evaluations more for every pass that did not stop the run; only the last line of the log says so -/
inductive Report.Charged (tolerance : α) (charge : Nat) : Report α → Report α → Prop where
  | failed {e : Failure α} {log : Array (Event α)} :
      Charged tolerance charge ⟨.error e, log⟩ ⟨.error e, log⟩
  | returned {o : Outcome α} {log : Array (Event α)} :
      Charged tolerance charge ⟨.ok o, log.push o.finished⟩
        ⟨.ok (o.charged tolerance charge), log.push (o.charged tolerance charge).finished⟩

end

namespace Solve

/-! ## the same answers where the solver asks -/

/-- at points with `n` coordinates, and at residuals of which `P` holds, two problems answer the
same; `P` holds of the residuals -/
structure SameAt (state : σ → τ → Prop) (n : Nat) (P : Array α → Prop) (ε : α) (p : Problem σ α)
    (q : Problem τ α) : Prop where
  residuals : ∀ x : Vector α n,
    Together state (p.residuals x.toArray) (q.residuals x.toArray)
      (fun r r' u v => (r = r' ∧ P r) ∧ state u v) fun e e' u v => e = e' ∧ state u v
  jacobian : ∀ (x : Vector α n) r, P r →
    Together state (p.jacobian x.toArray r ε) (q.jacobian x.toArray r ε)
      (fun J J' u v => J = J' ∧ state u v) fun e e' u v => e = e' ∧ state u v

variable [RealScalar α] {state : σ → τ → Prop} {n : Nat} {P : Array α → Prop} {tolerance ε : α}
  {p : Problem σ α} {q : Problem τ α}

/-- nothing differs but the count -/
def charging (state : σ → τ → Prop) (n : Nat) (P : Array α → Prop) (tolerance : α) :
    Correspondence σ τ α n where
  toAlignment := .same n P
  state := state
  failure := Eq
  refl _ := rfl
  tolerance := tolerance
  charge := 2 * n

theorem outcome_charging (o : Outcome α) :
    (charging state n P tolerance).outcome o = o.charged tolerance (2 * n) := by
  unfold Correspondence.outcome
  show ({ o with solution := atSize id o.solution, history := o.history.map (Snapshot.moved id),
                 evaluations := _ } : Outcome α) = _
  rw [atSize_id, Snapshot.moved_id, Array.map_id]
  rfl

theorem charged_of_reports {report report' : Report α}
    (h : (charging state n P tolerance).Reports report report') :
    report.Charged tolerance (2 * n) report' := by
  cases h with
  | failed failure =>
    obtain rfl := failure
    exact .failed
  | returned =>
    rw [outcome_charging]
    exact .returned

/-- the second problem pays for the Jacobian, and that is all -/
theorem inStep_of_sameAt (h : SameAt state n P ε p q) (hp : p.hasCustomJacobian = true)
    (hq : q.hasCustomJacobian = false) :
    InStep (charging state n P tolerance).coupling p q ε where
  residuals _ x := Correspondence.together_call (h.residuals x)
  step current r r' hr _ := by
    obtain ⟨rfl, hP⟩ := hr
    apply Correspondence.together_stepAt (h.jacobian current.point r hP)
    case hcount =>
      rw [hp, hq]
      exact (Nat.zero_add _).symm
    case hshaped =>
      rintro J _ rfl
      exact together_shaped r.size J
    case hstep =>
      rintro A _ rfl
      exact Option.map_id_apply.symm

theorem exists_charged (config : Config α) (h : SameAt state n P config.differenceStep p q)
    (hp : p.hasCustomJacobian = true) (hq : q.hasCustomJacobian = false) (x₀ : Vector α n) {u : σ}
    {v : τ} (huv : state u v) :
    ∃ report report' u' v', (LeastSquares.minimize config p x₀.toArray).run u = (report, u') ∧
      (LeastSquares.minimize config q x₀.toArray).run v = (report', v') ∧ state u' v' ∧
      report.Charged config.tolerance (2 * n) report' := by
  obtain ⟨report, report', u', v', hu, hv, hstate, hreports⟩ :=
    Correspondence.exists_reports (inStep_of_sameAt h hp hq) rfl (fun _ => trivial) x₀ huv
  exact ⟨report, report', u', v', hu, hv, hstate, charged_of_reports hreports⟩

end Solve

/-! ## problems that answer alike -/

/-- in states that `state` relates two problems answer the same, whatever is evaluated, and go on
in such states -/
structure Problem.Alike (state : σ → τ → Prop) (p : Problem σ α) (q : Problem τ α) : Prop where
  residuals : ∀ x u v, state u v →
    ((p.residuals x).run u).1 = ((q.residuals x).run v).1 ∧
      state ((p.residuals x).run u).2 ((q.residuals x).run v).2
  jacobian : ∀ x r ε u v, state u v →
    ((p.jacobian x r ε).run u).1 = ((q.jacobian x r ε).run v).1 ∧
      state ((p.jacobian x r ε).run u).2 ((q.jacobian x r ε).run v).2

namespace Problem.Alike
variable {state : σ → τ → Prop} {p : Problem σ α} {q : Problem τ α}

theorem sameAt (h : Alike state p q) (n : Nat) (ε : α) :
    Solve.SameAt state n (fun _ => True) ε p q where
  residuals x := (Agree.of_run (h.residuals x.toArray)).imp fun _ _ _ _ hst =>
    ⟨⟨hst.1, trivial⟩, hst.2⟩
  jacobian x r _ := Agree.of_run (h.jacobian x.toArray r ε)

/-- the calls of problems that answer alike are listed alike -/
theorem observed (h : Alike state p q) :
    Alike (fun a b => state a.1 b.1 ∧ a.2 = b.2) p.observed q.observed where
  residuals x a b hab := by
    obtain ⟨hstate, hcalls⟩ := hab
    obtain ⟨hanswer, hstate'⟩ := h.residuals x a.1 b.1 hstate
    refine ⟨hanswer, hstate', ?_⟩
    show a.2 ++ [Call.residuals x _] = b.2 ++ [Call.residuals x _]
    rw [hcalls]
    exact congrArg (fun answer => b.2 ++ [Call.residuals x answer]) hanswer
  jacobian x r ε a b hab := by
    obtain ⟨hstate, hcalls⟩ := hab
    obtain ⟨hanswer, hstate'⟩ := h.jacobian x r ε a.1 b.1 hstate
    refine ⟨hanswer, hstate', ?_⟩
    show a.2 ++ [Call.jacobian x r ε _] = b.2 ++ [Call.jacobian x r ε _]
    rw [hcalls]
    exact congrArg (fun answer => b.2 ++ [Call.jacobian x r ε answer]) hanswer

/-- a problem answers like the same problem that says something else about its Jacobian -/
theorem declared (p : Problem σ α) (flag : Bool) :
    Alike Eq p { p with hasCustomJacobian := flag } where
  residuals _ u v huv := by
    subst huv
    exact ⟨rfl, rfl⟩
  jacobian _ _ _ u v huv := by
    subst huv
    exact ⟨rfl, rfl⟩

end Problem.Alike

variable [RealScalar α]

/-- **What a problem says about its Jacobian changes the count and nothing else.**  Two problems
that answer alike, of which the second one says that its Jacobian costs evaluations, get the same
calls, and their reports differ by two evaluations for every parameter and every record that is not
below the tolerance. -/
theorem minimize_declared {state : σ → τ → Prop} {p : Problem σ α} {q : Problem τ α}
    (h : p.Alike state q) (hp : p.hasCustomJacobian = true) (hq : q.hasCustomJacobian = false)
    (config : Config α) (x₀ : Array α) {u : σ} {v : τ} (huv : state u v) :
    ∃ report report' u' v' calls,
      (minimize config p x₀).run u = (report, u') ∧ (minimize config q x₀).run v = (report', v') ∧
      (minimize config p.observed x₀).run (u, []) = (report, u', calls) ∧
      (minimize config q.observed x₀).run (v, []) = (report', v', calls) ∧
      state u' v' ∧ report.Charged config.tolerance (2 * x₀.size) report' := by
  obtain ⟨report, report', ⟨u', calls⟩, ⟨v', calls'⟩, hu, hv, ⟨hstate, hcalls⟩, hcharged⟩ :=
    Solve.exists_charged config (h.observed.sameAt x₀.size config.differenceStep) hp hq ⟨x₀, rfl⟩
      (u := (u, [])) (v := (v, [])) ⟨huv, rfl⟩
  obtain rfl : calls = calls' := hcalls
  have hrun := minimize_observed p config x₀ u []
  have hrun' := minimize_observed q config x₀ v []
  rw [hu] at hrun
  rw [hv] at hrun'
  exact ⟨report, report', u', v', calls, hrun, hrun', hu, hv, hstate, hcharged⟩

/-- the square roots with a counter of the evaluations of their residuals -/
def countedRoots (own : Bool) : Problem Nat Float where
  residuals x := do
    modify (· + 1)
    ExceptT.mk (pure (squareRoots.residuals x))
  jacobian x r ε := ExceptT.mk (pure (squareRoots.jacobian x r ε))
  hasCustomJacobian := own

theorem countedRoots_declared :
    (countedRoots true).Alike Eq (countedRoots false) ∧
    (countedRoots true).hasCustomJacobian = true ∧
    (countedRoots false).hasCustomJacobian = false ∧
    ∃ report report' u' v' calls,
      (minimize twoPasses (countedRoots true) #[0.25]).run 0 = (report, u') ∧
      (minimize twoPasses (countedRoots false) #[0.25]).run 0 = (report', v') ∧
      (minimize twoPasses (countedRoots true).observed #[0.25]).run (0, []) = (report, u', calls) ∧
      (minimize twoPasses (countedRoots false).observed #[0.25]).run (0, []) =
        (report', v', calls) ∧
      u' = v' ∧ report.Charged 1e-8 2 report' ∧ report.result.isOk = true := by
  have halike : (countedRoots true).Alike Eq (countedRoots false) := .declared _ false
  obtain ⟨report, report', u', v', calls, hp, hq, hobserved, hobserved', hstate, hcharged⟩ :=
    minimize_declared halike rfl rfl twoPasses #[0.25] (u := 0) rfl
  refine ⟨halike, rfl, rfl, report, report', u', v', calls, hp, hq, hobserved, hobserved', hstate,
    hcharged, ?_⟩
  have hok : ((minimize twoPasses (countedRoots true) #[0.25]).run 0).1.result.isOk = true := by
    decide +kernel
  rw [hp] at hok
  exact hok

end LeastSquares
