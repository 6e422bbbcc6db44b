import LeastSquares.Proofs.Solver.Lockstep

/-!
# Two problems whose states correspond

A `Correspondence` says which states and failures of two problems go together, and how many
evaluations the second solve counts more for a Jacobian.  It couples two solves with the same
options (`Correspondence.coupling`): the sessions differ in the points of their records and in the
count (`Correspondence.Beside`), and what is owed between a record and the Jacobian behind it is
paid with the Jacobian.  So the reports of whole solves correspond
(`Correspondence.exists_reports`).
-/

namespace LeastSquares
variable {σ τ α : Type} {n : Nat}

/-- the number of passes that did not stop the run -/
def passesAbove [Scalar α] (tolerance : α) (history : Array (Snapshot α)) : Nat :=
  history.countP fun a => !decide (a.residualNorm < tolerance)

theorem passesAbove_push [Scalar α] (tolerance : α) (history : Array (Snapshot α))
    (a : Snapshot α) : passesAbove tolerance (history.push a) =
      passesAbove tolerance history + if a.residualNorm < tolerance then 0 else 1 := by
  unfold passesAbove
  rw [Array.countP_push]
  by_cases h : a.residualNorm < tolerance <;> simp [h]

/-- the last line of the log of a solve -/
def Outcome.finished (o : Outcome α) : Event α :=
  .finished o.status o.history.size o.residualNorm o.evaluations

variable [RealScalar α]

/-- which states and failures of two problems go together, and how many evaluations the second solve
counts more for a Jacobian -/
structure Correspondence (σ τ α : Type) [RealScalar α] (n : Nat) extends Alignment α n where
  state : σ → τ → Prop
  failure : Failure α → Failure α → Prop
  refl : ∀ e, failure e e
  tolerance : α
  charge : Nat

namespace Correspondence

/-- the sessions `s` and `t` of two solves, of which the second one has still to be charged for
`owed` Jacobians -/
structure Beside (C : Correspondence σ τ α n) (owed : Nat) (s : Session σ α) (t : Session τ α) :
    Prop where
  state : C.state s.problem t.problem
  residualLength : s.residualLength = t.residualLength
  evaluations : t.evaluations + C.charge * owed =
    s.evaluations + C.charge * passesAbove C.tolerance s.history
  history : t.history = s.history.map (Snapshot.moved C.point)
  log : s.log = t.log

variable {C : Correspondence σ τ α n} {owed : Nat}

theorem Beside.start {u : σ} {v : τ} (h : C.state u v) : C.Beside 0 (.start u) (.start v) where
  state := h
  residualLength := rfl
  evaluations := rfl
  history := Array.map_empty.symm
  log := rfl

/-- the second solve is charged for what it owes -/
theorem Beside.count {owed' k k' : Nat} {s : Session σ α} {t : Session τ α}
    (hst : C.Beside owed s t) (h : k' + C.charge * owed' = k + C.charge * owed) :
    C.Beside owed' { s with evaluations := s.evaluations + k }
      { t with evaluations := t.evaluations + k' } := by
  refine ⟨hst.state, hst.residualLength, ?_, hst.history, hst.log⟩
  have hevaluations := hst.evaluations
  show t.evaluations + k' + C.charge * owed' =
    s.evaluations + k + C.charge * passesAbove C.tolerance s.history
  omega

theorem Beside.record {s : Session σ α} {t : Session τ α} (hst : C.Beside 0 s t)
    (a : Snapshot α) :
    C.Beside (if a.residualNorm < C.tolerance then 0 else 1)
      { s with history := s.history.push a }
      { t with history := t.history.push (a.moved C.point) } := by
  refine ⟨hst.state, hst.residualLength, ?_, ?_, hst.log⟩
  · have hevaluations := hst.evaluations
    show t.evaluations + C.charge * _ =
      s.evaluations + C.charge * passesAbove C.tolerance (s.history.push a)
    rw [passesAbove_push, Nat.mul_add, ← Nat.add_assoc, ← hevaluations]
    rfl
  · show t.history.push _ = (s.history.push a).map _
    rw [Array.map_push, hst.history]

def coupling (C : Correspondence σ τ α n) : Coupling σ τ α n where
  toAlignment := C.toAlignment
  tolerance := C.tolerance
  before := 0
  Beside := C.Beside
  Failed e e' s t := C.failure e e' ∧ C.state s.problem t.problem ∧ s.log = t.log
  refl e hst := ⟨C.refl e, hst.state, hst.log⟩
  length_eq hst := hst.residualLength
  pin _ hst := ⟨hst.state, rfl, hst.evaluations, hst.history, hst.log⟩
  count _ hst := hst.count rfl
  record a hst := hst.record a
  emit e hst := by
    refine ⟨hst.state, hst.residualLength, hst.evaluations, hst.history, ?_⟩
    show Array.push _ (e.later 0) = Array.push _ e
    rw [e.later_zero, hst.log]

/-- calls that correspond in states that do also correspond in sessions -/
theorem together_call {β γ : Type} {x : Evaluation σ α β} {y : Evaluation τ α γ}
    {P : β → γ → Prop}
    (h : Together C.state x y (fun b c u v => P b c ∧ C.state u v)
      fun e e' u v => C.failure e e' ∧ C.state u v) :
    Together (C.coupling.Beside owed) (Solve.call x) (Solve.call y)
      (fun b c s t => P b c ∧ C.coupling.Beside owed s t) C.coupling.Failed := by
  intro s t hst
  rcases h s.problem t.problem hst.state with ⟨b, c, u, v, hx, hy, hP, hstate⟩ |
    ⟨e, e', u, v, hx, hy, hfailure, hstate⟩
  · have hs : (Solve.call x).run s = (.ok b, { s with problem := u }) := by
      rw [Solve.run_call, hx]
    have ht : (Solve.call y).run t = (.ok c, { t with problem := v }) := by
      rw [Solve.run_call, hy]
    refine .inl ⟨b, c, _, _, hs, ht, hP, ?_⟩
    exact ⟨hstate, hst.residualLength, hst.evaluations, hst.history, hst.log⟩
  · have hs : (Solve.call x).run s = (.error e, { s with problem := u }) := by
      rw [Solve.run_call, hx]
    have ht : (Solve.call y).run t = (.error e', { t with problem := v }) := by
      rw [Solve.run_call, hy]
    exact .inr ⟨e, e', _, _, hs, ht, hfailure, hstate, hst.log⟩

/-- the second solve pays what it owes with the Jacobian, and the steps correspond if the Jacobians
lead to corresponding ones -/
theorem together_stepAt {p : Problem σ α} {q : Problem τ α} {ε : α} {m m' : Nat} {r : Vector α m}
    {r' : Vector α m'} {current : Iterate α n} {P : DenseMatrix α → DenseMatrix α → Prop}
    {Q : Mat α m n → Mat α m' n → Prop}
    (hcall : Together C.state (p.jacobian current.point.toArray r.toArray ε)
      (q.jacobian (C.point current.point).toArray r'.toArray ε)
      (fun J J' u v => P J J' ∧ C.state u v) fun e e' u v => C.failure e e' ∧ C.state u v)
    (hcount : (if q.hasCustomJacobian then 0 else 2 * n) =
      (if p.hasCustomJacobian then 0 else 2 * n) + C.charge)
    (hshaped : ∀ J J', P J J' → Together (C.coupling.Beside 0) (Solve.shaped m n J)
      (Solve.shaped m' n J') (fun A A' s t => Q A A' ∧ C.coupling.Beside 0 s t) C.coupling.Failed)
    (hstep : ∀ A A', Q A A' →
      dampedStep A' r' current.damping = (dampedStep A r current.damping).map C.point) :
    Together (C.coupling.Beside 1) (Solve.stepAt p ε current r)
      (Solve.stepAt q ε (C.coupling.iterate current) r')
      (fun s s' t t' => s' = s.map C.point ∧ C.coupling.Beside 0 t t') C.coupling.Failed := by
  refine Solve.together_stepAt (together_call hcall) (.modify fun s t hst => ?_) hshaped hstep
  refine Beside.count hst ?_
  rw [Nat.mul_zero, Nat.mul_one]
  exact hcount

/-- the outcome of the second solve -/
def outcome (C : Correspondence σ τ α n) (o : Outcome α) : Outcome α :=
  { o with
    solution := atSize C.point o.solution
    history := o.history.map (Snapshot.moved C.point)
    evaluations := o.evaluations + C.charge * passesAbove C.tolerance o.history }

/-- two solves have returned: the logs differ in nothing but what their last lines say -/
structure Returned (C : Correspondence σ τ α n) (o o' : Outcome α) (s : Session σ α)
    (t : Session τ α) : Prop where
  outcome : o' = C.outcome o
  state : C.state s.problem t.problem
  log : ∃ log : Array (Event α), s.log = log.push o.finished ∧ t.log = log.push o'.finished

theorem ends_returned : C.coupling.Ends C.Returned := by
  intro last exit status v s t hst
  have hevaluations : t.evaluations =
      s.evaluations + C.charge * passesAbove C.tolerance s.history := by
    rw [← hst.evaluations, Nat.mul_zero, Nat.add_zero]
  refine ⟨?_, hst.state, if status ≠ exit then s.log.push (.disagreement exit status) else s.log,
    rfl, ?_⟩
  · unfold outcome Solve.returned
    rw [atSize_toArray, ← hst.history, ← hevaluations]
    rfl
  · unfold Solve.reported
    rw [hst.log]
    rfl

/-- the reports of two solves -/
inductive Reports (C : Correspondence σ τ α n) : Report α → Report α → Prop where
  | failed {e e' : Failure α} {log : Array (Event α)} (failure : C.failure e e') :
      Reports C ⟨.error e, log⟩ ⟨.error e', log⟩
  | returned {o : Outcome α} {log : Array (Event α)} :
      Reports C ⟨.ok o, log.push o.finished⟩ ⟨.ok (C.outcome o), log.push (C.outcome o).finished⟩

/-- problems that are solved in step have corresponding reports -/
theorem exists_reports {p : Problem σ α} {q : Problem τ α} {config : Config α}
    (h : Solve.InStep C.coupling p q config.differenceStep)
    (htolerance : config.tolerance = C.tolerance)
    (hdamping : config.validate = .ok () → C.damping config.initialDamping) (x₀ : Vector α n)
    {u : σ} {v : τ} (huv : C.state u v) :
    ∃ report report' u' v', (minimize config p x₀.toArray).run u = (report, u') ∧
      (minimize config q (C.point x₀).toArray).run v = (report', v') ∧
      C.state u' v' ∧ C.Reports report report' := by
  have htogether := h.together_minimize htolerance rfl hdamping ends_returned x₀
  rcases htogether (.start u) (.start v) (.start huv) with
    ⟨o, o', s, t, hs, ht, rfl, hstate, log, hlog, hlog'⟩ |
    ⟨e, e', s, t, hs, ht, hfailure, hstate, hlog⟩
  · refine ⟨_, _, _, _, minimize_eq_of_run hs, minimize_eq_of_run ht, hstate, ?_⟩
    rw [hlog, hlog']
    exact .returned
  · refine ⟨_, _, _, _, minimize_eq_of_run hs, minimize_eq_of_run ht, hstate, ?_⟩
    rw [hlog]
    exact .failed hfailure

end Correspondence
end LeastSquares
