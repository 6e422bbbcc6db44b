import LeastSquares.Proofs.Solver.Lockstep

/-!
# Two solves that agree

Two problems may answer the same as long as their sessions are related (`SameAnswers`), by a
relation that the bookkeeping of a session preserves (`Bookkeeping`).  Then nothing is moved and
nothing is owed: the two solves are coupled by the relation itself (`Bookkeeping.coupling`), so
their parts agree and what they return differs by what the relation leaves open.
-/

namespace LeastSquares
namespace Solve
variable {σ τ α : Type} {n k : Nat} {R : Session σ α → Session τ α → Prop} {p : Problem σ α}
  {q : Problem τ α}

/-- a relation that the bookkeeping of a session preserves, where the first solve has made `k` more
passes -/
structure Bookkeeping (R : Session σ α → Session τ α → Prop) (k : Nat) : Prop where
  length_eq : ∀ {s t}, R s t → s.residualLength = t.residualLength
  pin : ∀ {s t}, R s t → ∀ m, R { s with residualLength := some m }
    { t with residualLength := some m }
  count : ∀ {s t}, R s t → ∀ c, R { s with evaluations := s.evaluations + c }
    { t with evaluations := t.evaluations + c }
  record : ∀ {s t}, R s t → ∀ a, R { s with history := s.history.push (Snapshot.later k a) }
    { t with history := t.history.push a }
  emit : ∀ {s t}, R s t → ∀ e, R { s with log := s.log.push (Event.later k e) }
    { t with log := t.log.push e }

/-- the problems answer the same in related sessions, and leave related ones -/
structure SameAnswers (R : Session σ α → Session τ α → Prop) (p : Problem σ α) (q : Problem τ α) :
    Prop where
  residuals : ∀ x, Agree R (call (p.residuals x)) (call (q.residuals x))
  jacobian : ∀ x r ε, Agree R (call (p.jacobian x r ε)) (call (q.jacobian x r ε))
  hasCustomJacobian : p.hasCustomJacobian = q.hasCustomJacobian

variable [RealScalar α] {config config' : Config α}

/-- nothing differs but what the relation leaves open -/
def Bookkeeping.coupling (h : Bookkeeping R k) (n : Nat) (tolerance : α) : Coupling σ τ α n where
  toAlignment := .same n fun _ => True
  tolerance := tolerance
  before := k
  Beside _ := R
  Failed e e' s t := e = e' ∧ R s t
  refl _ hst := ⟨rfl, hst⟩
  length_eq := h.length_eq
  pin m hst := h.pin hst m
  count c hst := h.count hst c
  record a hst := by
    have hsame : a.moved (Alignment.same n fun _ => True).point = a :=
      congrFun Snapshot.moved_id a
    rw [hsame]
    exact h.record hst a
  emit e hst := h.emit hst e

theorem SameAnswers.inStep (h : SameAnswers R p q) (hR : Bookkeeping R k) (tolerance ε : α) :
    InStep (hR.coupling n tolerance) p q ε where
  residuals _ x := (h.residuals x.toArray).imp fun _ _ _ _ hst => ⟨⟨hst.1, trivial⟩, hst.2⟩
  step current r r' hr _ := by
    obtain ⟨rfl, -⟩ := hr
    apply together_stepAt (C := hR.coupling n tolerance) (P := Eq) (Q := Eq)
    case hcall => exact h.jacobian current.point.toArray r ε
    case hcount =>
      rw [h.hasCustomJacobian]
      exact together_count _
    case hshaped =>
      rintro J _ rfl
      exact together_shaped r.size J
    case hstep =>
      rintro A _ rfl
      exact Option.map_id_apply.symm

theorem agree_residuals (hR : Bookkeeping R k) (h : SameAnswers R p q) (x : Array α) :
    Agree R (residuals p x) (residuals q x) :=
  ((h.inStep hR Scalar.zero Scalar.zero).together_residuals 0 ⟨x, rfl⟩).imp
    fun _ _ _ _ hst => ⟨hst.1.1, hst.2⟩

theorem agree_attempt (hR : Bookkeeping R k) (h : SameAnswers R p q) (ε : α) (i : Nat)
    (current : Iterate α n) (r : Array α) :
    Agree R (attempt p ε (i + k) current r) (attempt q ε i current r) :=
  ((h.inStep hR current.damping ε).together_attempt i trivial ⟨rfl, trivial⟩).imp
    fun _ _ _ _ hst => ⟨hst.1.1.symm, hst.2⟩

theorem agree_passes (hR : Bookkeeping R k) (h : SameAnswers R p q)
    (htolerance : config.tolerance = config'.tolerance)
    (hstep : config.differenceStep = config'.differenceStep) (budget i : Nat)
    (current : Iterate α n) :
    Agree R (passes p config budget (i + k) current) (passes q config' budget i current) :=
  ((h.inStep hR config.tolerance _).together_passes rfl htolerance.symm hstep.symm budget i
    current trivial).imp fun _ _ _ _ hst => ⟨hst.1.symm, hst.2⟩

end Solve
end LeastSquares
