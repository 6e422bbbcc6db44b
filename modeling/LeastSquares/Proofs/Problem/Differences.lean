import LeastSquares.Proofs.Solver.Agreement
import LeastSquares.Proofs.Solver.Run

/-!
# Central differences as a sequence of evaluations

An evaluation that consists of others can be called as a whole or one part after the other
(`call_bind`, `call_ofFnM`).  So what is known of two solves side by side holds of a
finite-difference Jacobian as well: if the residuals agree, the Jacobians do
(`agree_centralDifference`).  In particular, residuals that depend on nothing but the point have a
Jacobian that does not either (`Problem.isPure_ofResiduals`), and it is a matrix of quotients
(`PureProblem.jacobian_ofResiduals`), unless one of the evaluations around the point fails
(`PureProblem.exists_error_jacobian`).
-/

namespace LeastSquares
variable {σ τ α β γ : Type}

namespace Solve

/-! ## calls of a sequence -/

theorem call_pure (b : β) : call (pure b : Evaluation σ α β) = pure b := rfl

theorem call_bind (x : Evaluation σ α β) (f : β → Evaluation σ α γ) :
    call (x >>= f) = call x >>= fun b => call (f b) := by
  funext s
  show (call (x >>= f)).run s = (call x >>= fun b => call (f b)).run s
  rw [run_bind, run_call, run_call, run_bind]
  rcases x.run s.problem with ⟨_ | b, q⟩
  · rfl
  · rfl

theorem call_ofFnM {n : Nat} (f : Fin n → Evaluation σ α β) :
    call (Vector.ofFnM f) = Vector.ofFnM fun i => call (f i) := by
  induction n with
  | zero => simp only [Vector.ofFnM_zero, call_pure]
  | succ n ih => simp only [Vector.ofFnM_succ, call_bind, call_pure, ih]

/-! ## agreement of central differences -/

variable {R : Session σ α → Session τ α → Prop}

theorem agree_ofFnM {n : Nat} {f : Fin n → Solve σ α β} {g : Fin n → Solve τ α β}
    (h : ∀ i, Agree R (f i) (g i)) : Agree R (Vector.ofFnM f) (Vector.ofFnM g) := by
  induction n with
  | zero =>
    rw [Vector.ofFnM_zero, Vector.ofFnM_zero]
    exact .pure _
  | succ n ih =>
    rw [Vector.ofFnM_succ, Vector.ofFnM_succ]
    refine (ih fun i => h i.castSucc).bind fun init => ?_
    exact (h (Fin.last n)).bind fun last => .pure _

theorem agree_expectLength (m : Nat) (r : Array α) :
    Agree R (call (expectLength m r)) (call (expectLength m r)) := by
  unfold expectLength
  split
  · exact .pure _
  · exact .throw _

section
variable [Scalar α]

theorem agree_differenceColumn {f : Array α → Evaluation σ α (Array α)}
    {g : Array α → Evaluation τ α (Array α)} (h : ∀ y, Agree R (call (f y)) (call (g y)))
    (x : Array α) (m : Nat) (ε : α) (j : Fin x.size) :
    Agree R (call (differenceColumn f x m ε j)) (call (differenceColumn g x m ε j)) := by
  unfold differenceColumn
  simp only [call_bind]
  refine (h (forwardPoint x ε j)).bind fun forward => ?_
  refine (h (backwardPoint x ε j)).bind fun backward => ?_
  refine (agree_expectLength m forward).bind fun u => ?_
  exact (agree_expectLength m backward).bind fun v => .pure _

/-- residuals that agree have finite-difference Jacobians that agree -/
theorem agree_centralDifference {f : Array α → Evaluation σ α (Array α)}
    {g : Array α → Evaluation τ α (Array α)} (h : ∀ y, Agree R (call (f y)) (call (g y)))
    (x r : Array α) (ε : α) :
    Agree R (call (centralDifference f x r ε)) (call (centralDifference g x r ε)) := by
  unfold centralDifference
  rw [call_bind, call_bind, call_ofFnM, call_ofFnM]
  exact (agree_ofFnM fun j => agree_differenceColumn h x r.size ε j).bind fun columns => .pure _

end
end Solve

/-! ## evaluations that fail -/

theorem evaluation_cases (x : Evaluation Unit α β) :
    (∃ b, x = pure b) ∨ ∃ e : Failure α, x = throw e := by
  rcases hx : x.run () with ⟨e | b, u⟩
  · exact .inr ⟨e, funext fun _ => hx⟩
  · exact .inl ⟨b, funext fun _ => hx⟩

def Fails (x : Evaluation Unit α β) : Prop := ∃ e : Failure α, x = throw e

namespace Fails
variable {x : Evaluation Unit α β} {g : β → Evaluation Unit α γ}

theorem bind (h : Fails x) : Fails (x >>= g) := by
  obtain ⟨e, rfl⟩ := h
  exact ⟨e, rfl⟩

theorem bind_of_forall (h : ∀ b, Fails (g b)) : Fails (x >>= g) := by
  rcases evaluation_cases x with ⟨b, rfl⟩ | hx
  · rw [pure_bind]
    exact h b
  · exact bind hx

/-- a sequence fails if one of its parts does -/
theorem ofFnM {n : Nat} {g : Fin n → Evaluation Unit α β} {i : Fin n} (h : Fails (g i)) :
    Fails (Vector.ofFnM g) := by
  induction n with
  | zero => exact i.elim0
  | succ n ih =>
    rw [Vector.ofFnM_succ]
    cases i using Fin.lastCases with
    | last => exact bind_of_forall fun _ => bind h
    | cast i => exact bind (ih h)

end Fails

/-! ## pure residuals -/

theorem expectLength_toArray {m : Nat} (v : Vector α m) :
    (expectLength m v.toArray : Evaluation σ α (Vector α m)) = pure v :=
  dif_pos v.size_toArray

variable [Scalar α]

/-- what a problem answers that is given by its residuals and differentiates them numerically -/
def PureProblem.ofResiduals (f : Array α → Except (Failure α) (Array α)) : PureProblem α where
  residuals := f
  jacobian x r ε :=
    ((centralDifference (fun y => ExceptT.mk (pure (f y))) x r ε : Evaluation Unit α _).run ()).1

theorem Problem.isPure_ofResiduals {g : Array α → Evaluation σ α (Array α)}
    {f : Array α → Except (Failure α) (Array α)} (h : ∀ x q, ((g x).run q).1 = f x) :
    (Problem.ofResiduals g).IsPure (.ofResiduals f) where
  residuals := h
  jacobian x r ε q := by
    have hresiduals (y : Array α) :
        Agree (fun (_ : Session σ α) (_ : Session Unit α) => True) (Solve.call (g y))
          (Solve.call (ExceptT.mk (pure (f y)))) :=
      .of_run fun s _ _ => ⟨h y s.problem, trivial⟩
    exact ((Solve.agree_centralDifference hresiduals x r ε).run
      (s := .start q) (t := .start ()) trivial).1

/-- where the residuals around a point can be had without a failure and have the same length, their
central difference is a matrix of quotients -/
theorem centralDifference_eq {m n : Nat} {f : Array α → Evaluation σ α (Array α)}
    {x : Vector α n} {ε : α} {u v : Fin n → Vector α m}
    (hu : ∀ j : Fin n, f (x.set j (x.get j + ε) j.isLt).toArray = pure (u j).toArray)
    (hv : ∀ j : Fin n, f (x.set j (x.get j - ε) j.isLt).toArray = pure (v j).toArray)
    (r : Vector α m) :
    centralDifference f x.toArray r.toArray ε = pure ⟨m, n,
      .ofFn .rowMajor fun i j => ((u j).get i - (v j).get i) / (Scalar.two * ε)⟩ := by
  obtain ⟨x, rfl⟩ := x
  obtain ⟨r, rfl⟩ := r
  let column (j : Fin x.size) := (u j).zipWith (fun u v => (u - v) / (Scalar.two * ε)) (v j)
  have hcolumn : differenceColumn f x r.size ε = fun j => pure (column j) := by
    funext j
    have hforward : f (forwardPoint x ε j) = pure (u j).toArray := hu j
    have hbackward : f (backwardPoint x ε j) = pure (v j).toArray := hv j
    unfold differenceColumn
    rw [hforward, hbackward]
    simp only [pure_bind, expectLength_toArray]
    rfl
  unfold centralDifference
  rw [hcolumn, Vector.ofFnM_pure, pure_bind]
  simp only [column, Fin.getElem_fin, Vector.getElem_ofFn, Vector.getElem_zipWith]
  rfl

/-- residuals that have the same length around a point have a finite-difference Jacobian there -/
theorem PureProblem.jacobian_ofResiduals {m n : Nat} {f : Array α → Except (Failure α) (Array α)}
    {x : Vector α n} {ε : α} {u v : Fin n → Vector α m}
    (hu : ∀ j : Fin n, f (x.set j (x.get j + ε) j.isLt).toArray = .ok (u j).toArray)
    (hv : ∀ j : Fin n, f (x.set j (x.get j - ε) j.isLt).toArray = .ok (v j).toArray)
    (r : Vector α m) :
    (PureProblem.ofResiduals f).jacobian x.toArray r.toArray ε = .ok ⟨m, n,
      .ofFn .rowMajor fun i j => ((u j).get i - (v j).get i) / (Scalar.two * ε)⟩ := by
  let residuals (y : Array α) : Evaluation Unit α (Array α) := ExceptT.mk (pure (f y))
  have hforward (j : Fin n) :
      residuals (x.set j (x.get j + ε) j.isLt).toArray = pure (u j).toArray :=
    congrArg (fun answer => ExceptT.mk (pure answer)) (hu j)
  have hbackward (j : Fin n) :
      residuals (x.set j (x.get j - ε) j.isLt).toArray = pure (v j).toArray :=
    congrArg (fun answer => ExceptT.mk (pure answer)) (hv j)
  show ((centralDifference residuals x.toArray r.toArray ε).run ()).1 = _
  rw [centralDifference_eq hforward hbackward]
  rfl

/-- a difference fails if one of its two evaluations does -/
theorem fails_differenceColumn {f : Array α → Evaluation Unit α (Array α)} {x : Array α} {m : Nat}
    {ε : α} {j : Fin x.size}
    (h : Fails (f (forwardPoint x ε j)) ∨ Fails (f (backwardPoint x ε j))) :
    Fails (differenceColumn f x m ε j) := by
  unfold differenceColumn
  rcases h with h | h
  · exact .bind h
  · exact .bind_of_forall fun _ => .bind h

theorem PureProblem.exists_error_jacobian {n : Nat} {f : Array α → Except (Failure α) (Array α)}
    {x : Vector α n} {ε : α} {j : Fin n}
    (h : (∃ e, f (x.set j (x.get j + ε) j.isLt).toArray = .error e) ∨
      ∃ e, f (x.set j (x.get j - ε) j.isLt).toArray = .error e) (r : Array α) :
    ∃ e, (PureProblem.ofResiduals f).jacobian x.toArray r ε = .error e := by
  obtain ⟨x, rfl⟩ := x
  let residuals (y : Array α) : Evaluation Unit α (Array α) := ExceptT.mk (pure (f y))
  have hfails {y : Array α} (hy : ∃ e, f y = .error e) : Fails (residuals y) := by
    obtain ⟨e, he⟩ := hy
    exact ⟨e, congrArg (fun answer => ExceptT.mk (pure answer)) he⟩
  have hcolumn : Fails (differenceColumn residuals x r.size ε j) :=
    fails_differenceColumn (h.imp hfails hfails)
  have hjacobian : Fails (centralDifference residuals x r ε) := by
    unfold centralDifference
    exact .bind (.ofFnM hcolumn)
  obtain ⟨e, he⟩ := hjacobian
  exact ⟨e, congrArg (fun evaluation => (evaluation.run ()).1) he⟩

end LeastSquares
