import LeastSquares.Proofs.Exact.Permutation
import LeastSquares.Proofs.Exact.Real
import LeastSquares.Proofs.Solver.Correspondence
import LeastSquares.Proofs.Solver.Stationary

/-!
# The order of equations and unknowns

Over the real numbers a solve does not depend on the order in which a problem lists its equations
and its unknowns.  Let the second problem be the first one with the unknowns permuted by `κ` and the
equations by `ρ` (`PureProblem.Rearranged`).  The two solves go on in lockstep (`rearranging`): the
norm is blind to the order, and the step is the permuted step because a positive damping leaves only
one.  A central difference meets the columns in another order, so it may fail with another failure,
but it fails for both problems or for neither (`paired_ofResiduals`).
-/

namespace LeastSquares
variable {σ τ : Type} {m n : Nat}

/-! ## rearranged problems -/

/-- both fail, or both succeed with values that `P` relates -/
inductive Paired {ε β γ : Type} (P : β → γ → Prop) : Except ε β → Except ε γ → Prop where
  | error {e e' : ε} : Paired P (.error e) (.error e')
  | ok {b : β} {c : γ} (h : P b c) : Paired P (.ok b) (.ok c)

/-- the residuals of the second problem are those of the first one, permuted by `ρ` -/
def PermutedBy (ρ : Equiv.Perm (Fin m)) (r r' : Array ℝ) : Prop :=
  ∃ v : Vector ℝ m, r = v.toArray ∧ r' = (permute ρ v).toArray

/-- the rows are permuted by `ρ` and the columns by `κ`, unless neither matrix has `m` rows and `n`
columns -/
inductive DenseMatrix.Rearranged (κ : Equiv.Perm (Fin n)) (ρ : Equiv.Perm (Fin m)) :
    DenseMatrix ℝ → DenseMatrix ℝ → Prop where
  | permuted {A B : Mat ℝ m n} (h : B.toMatrix = A.toMatrix.submatrix ρ κ) :
      Rearranged κ ρ ⟨m, n, A⟩ ⟨m, n, B⟩
  | misshapen {J J' : DenseMatrix ℝ} (h : ¬(J.rows = m ∧ J.cols = n))
      (h' : ¬(J'.rows = m ∧ J'.cols = n)) : Rearranged κ ρ J J'

/-- at permuted points `f'` answers what `f` does, permuted; both differentiate numerically, or
their Jacobians are permuted likewise -/
structure PureProblem.Rearranged (κ : Equiv.Perm (Fin n)) (ρ : Equiv.Perm (Fin m))
    (f f' : PureProblem ℝ) : Prop where
  residuals : ∀ x : Vector ℝ n,
    Paired (PermutedBy ρ) (f.residuals x.toArray) (f'.residuals (permute κ x).toArray)
  jacobian : (f = .ofResiduals f.residuals ∧ f' = .ofResiduals f'.residuals) ∨
    ∀ (x : Vector ℝ n) (r : Vector ℝ m) (ε : ℝ), Paired (DenseMatrix.Rearranged κ ρ)
      (f.jacobian x.toArray r.toArray ε)
      (f'.jacobian (permute κ x).toArray (permute ρ r).toArray ε)

/-- `f` at the point in its former order, with the residuals in the new one -/
noncomputable def reorder (κ : Equiv.Perm (Fin n)) (ρ : Equiv.Perm (Fin m))
    (f : Array ℝ → Except (Failure ℝ) (Array ℝ)) (y : Array ℝ) :
    Except (Failure ℝ) (Array ℝ) :=
  (f (atSize (permute κ.symm) y)).map (atSize (permute ρ))

/-- the outcome with all points permuted -/
def Outcome.rearranged (κ : Equiv.Perm (Fin n)) (o : Outcome ℝ) : Outcome ℝ :=
  { o with
    solution := atSize (permute κ) o.solution
    history := o.history.map (Snapshot.moved (permute κ)) }

section
variable {κ : Equiv.Perm (Fin n)} {ρ : Equiv.Perm (Fin m)}

theorem paired_reorder {f : Array ℝ → Except (Failure ℝ) (Array ℝ)} {x : Vector ℝ n}
    (hlength : ∀ r, f x.toArray = .ok r → r.size = m) :
    Paired (PermutedBy ρ) (f x.toArray) (reorder κ ρ f (permute κ x).toArray) := by
  unfold reorder
  rw [atSize_toArray, permute_symm_permute]
  cases hr : f x.toArray with
  | error e => exact .error
  | ok r => exact .ok ⟨⟨r, hlength r hr⟩, rfl, atSize_toArray (permute ρ) ⟨r, hlength r hr⟩⟩

/-- every problem with numeric Jacobians can be put in another order -/
theorem PureProblem.rearranged_reorder {f : Array ℝ → Except (Failure ℝ) (Array ℝ)}
    (hlength : ∀ (x : Vector ℝ n) r, f x.toArray = .ok r → r.size = m) :
    PureProblem.Rearranged κ ρ (.ofResiduals f) (.ofResiduals (reorder κ ρ f)) where
  residuals x := paired_reorder (hlength x)
  jacobian := .inl ⟨rfl, rfl⟩

/-! ## numeric Jacobians -/

theorem Paired.ok_or_errors {ε β γ : Type} {P : β → γ → Prop} {a : Except ε β} {b : Except ε γ}
    (h : Paired P a b) :
    (∃ x y, a = .ok x ∧ b = .ok y ∧ P x y) ∨ ((∃ e, a = .error e) ∧ ∃ e, b = .error e) := by
  cases h with
  | error => exact .inr ⟨⟨_, rfl⟩, ⟨_, rfl⟩⟩
  | ok h => exact .inl ⟨_, _, rfl, rfl, h⟩

theorem Paired.of_errors {ε β γ : Type} {P : β → γ → Prop} {a : Except ε β} {b : Except ε γ}
    (ha : ∃ e, a = .error e) (hb : ∃ e, b = .error e) : Paired P a b := by
  obtain ⟨e, rfl⟩ := ha
  obtain ⟨e', rfl⟩ := hb
  exact .error

variable {f f' : Array ℝ → Except (Failure ℝ) (Array ℝ)}

/-- evaluations of which one coordinate has been changed in the same way -/
theorem evaluated_or_failed
    (h : ∀ x : Vector ℝ n, Paired (PermutedBy ρ) (f x.toArray) (f' (permute κ x).toArray))
    (x : Vector ℝ n) (g : ℝ → ℝ) (i : Fin n) :
    (∃ v : Vector ℝ m, f (x.set (κ i) (g (x.get (κ i))) (κ i).isLt).toArray = .ok v.toArray ∧
      f' ((permute κ x).set i (g ((permute κ x).get i)) i.isLt).toArray =
        .ok (permute ρ v).toArray) ∨
    ((∃ e, f (x.set (κ i) (g (x.get (κ i))) (κ i).isLt).toArray = .error e) ∧
      ∃ e, f' ((permute κ x).set i (g ((permute κ x).get i)) i.isLt).toArray = .error e) := by
  rw [← permute_set]
  rcases (h (x.set (κ i) (g (x.get (κ i))) (κ i).isLt)).ok_or_errors with
    ⟨r, r', hr, hr', v, rfl, rfl⟩ | herrors
  · exact .inl ⟨v, hr, hr'⟩
  · exact .inr herrors

theorem forall_or_exists {P Q : Fin n → Prop} (h : ∀ i, P i ∨ Q i) : (∀ i, P i) ∨ ∃ i, Q i := by
  rw [or_iff_not_imp_right, not_exists]
  intro hQ i
  exact (h i).resolve_right (hQ i)

/-- the columns come in another order, but the matrices of differences are permuted like the
residuals, unless some evaluation fails -/
theorem paired_ofResiduals
    (h : ∀ x : Vector ℝ n, Paired (PermutedBy ρ) (f x.toArray) (f' (permute κ x).toArray))
    (x : Vector ℝ n) (r : Vector ℝ m) (ε : ℝ) :
    Paired (DenseMatrix.Rearranged κ ρ)
      ((PureProblem.ofResiduals f).jacobian x.toArray r.toArray ε)
      ((PureProblem.ofResiduals f').jacobian (permute κ x).toArray (permute ρ r).toArray ε) := by
  rcases forall_or_exists (evaluated_or_failed h x (· + ε)) with hforward | ⟨i, hf, hf'⟩
  case inr =>
    exact .of_errors (PureProblem.exists_error_jacobian (.inl hf) r.toArray)
      (PureProblem.exists_error_jacobian (.inl hf') (permute ρ r).toArray)
  rcases forall_or_exists (evaluated_or_failed h x (· - ε)) with hbackward | ⟨i, hf, hf'⟩
  case inr =>
    exact .of_errors (PureProblem.exists_error_jacobian (.inr hf) r.toArray)
      (PureProblem.exists_error_jacobian (.inr hf') (permute ρ r).toArray)
  choose u hu hu' using hforward
  choose v hv hv' using hbackward
  -- column `κ i` of the first matrix is made of what belongs to column `i` of the second one
  have hjacobian := PureProblem.jacobian_ofResiduals (f := f) (x := x) (ε := ε)
    (u := fun j => u (κ.symm j)) (v := fun j => v (κ.symm j))
    (fun j => by simpa using hu (κ.symm j)) (fun j => by simpa using hv (κ.symm j)) r
  rw [hjacobian, PureProblem.jacobian_ofResiduals hu' hv' (permute ρ r)]
  refine .ok (.permuted ?_)
  ext i j
  rw [Matrix.submatrix_apply, Mat.toMatrix_apply, Mat.toMatrix_apply, Mat.entry_ofFn,
    Mat.entry_ofFn, get_permute, get_permute, κ.symm_apply_apply]
  rfl

/-! ## in step -/

namespace Solve

theorem norm_permute (ρ : Equiv.Perm (Fin m)) (v : Vector ℝ m) :
    norm (permute ρ v).toArray = norm v.toArray := by
  rw [norm_eq, norm_eq, get_permute, normSq_comp]

/-- the points are permuted, and nothing else is -/
def rearranging (σ τ : Type) (κ : Equiv.Perm (Fin n)) (ρ : Equiv.Perm (Fin m)) (tolerance : ℝ) :
    Correspondence σ τ ℝ n where
  point := permute κ
  residuals := PermutedBy ρ
  damping μ := 0 < μ
  size_eq hr := by
    obtain ⟨v, rfl, rfl⟩ := hr
    rw [Vector.size_toArray, Vector.size_toArray]
  norm_eq hr := by
    obtain ⟨v, rfl, rfl⟩ := hr
    exact (norm_permute ρ v).symm
  add x s := permute_zipWith κ (· + ·) x s
  next accepted _ hdamping := Damping.next_pos accepted hdamping
  state _ _ := True
  failure _ _ := True
  refl _ := trivial
  tolerance := tolerance
  charge := 0

theorem outcome_rearranging (tolerance : ℝ) (o : Outcome ℝ) :
    (rearranging σ τ κ ρ tolerance).outcome o = o.rearranged κ := by
  unfold Correspondence.outcome
  show ({ o with solution := _, history := _, evaluations := _ + 0 * _ } : Outcome ℝ) = _
  rw [Nat.zero_mul]
  rfl

theorem together_of_paired {β γ : Type} {x : Evaluation σ ℝ β} {y : Evaluation τ ℝ γ}
    {a : Except (Failure ℝ) β} {b : Except (Failure ℝ) γ} {P : β → γ → Prop}
    (hx : ∀ u, (x.run u).1 = a) (hy : ∀ v, (y.run v).1 = b) (h : Paired P a b) :
    Together (fun _ _ => True) x y (fun b c _ _ => P b c ∧ True) fun _ _ _ _ => True ∧ True := by
  intro u v _
  have hxu : x.run u = (a, (x.run u).2) := Prod.ext (hx u) rfl
  have hyv : y.run v = (b, (y.run v).2) := Prod.ext (hy v) rfl
  cases h with
  | error => exact .inr ⟨_, _, _, _, hxu, hyv, trivial, trivial⟩
  | ok h => exact .inl ⟨_, _, _, _, hxu, hyv, h, trivial⟩

theorem together_shaped_rearranged {J J' : DenseMatrix ℝ} (hJ : J.Rearranged κ ρ J')
    {tolerance : ℝ} (owed : Nat) :
    Together ((rearranging σ τ κ ρ tolerance).coupling.Beside owed) (shaped m n J) (shaped m n J')
      (fun A B s t => B.toMatrix = A.toMatrix.submatrix ρ κ ∧
        (rearranging σ τ κ ρ tolerance).coupling.Beside owed s t)
      (rearranging σ τ κ ρ tolerance).coupling.Failed := by
  unfold shaped
  cases hJ with
  | permuted h =>
    rw [DenseMatrix.sized?_self ⟨m, n, _⟩, DenseMatrix.sized?_self ⟨m, n, _⟩]
    exact .pure fun _ _ hst => ⟨h, hst⟩
  | misshapen h h' =>
    rw [DenseMatrix.sized?_eq_none h, DenseMatrix.sized?_eq_none h']
    exact .throw fun _ _ hst => ⟨trivial, hst.state, hst.log⟩

variable {p : Problem σ ℝ} {q : Problem τ ℝ} {f f' : PureProblem ℝ}

theorem paired_jacobian (h : f.Rearranged κ ρ f') (x : Vector ℝ n) (r : Vector ℝ m) (ε : ℝ) :
    Paired (DenseMatrix.Rearranged κ ρ) (f.jacobian x.toArray r.toArray ε)
      (f'.jacobian (permute κ x).toArray (permute ρ r).toArray ε) := by
  rcases h.jacobian with ⟨hf, hf'⟩ | hcustom
  · rw [hf, hf']
    exact paired_ofResiduals h.residuals x r ε
  · exact hcustom x r ε

theorem inStep_of_rearranged (hp : p.IsPure f) (hq : q.IsPure f') (h : f.Rearranged κ ρ f')
    (hflag : q.hasCustomJacobian = p.hasCustomJacobian) (tolerance ε : ℝ) :
    InStep (rearranging σ τ κ ρ tolerance).coupling p q ε where
  residuals _ x := Correspondence.together_call
    (together_of_paired (hp.residuals _) (hq.residuals _) (h.residuals x))
  step current r r' hr hdamping := by
    obtain ⟨v, rfl, rfl⟩ := hr
    rw [stepAt_toVector, stepAt_toVector]
    apply Correspondence.together_stepAt
    case hcall =>
      exact together_of_paired (hp.jacobian _ _ ε) (hq.jacobian _ _ ε)
        (paired_jacobian h current.point v ε)
    case hcount =>
      rw [hflag]
      rfl
    case hshaped =>
      intro J J' hJ
      exact together_shaped_rearranged hJ 0
    case hstep =>
      intro A B hB
      exact dampedStep_permute hB v hdamping

end Solve

/-! ## whole solves -/

/-- **Without rounding a solve does not depend on the order of equations and unknowns.**  Of a
problem and the same problem in another order both solves return, with the same outcome up to the
order of the coordinates of its points, or both fail. -/
theorem minimize_rearranged {p : Problem σ ℝ} {q : Problem τ ℝ} {f f' : PureProblem ℝ}
    (hp : p.IsPure f) (hq : q.IsPure f') (h : f.Rearranged κ ρ f')
    (hflag : q.hasCustomJacobian = p.hasCustomJacobian) (config : Config ℝ) (x₀ : Vector ℝ n)
    (u : σ) (v : τ) :
    (∃ o, ((minimize config p x₀.toArray).run u).1.result = .ok o ∧
      ((minimize config q (permute κ x₀).toArray).run v).1.result = .ok (o.rearranged κ) ∧
      o.solution.size = n ∧ ∀ a ∈ o.history, a.point.size = n) ∨
    ((∃ e, ((minimize config p x₀.toArray).run u).1.result = .error e) ∧
      ∃ e, ((minimize config q (permute κ x₀).toArray).run v).1.result = .error e) := by
  have hstep := Solve.inStep_of_rearranged hp hq h hflag config.tolerance config.differenceStep
  have hdamping (hvalid : config.validate = .ok ()) : 0 < config.initialDamping :=
    (Config.validate_real.mp hvalid).1
  obtain ⟨report, report', u', v', hu, hv, -, hreports⟩ :=
    Correspondence.exists_reports hstep rfl hdamping x₀ (u := u) (v := v) trivial
  have hx : (Solve.rearranging σ τ κ ρ config.tolerance).point x₀ = permute κ x₀ := rfl
  rw [hx] at hv
  cases hreports with
  | failed _ =>
    rw [hu, hv]
    exact .inr ⟨⟨_, rfl⟩, ⟨_, rfl⟩⟩
  | returned =>
    have hresult := congrArg (fun run => run.1.result) hu
    have hrun := LegalRun.of_minimize hp hresult
    have hsolution := hrun.size_solution.trans x₀.size_toArray
    rw [hu, hv, Solve.outcome_rearranging]
    exact .inl ⟨_, rfl, rfl, hsolution, fun a ha => (hrun.size_recorded ha).trans x₀.size_toArray⟩

end

/-- the residuals `x y - 1` and `x - y` -/
noncomputable def hyperbola (x : Array ℝ) : Array ℝ :=
  #[x.getD 0 0 * x.getD 1 0 - 1, x.getD 0 0 - x.getD 1 0]

noncomputable def hyperbolaProblem : Problem Unit ℝ := .ofFunction fun x => pure (hyperbola x)

/-- the residuals of the hyperbola with both orders reversed -/
noncomputable def swappedResiduals : Array ℝ → Except (Failure ℝ) (Array ℝ) :=
  reorder (Equiv.swap (0 : Fin 2) 1) (Equiv.swap (0 : Fin 2) 1) fun x => .ok (hyperbola x)

noncomputable def swappedProblem : Problem Unit ℝ :=
  .ofResiduals fun x => ExceptT.mk (pure (swappedResiduals x))

theorem hyperbola_swapped : ∃ f f', hyperbolaProblem.IsPure f ∧ swappedProblem.IsPure f' ∧
    f.Rearranged (Equiv.swap (0 : Fin 2) 1) (Equiv.swap (0 : Fin 2) 1) f' ∧
    swappedProblem.hasCustomJacobian = hyperbolaProblem.hasCustomJacobian ∧
    ∃ o, ((minimize threePasses hyperbolaProblem #[2, 1]).run ()).1.result = .ok o ∧
      ((minimize threePasses swappedProblem #[1, 2]).run ()).1.result =
        .ok (o.rearranged (Equiv.swap (0 : Fin 2) 1)) ∧
      o.solution.size = 2 ∧ ∀ a ∈ o.history, a.point.size = 2 := by
  have hpure : hyperbolaProblem.IsPure (.ofResiduals fun x => .ok (hyperbola x)) :=
    Problem.isPure_ofResiduals fun _ _ => rfl
  have hpure' : swappedProblem.IsPure (.ofResiduals swappedResiduals) :=
    Problem.isPure_ofResiduals fun _ _ => rfl
  have hrearranged : PureProblem.Rearranged (Equiv.swap (0 : Fin 2) 1) (Equiv.swap (0 : Fin 2) 1)
      (.ofResiduals fun x => .ok (hyperbola x)) (.ofResiduals swappedResiduals) := by
    refine PureProblem.rearranged_reorder fun x r hr => ?_
    obtain rfl := Except.ok.inj hr
    rfl
  have hvalid : threePasses.validate = .ok () :=
    Config.validate_real.mpr ⟨one_pos, one_pos, le_refl (0 : ℝ)⟩
  have hanswers : (PureProblem.ofResiduals fun x => .ok (hyperbola x)).Answers 2 2 :=
    PureProblem.answers_ofResiduals fun x => ⟨⟨hyperbola x.toArray, rfl⟩, rfl⟩
  have hok : ∃ o, ((minimize threePasses hyperbolaProblem #[2, 1]).run ()).1.result = .ok o :=
    exists_outcome_of_answers hpure hanswers hvalid two_ne_zero ()
  refine ⟨_, _, hpure, hpure', hrearranged, rfl, ?_⟩
  rcases minimize_rearranged hpure hpure' hrearranged rfl threePasses #v[2, 1] () () with
    houtcome | ⟨⟨e, he⟩, -⟩
  · exact houtcome
  · obtain ⟨o, ho⟩ := hok
    rw [ho] at he
    cases he

end LeastSquares
