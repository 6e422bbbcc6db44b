import LeastSquares.Proofs.Exact.Affine
import LeastSquares.Proofs.Exact.Real
import LeastSquares.Proofs.Solver.Ensures
import LeastSquares.Proofs.Solver.Run

/-!
# Linear least squares without rounding

Over the real numbers a solve with affine residuals cannot fail: the residuals and the Jacobian
always have their sizes (`exists_outcome_of_answers`), and a positive damping leaves no pivot zero.
What a pass does is decided by the gradient alone (`LegalRun.passed_iff_gradient`): the residual
norm goes down as long as the gradient is not zero, and where it is zero the run stays.
-/

namespace LeastSquares
open Matrix
variable {σ α : Type}

/-! ## problems that always answer -/

/-- at `n` parameters every call is answered, with `m` residuals and a Jacobian of that size -/
structure PureProblem.Answers (f : PureProblem α) (m n : Nat) : Prop where
  residuals : ∀ x : Vector α n, ∃ r : Vector α m, f.residuals x.toArray = .ok r.toArray
  jacobian : ∀ (x : Vector α n) (r : Vector α m) (ε : α), ∃ J : Mat α m n,
    f.jacobian x.toArray r.toArray ε = .ok ⟨m, n, J⟩

/-- residuals that always answer have finite-difference Jacobians that do -/
theorem PureProblem.answers_ofResiduals [Scalar α] {f : Array α → Except (Failure α) (Array α)}
    {m n : Nat} (h : ∀ x : Vector α n, ∃ r : Vector α m, f x.toArray = .ok r.toArray) :
    (PureProblem.ofResiduals f).Answers m n where
  residuals := h
  jacobian x r ε := by
    choose g hg using h
    exact ⟨_, jacobian_ofResiduals (fun j => hg _) (fun j => hg _) r⟩

namespace Solve
variable {p : Problem σ α} {f : PureProblem α} {m n : Nat}

theorem keeps_answers (hp : p.IsPure f) (hf : f.Answers m n) :
    Keeps p n (fun s => ∀ l ∈ s.residualLength, m = l)
      (fun k s => k = m ∧ s.residualLength = some m) fun _ _ => False where
  residuals x := by
    refine .of_returns fun s hs => ?_
    obtain ⟨r, hr⟩ := hf.residuals x
    have hrun : (p.residuals x.toArray).run s.problem = (.ok r.toArray, _) :=
      Prod.ext ((hp.residuals x.toArray s.problem).trans hr) rfl
    have hsize : r.toArray.size = m := r.size_toArray
    refine ⟨r.toArray, _, returns_residuals.mpr ⟨_, hrun, ?_, rfl⟩, hsize, ?_⟩
    · rw [hsize]
      exact hs
    · exact congrArg some hsize
  jacobian {k} x r ε := by
    refine .of_returns fun s hs => ?_
    obtain ⟨rfl, hlength⟩ := hs
    obtain ⟨J, hJ⟩ := hf.jacobian x r ε
    have hrun : (p.jacobian x.toArray r.toArray ε).run s.problem = (.ok ⟨k, n, J⟩, _) :=
      Prod.ext ((hp.jacobian x.toArray r.toArray ε s.problem).trans hJ) rfl
    exact ⟨J, _, returns_jacobian.mpr ⟨_, hrun, rfl⟩, rfl, hlength⟩
  ready hs := by
    intro l hl
    rw [hs.2] at hl
    exact Option.some.inj hl
  record hs _ := hs
  emit hs _ := hs

end Solve

/-- a problem that always answers is solved without a failure -/
theorem exists_outcome_of_answers [RealScalar α] {p : Problem σ α} {f : PureProblem α} {m : Nat}
    {config : Config α} {x₀ : Array α} (hp : p.IsPure f) (hf : f.Answers m x₀.size)
    (hvalid : config.validate = .ok ()) (hsize : x₀.size ≠ 0) (q : σ) :
    ∃ o, ((minimize config p x₀).run q).1.result = .ok o := by
  have hensures := (Solve.keeps_answers hp hf).minimize hvalid hsize
  obtain ⟨o, s', hreturns, -⟩ := hensures.exists_returns (s := .start q) nofun
  exact ⟨o, result_minimize.mpr ⟨s', hreturns⟩⟩

/-! ## affine residuals -/

/-- the point as a column -/
def coordinates (n : Nat) (x : Array ℝ) : Fin n → ℝ := fun j => x.getD j 0

theorem coordinates_toArray {n : Nat} (x : Vector ℝ n) : coordinates n x.toArray = x.get := by
  funext j
  have hj : j.val < x.toArray.size := by
    rw [x.size_toArray]
    exact j.isLt
  show x.toArray.getD j.val 0 = x.toArray[j.val]
  rw [Array.getD_eq_getD_getElem?, Array.getElem?_eq_getElem hj]
  rfl

/-- a run that goes down the norms `‖A x + c‖` until it is at a least-squares solution, and stays
there -/
structure Outcome.Settles {m n : Nat} (o : Outcome ℝ) (f : PureProblem ℝ) (config : Config ℝ)
    (A : Matrix (Fin m) (Fin n) ℝ) (c : Fin m → ℝ) : Prop where
  /-- no pass is singular -/
  step : ∀ k < o.history.size, ∃ r J s, f.residuals (o.state k).point = .ok r ∧
    f.jacobian (o.state k).point r config.differenceStep = .ok J ∧
    J.dampedStep r (o.state k).damping = .ok s
  accepted_iff : ∀ k < o.history.size, ¬ (o.state k).residualNorm < config.tolerance →
    (o.Passed f config.differenceStep k true ↔
      Aᵀ *ᵥ (A *ᵥ coordinates n (o.state k).point + c) ≠ 0)
  rejected_iff : ∀ k < o.history.size, ¬ (o.state k).residualNorm < config.tolerance →
    (o.Passed f config.differenceStep k false ↔
      Aᵀ *ᵥ (A *ᵥ coordinates n (o.state k).point + c) = 0)
  lower_iff : ∀ k < o.history.size, ¬ (o.state k).residualNorm < config.tolerance →
    ((o.state (k + 1)).residualNorm < (o.state k).residualNorm ↔
      ¬ IsLeastSquares A c (coordinates n (o.state k).point))
  settled : ∀ i k, i ≤ k → k ≤ o.history.size →
    IsLeastSquares A c (coordinates n (o.state i).point) → (o.state k).point = (o.state i).point

section
variable {m n : Nat} {A : Matrix (Fin m) (Fin n) ℝ} {c : Fin m → ℝ} {f : PureProblem ℝ}

theorem PureProblem.IsAffine.answers (hf : f.IsAffine A c) : f.Answers m n where
  residuals x := ⟨_, hf.residuals x⟩
  jacobian x r ε := by
    obtain ⟨J, hJ, -⟩ := hf.exists_jacobian x r ε
    exact ⟨J, hJ⟩

/-- at every point there is a step, and it is a better one unless the gradient is zero -/
theorem PureProblem.IsAffine.exists_step (hf : f.IsAffine A c) {ε damping : ℝ} (hε : ε ≠ 0)
    (hdamping : 0 < damping) (x : Vector ℝ n) :
    ∃ (J : Mat ℝ m n) (s : Vector ℝ n),
      f.jacobian x.toArray (affine A c x).toArray ε = .ok ⟨m, n, J⟩ ∧
      (⟨m, n, J⟩ : DenseMatrix ℝ).dampedStep (affine A c x).toArray damping = .ok s.toArray ∧
      (norm (affine A c (x.zipWith (· + ·) s)).toArray < norm (affine A c x).toArray ↔
        Aᵀ *ᵥ (A *ᵥ x.get + c) ≠ 0) := by
  obtain ⟨J, hJ, hmatrix⟩ := hf.exists_jacobian x (affine A c x) ε
  obtain ⟨s, hs, hnormal⟩ := DenseMatrix.dampedStep_of_pos J (affine A c x) hdamping
  refine ⟨J, s, hJ, hs, ?_⟩
  rw [hmatrix hε, get_affine] at hnormal
  have hmove : (x.zipWith (· + ·) s).get = x.get + s.get := by
    funext j
    exact get_zipWith _ _ _ j
  rw [norm_lt_norm_iff, get_affine, get_affine, hmove, mulVec_add_add,
    add_comm (A *ᵥ x.get + c)]
  exact normSq_step_lt hdamping hnormal

/-- from the state `a` there is a step, and the gradient alone decides whether it is accepted -/
structure GradientDecides (f : PureProblem ℝ) (ε : ℝ) (A : Matrix (Fin m) (Fin n) ℝ)
    (c : Fin m → ℝ) (a : Snapshot ℝ) : Prop where
  step : ∃ r J s, f.residuals a.point = .ok r ∧ f.jacobian a.point r ε = .ok J ∧
    J.dampedStep r a.damping = .ok s
  accepted_iff : ∀ {y μ accepted}, Pass f ε a y μ accepted →
    (accepted = true ↔ Aᵀ *ᵥ (A *ᵥ coordinates n a.point + c) ≠ 0)

theorem PureProblem.IsAffine.gradientDecides (hf : f.IsAffine A c) {ε : ℝ} (hε : ε ≠ 0)
    {a : Snapshot ℝ} (hdamping : 0 < a.damping) (hsize : a.point.size = n)
    (hnorm : f.residualNorm a.point = .ok a.residualNorm) : GradientDecides f ε A c a := by
  let x : Vector ℝ n := ⟨a.point, hsize⟩
  have hx : coordinates n a.point = x.get := coordinates_toArray x
  have hr := hf.residuals x
  obtain ⟨J, s, hJ, hs, hlower⟩ := hf.exists_step hε hdamping x
  refine ⟨⟨_, _, _, hr, hJ, hs⟩, ?_⟩
  intro y μ accepted hpass
  have hcandidate : add a.point s.toArray = .ok (x.zipWith (· + ·) s).toArray :=
    Solve.add_candidate ⟨x, a.damping⟩ s
  have hv := PureProblem.residualNorm_of_ok (hf.residuals (x.zipWith (· + ·) s))
  have hstart : a.residualNorm = norm (affine A c x).toArray := by
    rw [PureProblem.residualNorm_of_ok hr] at hnorm
    exact (Except.ok.inj hnorm).symm
  rw [hpass.accepted_iff_lower hr hJ hs hcandidate hv, hstart, hlower, hx]

end

/-! ## a run -/

namespace LegalRun
variable {n m : Nat} {A : Matrix (Fin m) (Fin n) ℝ} {c : Fin m → ℝ} {f : PureProblem ℝ}
  {config : Config ℝ} {x₀ : Vector ℝ n} {o : Outcome ℝ} {i k : Nat}

theorem damping_pos (h : LegalRun f config x₀.toArray o) (hvalid : config.validate = .ok ())
    (hk : k ≤ o.history.size) : 0 < (o.state k).damping := by
  refine h.damping_of_next (P := fun x => 0 < x) ?_ ?_ hk
  · intro accepted x hx
    exact Damping.next_pos accepted hx
  · exact Config.isPositiveFinite_real.mp (Config.validate_eq_ok.mp hvalid).1

theorem gradientDecides (h : LegalRun f config x₀.toArray o) (hf : f.IsAffine A c)
    (hvalid : config.validate = .ok ()) (hk : k < o.history.size) :
    GradientDecides f config.differenceStep A c (o.state k) := by
  have hε := Config.isPositiveFinite_real.mp (Config.validate_eq_ok.mp hvalid).2.1
  have hdamping := h.damping_pos hvalid hk.le
  have hsize : (o.state k).point.size = n := (h.size k hk.le).trans x₀.size_toArray
  exact hf.gradientDecides hε.ne' hdamping hsize (h.evaluated k hk.le)

theorem passed_iff_gradient (h : LegalRun f config x₀.toArray o) (hf : f.IsAffine A c)
    (hvalid : config.validate = .ok ()) (hk : k < o.history.size)
    (above : ¬ (o.state k).residualNorm < config.tolerance) (accepted : Bool) :
    o.Passed f config.differenceStep k accepted ↔
      (accepted = true ↔ Aᵀ *ᵥ (A *ᵥ coordinates n (o.state k).point + c) ≠ 0) := by
  have hdecides := h.gradientDecides hf hvalid hk
  refine ⟨hdecides.accepted_iff, ?_⟩
  intro haccepted
  obtain ⟨made, hmade⟩ := h.pass k hk above
  have hmadeIff := hdecides.accepted_iff hmade
  have hsame : made = accepted := Bool.eq_iff_iff.mpr (hmadeIff.trans haccepted.symm)
  rw [hsame] at hmade
  exact hmade

/-- a run stays at a least-squares solution -/
theorem point_eq_of_leastSquares (h : LegalRun f config x₀.toArray o) (hf : f.IsAffine A c)
    (hvalid : config.validate = .ok ()) (hi : i ≤ k) (hk : k ≤ o.history.size)
    (hleast : IsLeastSquares A c (coordinates n (o.state i).point)) :
    (o.state k).point = (o.state i).point := by
  induction k, hi using Nat.le_induction with
  | base => rfl
  | succ k _ ih =>
    have hstay := ih (Nat.le_of_succ_le hk)
    have hnot : ¬ o.Passed f config.differenceStep k true := by
      intro ha
      have hgradient := ((h.gradientDecides hf hvalid hk).accepted_iff ha).mp rfl
      rw [hstay] at hgradient
      exact hgradient (isLeastSquares_iff.mp hleast)
    have hsame := (h.accepted_or_point_eq hk).resolve_left hnot
    exact hsame.trans hstay

theorem settles (h : LegalRun f config x₀.toArray o) (hf : f.IsAffine A c)
    (hvalid : config.validate = .ok ()) : o.Settles f config A c := by
  constructor
  case step =>
    intro k hk
    exact (h.gradientDecides hf hvalid hk).step
  case accepted_iff =>
    intro k hk above
    have hpassed := h.passed_iff_gradient hf hvalid hk above true
    simpa using hpassed
  case rejected_iff =>
    intro k hk above
    have hpassed := h.passed_iff_gradient hf hvalid hk above false
    simpa using hpassed
  case lower_iff =>
    intro k hk above
    have hpassed := h.passed_iff_gradient hf hvalid hk above true
    rw [h.lower_iff_of_irrefl lt_irrefl hk, hpassed, isLeastSquares_iff]
    simp
  case settled =>
    intro i k hi hk hleast
    exact h.point_eq_of_leastSquares hf hvalid hi hk hleast

end LegalRun

/-- **Without rounding a solve with affine residuals goes down to a least-squares solution.**  It
does not fail, no pass is singular, and a pass is accepted exactly if the gradient is not zero. -/
theorem minimize_affine {σ : Type} {m n : Nat} {A : Matrix (Fin m) (Fin n) ℝ} {c : Fin m → ℝ}
    {p : Problem σ ℝ} {f : PureProblem ℝ} {config : Config ℝ} (hp : p.IsPure f)
    (hf : f.IsAffine A c) (hvalid : config.validate = .ok ()) (hn : n ≠ 0) (x₀ : Vector ℝ n)
    (q : σ) :
    ∃ o, ((minimize config p x₀.toArray).run q).1.result = .ok o ∧
      LegalRun f config x₀.toArray o ∧ o.Settles f config A c := by
  have hsize : x₀.toArray.size = n := x₀.size_toArray
  have hanswers : f.Answers m x₀.toArray.size := by
    rw [hsize]
    exact hf.answers
  rw [← hsize] at hn
  obtain ⟨o, ho⟩ := exists_outcome_of_answers hp hanswers hvalid hn q
  have hrun := LegalRun.of_minimize hp ho
  exact ⟨o, ho, hrun, hrun.settles hf hvalid⟩

/-- the residual `x + y - 1`, which a whole line of points makes zero -/
noncomputable def line (x : Array ℝ) : Array ℝ := #[x.getD 0 0 + x.getD 1 0 - 1]

noncomputable def lineProblem : Problem Unit ℝ := .ofFunction fun x => pure (line x)

/-- its matrix, which has rank one -/
def lineMatrix : Matrix (Fin 1) (Fin 2) ℝ := Matrix.of fun _ _ => 1

noncomputable def threePasses : Config ℝ := ⟨3, 0, 1, 1⟩

theorem line_isAffine :
    (PureProblem.ofResiduals fun x => .ok (line x)).IsAffine lineMatrix fun _ => -1 where
  residuals x := by
    have hx := coordinates_toArray x
    have h0 : x.toArray.getD 0 0 = x.get 0 := congrFun hx 0
    have h1 : x.toArray.getD 1 0 = x.get 1 := congrFun hx 1
    have hvalue : lineMatrix *ᵥ x.get + (fun _ => -1) = fun _ => x.get 0 + x.get 1 - 1 := by
      funext i
      show ∑ j : Fin 2, 1 * x.get j + -1 = x.get 0 + x.get 1 - 1
      rw [Fin.sum_univ_two, one_mul, one_mul]
      rfl
    show Except.ok #[x.toArray.getD 0 0 + x.toArray.getD 1 0 - 1] = _
    unfold affine
    rw [h0, h1, hvalue]
    rfl
  jacobian := .inl rfl

theorem line_settles : threePasses.validate = .ok () ∧ 2 ≠ 0 ∧ ∃ f, lineProblem.IsPure f ∧
    f.IsAffine lineMatrix (fun _ => -1) ∧
    ∃ o, ((minimize threePasses lineProblem #[0, 0]).run ()).1.result = .ok o ∧
      LegalRun f threePasses #[0, 0] o ∧ o.Settles f threePasses lineMatrix fun _ => -1 := by
  have hvalid : threePasses.validate = .ok () :=
    Config.validate_eq_ok.mpr ⟨Config.isPositiveFinite_real.mpr one_pos,
      Config.isPositiveFinite_real.mpr one_pos, le_refl (0 : ℝ)⟩
  have hpure : lineProblem.IsPure (.ofResiduals fun x => .ok (line x)) :=
    Problem.isPure_ofResiduals fun _ _ => rfl
  have hrun := minimize_affine hpure line_isAffine hvalid two_ne_zero #v[0, 0] ()
  exact ⟨hvalid, two_ne_zero, _, hpure, line_isAffine, hrun⟩

end LeastSquares
