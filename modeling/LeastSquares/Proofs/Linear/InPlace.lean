import Mathlib.Data.List.Basic
import LeastSquares.Linear.Dense
import LeastSquares.Proofs.Linear.System
import LeastSquares.Proofs.Linear.Tableau

/-!
# Elimination in place and by recursion

The loops of `Proofs.Linear.Tableau` do what `Mat.solve` does by recursion over the system
(`Tableau.solve_eq`).

* `nextStage`, `fromStage`   the stages, without notes of their divisions;
* `SameAbove`   the frame: what later stages leave alone;
* `system`, `triangular`   the cells of a tableau, as the `System` that is left to solve and as the
                `Triangular` system that is done.
-/

namespace LeastSquares

namespace Tableau
variable {α : Type}

/-- the rows above row `k` are those of `v` -/
def SameAbove (n k : Nat) (v w : Tableau α) : Prop :=
  ∀ r < k, (∀ c < n, w.coeff r c = v.coeff r c) ∧ w.rhs r = v.rhs r

namespace SameAbove
variable {n k : Nat} {u v w : Tableau α}

theorem refl (n k : Nat) (w : Tableau α) : SameAbove n k w w :=
  fun _ _ => ⟨fun _ _ => rfl, rfl⟩

theorem trans (h : SameAbove n k u v) (h' : SameAbove n k v w) : SameAbove n k u w :=
  fun r hr => ⟨fun c hc => ((h' r hr).1 c hc).trans ((h r hr).1 c hc),
    (h' r hr).2.trans (h r hr).2⟩

theorem mono {l : Nat} (h : SameAbove n l v w) (hk : k ≤ l) : SameAbove n k v w :=
  fun r hr => h r (Nat.lt_of_lt_of_le hr hk)

end SameAbove

variable [Scalar α]

/-! ## the stages without the notes -/

def nextStage (n : Nat) (w : Tableau α) (k : Nat) : Option (Tableau α) :=
  if usablePivot (pivot n k w) then some (clear n k (n - (k + 1)) (pivoted n k w)) else none

/-- the `m` stages from number `k` on -/
def fromStage (n k m : Nat) (w : Tableau α) : Option (Tableau α) :=
  (List.range' k m).foldlM (nextStage n) w

theorem fromStage_zero (n k : Nat) (w : Tableau α) : fromStage n k 0 w = some w := rfl

theorem fromStage_succ (n k m : Nat) (w : Tableau α) :
    fromStage n k (m + 1) w = (nextStage n w k).bind (fromStage n (k + 1) m) := rfl

theorem fromStage_append (n k l m : Nat) (w : Tableau α) :
    fromStage n k (l + m) w = (fromStage n k l w).bind (fromStage n (k + l) m) := by
  unfold fromStage
  rw [← List.range'_append_1, List.foldlM_append]
  rfl

theorem fromStage_concat (n k : Nat) (w : Tableau α) :
    fromStage n 0 (k + 1) w = (fromStage n 0 k w).bind fun t => nextStage n t k := by
  rw [fromStage_append, Nat.zero_add]
  refine congrArg _ (funext fun t => ?_)
  rw [fromStage_succ]
  exact Option.bind_fun_some _

/-- a run of stages fails at the first pivot that is not usable -/
theorem fromStage_eq_none {n m : Nat} {w : Tableau α} :
    fromStage n 0 m w = none ↔
      ∃ k < m, ∃ t, fromStage n 0 k w = some t ∧ usablePivot (pivot n k t) = false := by
  induction m with
  | zero => simp [fromStage_zero]
  | succ m ih =>
    rw [fromStage_concat]
    cases h : fromStage n 0 m w with
    | none =>
      obtain ⟨k, hk, ht⟩ := ih.mp h
      exact iff_of_true rfl ⟨k, Nat.lt_succ_of_lt hk, ht⟩
    | some t =>
      rw [h] at ih
      rw [Option.bind_some, nextStage, ite_eq_right_iff]
      constructor
      · intro hnone
        refine ⟨m, Nat.lt_succ_self m, t, h, ?_⟩
        by_contra hp
        cases hnone (eq_true_of_ne_false hp)
      · rintro ⟨k, hk, t', ht', hp⟩
        obtain rfl | hk := Nat.eq_or_lt_of_le (Nat.le_of_lt_succ hk)
        · rw [h] at ht'
          cases ht'
          rw [hp]
          nofun
        · cases ih.mpr ⟨k, hk, t', ht', hp⟩

/-! ## what later stages leave alone -/

/-- the scan starts at row `k` and moves downwards -/
theorem le_pivotRow (n k : Nat) (w : Tableau α) : k ≤ pivotRow n k w := by
  unfold pivotRow
  refine List.foldlRecOn (motive := fun best => k ≤ best) _ _ (Nat.le_refl k) ?_
  intro best hbest j hj
  rw [List.mem_range'_1] at hj
  split
  · omega
  · exact hbest

theorem sameAbove_pivoted (n k : Nat) (w : Tableau α) : SameAbove n k w (pivoted n k w) := by
  intro r hr
  have hle := le_pivotRow n k w
  have hswap : Equiv.swap k (pivotRow n k w) r = r :=
    Equiv.swap_apply_of_ne_of_ne (by omega) (by omega)
  refine ⟨fun c hc => ?_, ?_⟩
  · rw [pivoted, coeff_exchange w hc, hswap]
  · rw [pivoted, rhs_exchange, hswap]

theorem sameAbove_clear (n k m : Nat) (w : Tableau α) :
    SameAbove n (k + 1) w (clear n k m w) := by
  intro r hr
  refine ⟨fun c _ => ?_, ?_⟩
  · rw [coeff_clear, if_neg (by omega)]
  · rw [rhs_clear, if_neg (by omega)]

theorem sameAbove_nextStage {n k : Nat} {w v : Tableau α} (h : nextStage n w k = some v) :
    SameAbove n (k + 1) (pivoted n k w) v := by
  rw [nextStage, Option.ite_none_right_eq_some, Option.some.injEq] at h
  rw [← h.2]
  exact sameAbove_clear n k _ _

theorem sameAbove_fromStage {n k m : Nat} {w v : Tableau α} (h : fromStage n k m w = some v) :
    SameAbove n k w v := by
  induction m generalizing k w with
  | zero =>
    cases h
    exact .refl n k _
  | succ m ih =>
    obtain ⟨t, ht, hv⟩ := Option.bind_eq_some_iff.mp h
    have hstage := (sameAbove_nextStage ht).mono (Nat.le_succ k)
    exact ((sameAbove_pivoted n k w).trans hstage).trans ((ih hv).mono (Nat.le_succ k))

/-! ## back substitution without the notes -/

/-- unknown `i`, found from those behind it -/
def unknown (n : Nat) (w : Tableau α) (x : Nat → α) (i : Nat) : Nat → α :=
  Function.update x i
    ((w.rhs i - sumFrom Scalar.neutral
      ((List.range' (i + 1) (n - (i + 1))).map fun j => w.coeff i j * x j)) / w.coeff i i)

/-- the unknowns of the rows from `k` on -/
def unknowns (n : Nat) (w : Tableau α) (k m : Nat) : Nat → α :=
  (List.range' k m).reverse.foldl (unknown n w) fun _ => Scalar.zero

/-! ## the recursion over systems -/

omit [Scalar α] in
theorem ext_equation {m : Nat} {e e' : Equation α m}
    (hcoeffs : ∀ j : Fin m, e.coeffs.get j = e'.coeffs.get j) (hrhs : e.rhs = e'.rhs) : e = e' := by
  obtain ⟨coeffs, rhs⟩ := e
  obtain rfl : coeffs = e'.coeffs := ext_get (funext hcoeffs)
  obtain rfl : rhs = e'.rhs := hrhs
  rfl

/-- row `r` from column `k` on -/
def equation (w : Tableau α) (k m r : Nat) : Equation α m :=
  ⟨Vector.ofFn fun j : Fin m => w.coeff r (k + j), w.rhs r⟩

/-- rows and columns from `k` on -/
def system (w : Tableau α) (k m : Nat) : System α m :=
  Vector.ofFn fun i : Fin m => w.equation k m (k + i)

/-- the finished rows from `k` on -/
def triangular (w : Tableau α) : (k m : Nat) → Triangular α m
  | _, 0 => .nil
  | k, m + 1 =>
    .cons (w.coeff k k) (Vector.ofFn fun j : Fin m => w.coeff k (k + 1 + j)) (w.rhs k)
      (w.triangular (k + 1) m)

omit [Scalar α] in
theorem get_system (w : Tableau α) {k m : Nat} (i : Fin m) :
    (w.system k m).get i = w.equation k m (k + i) := Vector.getElem_ofFn _

omit [Scalar α] in
theorem get_equation (w : Tableau α) {k m : Nat} (r : Nat) (j : Fin m) :
    (w.equation k m r).coeffs.get j = w.coeff r (k + j) := Vector.getElem_ofFn _

omit [Scalar α] in
theorem leading_equation (w : Tableau α) (k m r : Nat) :
    (w.equation k (m + 1) r).leading = w.coeff r k := get_equation w r 0

theorem add_one_add (k m : Nat) : k + 1 + m = k + (m + 1) := Nat.add_right_comm k 1 m

/-- a loop over the numbers from `k` on, and one over the places they stand for -/
theorem foldl_range'_eq {β γ : Type} {k m : Nat} {f : γ → Nat → γ} {g : β → Fin m → β} (h : β → γ)
    (hg : ∀ (b : β) (j : Fin m), f (h b) (k + j) = h (g b j)) (b : β) :
    (List.range' k m).foldl f (h b) = h (Fin.foldl m g b) := by
  induction m with
  | zero => rw [Fin.foldl_zero, List.range'_zero, List.foldl_nil]
  | succ m ih =>
    rw [List.range'_1_concat, List.foldl_concat, Fin.foldl_succ_last,
      ih fun b j => hg b j.castSucc]
    exact hg _ (Fin.last m)

theorem pivotRow_system (w : Tableau α) (k m : Nat) :
    pivotRow (k + (m + 1)) k w = k + (w.system k (m + 1)).pivotRow := by
  unfold pivotRow System.pivotRow
  -- the first place is compared with itself
  rw [Fin.foldl_succ, ite_self, show k + (m + 1) - (k + 1) = m by omega]
  refine foldl_range'_eq (fun best : Fin (m + 1) => k + best.val) (fun best j => ?_) 0
  have hplace : k + 1 + j.val = k + j.succ.val := add_one_add k j
  simp only [get_system, leading_equation, hplace]
  exact (apply_ite (fun place : Fin (m + 1) => k + place.val) _ _ _).symm

theorem swap_add {m : Nat} (k : Nat) (p i : Fin (m + 1)) :
    Equiv.swap k (k + p.val) (k + i.val) = k + (Equiv.swap 0 p i).val := by
  have hinj : Function.Injective fun place : Fin (m + 1) => k + place.val :=
    fun i j h => Fin.ext (Nat.add_left_cancel h)
  exact hinj.swap_apply 0 p i

theorem system_pivoted (w : Tableau α) (k m : Nat) :
    (pivoted (k + (m + 1)) k w).system k (m + 1) = (w.system k (m + 1)).pivoted := by
  refine ext_get (funext fun i => ?_)
  rw [System.get_pivoted, get_system, get_system]
  refine ext_equation (fun j => ?_) ?_
  · rw [get_equation, get_equation, pivoted, coeff_exchange w (by omega), pivotRow_system, swap_add]
  · show (pivoted _ k w).rhs _ = w.rhs _
    rw [pivoted, rhs_exchange, pivotRow_system, swap_add]

theorem system_clear (w : Tableau α) (k m : Nat) :
    (clear (k + (m + 1)) k m w).system (k + 1) m = (w.system k (m + 1)).eliminated := by
  refine ext_get (funext fun i => ?_)
  have hplace (j : Fin m) : k + 1 + j.val = k + j.succ.val := add_one_add k j
  rw [System.get_eliminated, get_system, get_system, get_system]
  refine ext_equation (fun j => ?_) ?_
  · rw [Equation.get_eliminate, leading_equation, leading_equation, get_equation, get_equation,
      get_equation, coeff_clear, if_pos (by omega), hplace, hplace]
    rfl
  · show (clear _ k m w).rhs _ = w.rhs _ - _ * w.rhs _
    rw [rhs_clear, if_pos (by omega), leading_equation, leading_equation, hplace]
    rfl

omit [Scalar α] in
/-- row `k` is as it was when its stage ended -/
theorem triangular_succ {k m : Nat} {u v : Tableau α} (h : SameAbove (k + (m + 1)) (k + 1) u v) :
    v.triangular k (m + 1) =
      .cons (u.coeff k k) (Vector.ofFn fun j : Fin m => u.coeff k (k + 1 + j)) (u.rhs k)
        (v.triangular (k + 1) m) := by
  obtain ⟨hcoeff, hrhs⟩ := h k (Nat.lt_succ_self k)
  have hcoeffs (j : Fin m) : v.coeff k (k + 1 + j) = u.coeff k (k + 1 + j) :=
    hcoeff _ (by omega)
  rw [triangular, hcoeff k (by omega), hrhs]
  simp only [hcoeffs]

theorem reduce_system (w : Tableau α) (k m : Nat) :
    (w.system k m).reduce = (fromStage (k + m) k m w).map fun v => v.triangular k m := by
  induction m generalizing k w with
  | zero => rfl
  | succ m ih =>
    have hpivot : ((pivoted (k + (m + 1)) k w).system k (m + 1)).get 0 =
        (pivoted (k + (m + 1)) k w).equation k (m + 1) k := get_system _ 0
    have hrest : k + (m + 1) - (k + 1) = m := by omega
    rw [System.reduce_succ, ← system_pivoted, hpivot, leading_equation, ← system_clear,
      fromStage_succ, nextStage, pivot, hrest]
    split
    · rw [Option.bind_some, ih, add_one_add, Option.map_map]
      refine Option.map_congr fun v hv => ?_
      have hsame := (sameAbove_clear (k + (m + 1)) k m _).trans (sameAbove_fromStage hv)
      simp only [triangular_succ hsame, Function.comp_apply, get_equation, Fin.val_succ,
        add_one_add]
      rfl
    · rfl

theorem products_ofFn {m : Nat} (k : Nat) (f g : Nat → α) :
    Mat.products (Vector.ofFn fun j : Fin m => f (k + j)) (Vector.ofFn fun j : Fin m => g (k + j)) =
      (List.range' k m).map fun c => f c * g c := by
  apply List.ext_getElem <;> simp [Mat.products]

theorem unknowns_succ (n : Nat) (w : Tableau α) (k m : Nat) :
    unknowns n w k (m + 1) = unknown n w (unknowns n w (k + 1) m) k := by
  unfold unknowns
  rw [List.range'_succ, List.reverse_cons, List.foldl_concat]

theorem solve_triangular (w : Tableau α) (k m : Nat) :
    (w.triangular k m).solve =
      Vector.ofFn fun i : Fin m => unknowns (k + m) w k m (k + i) := by
  induction m generalizing k with
  | zero => rfl
  | succ m ih =>
    have hrest : k + (m + 1) - (k + 1) = m := by omega
    rw [triangular, Triangular.solve, ih, add_one_add, products_ofFn, unknowns_succ, unknown, hrest]
    refine congrArg Vector.ofFn (funext fun i => ?_)
    cases i using Fin.cases with
    | zero => simp only [Fin.cases_zero, Fin.val_zero, Nat.add_zero, Function.update_self]
    | succ i =>
      have hne : k + i.succ.val ≠ k := by rw [Fin.val_succ]; omega
      rw [Function.update_of_ne hne, Fin.cases_succ, get_ofFn, Fin.val_succ, add_one_add]

/-! ## the tableau of a system -/

theorem system_of {n : Nat} (a : Mat α n n) (b : Vector α n) :
    (Tableau.of a b).system 0 n = System.of a b := by
  refine ext_get (funext fun i => ?_)
  rw [get_system, System.get_of, Nat.zero_add]
  refine ext_equation (fun j => ?_) ?_
  · rw [get_equation, Nat.zero_add]
    exact dif_pos ⟨i.isLt, j.isLt⟩
  · exact dif_pos i.isLt

/-- the recursion, by the stages -/
theorem solve_eq {n : Nat} (a : Mat α n n) (b : Vector α n) :
    a.solve b = (fromStage n 0 n (Tableau.of a b)).map fun w =>
      Vector.ofFn fun i : Fin n => unknowns n w 0 n i := by
  rw [Mat.solve, ← system_of, reduce_system, Option.map_map, Nat.zero_add]
  refine Option.map_congr fun w _ => ?_
  simp only [Function.comp_apply, solve_triangular, Nat.zero_add]

theorem solve_eq_none {n : Nat} {a : Mat α n n} {b : Vector α n} :
    a.solve b = none ↔ ∃ k < n, ∃ t, fromStage n 0 k (Tableau.of a b) = some t ∧
      usablePivot (pivot n k t) = false := by
  rw [solve_eq, Option.map_eq_none_iff, fromStage_eq_none]

end Tableau
end LeastSquares
