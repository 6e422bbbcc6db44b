import LeastSquares.Linear.Dense
import LeastSquares.Proofs.Linear.InPlace

/-!
# What an elimination divides by

Each division of an elimination in place is by the pivot that the stage of the same number has
checked (`Mat.ends_solveInPlace`): stage `k` divides by it at once, back substitution reads it from
the diagonal, where the later stages have left it (`Tableau.checked_coeff`).
-/

namespace LeastSquares

/-! ## computations that note their divisors -/

namespace Dividing
variable {α β γ : Type}

/-- what a computation that starts without notes ends with -/
def result (x : Dividing α β) : Option β := (x.run.run []).1

/-- what it divides by, in order, each divisor under its number -/
def divisors (x : Dividing α β) : List (Nat × α) := (x.run.run []).2

/-- `x` ends with `r`, and every divisor it notes is one that `P` allows -/
def Ends (P : Nat → α → Prop) (x : Dividing α β) (r : Option β) : Prop :=
  ∀ log : List (Nat × α), ∃ new : List (Nat × α),
    x.run.run log = (r, log ++ new) ∧ ∀ d ∈ new, P d.1 d.2

variable {P : Nat → α → Prop}

theorem ends_pure (b : β) : Ends P (pure b : Dividing α β) (some b) :=
  fun _ => ⟨[], by rw [List.append_nil]; rfl, nofun⟩

theorem ends_failure : Ends P (failure : Dividing α β) none :=
  fun _ => ⟨[], by rw [List.append_nil]; rfl, nofun⟩

/-- a quotient that is put to some use -/
theorem ends_divide [Div α] {k : Nat} {y : α} (h : P k y) (x : α) (use : α → β) :
    Ends P (do let quotient ← divide k x y; return use quotient) (some (use (x / y))) :=
  fun _ => ⟨[(k, y)], rfl, List.forall_mem_singleton.mpr h⟩

theorem Ends.bind {x : Dividing α β} {r : Option β} (hx : Ends P x r) {f : β → Dividing α γ}
    {g : β → Option γ} (hf : ∀ b, r = some b → Ends P (f b) (g b)) :
    Ends P (x >>= f) (r.bind g) := by
  intro log
  obtain ⟨new, hrun, hnew⟩ := hx log
  cases r with
  | none =>
    refine ⟨new, ?_, hnew⟩
    simp only [OptionT.run_bind, Option.elimM, StateT.run_bind, hrun]
    rfl
  | some b =>
    obtain ⟨new', hrun', hnew'⟩ := hf b rfl (log ++ new)
    refine ⟨new ++ new', ?_, List.forall_mem_append.mpr ⟨hnew, hnew'⟩⟩
    simp only [OptionT.run_bind, Option.elimM, StateT.run_bind, hrun]
    rw [← List.append_assoc]
    exact hrun'

/-- a loop whose body always ends with a result -/
theorem ends_foldlM {ι : Type} {f : β → ι → Dividing α β} {g : β → ι → β} {items : List ι}
    (h : ∀ i ∈ items, ∀ b, Ends P (f b i) (some (g b i))) (b : β) :
    Ends P (items.foldlM f b) (some (items.foldl g b)) := by
  induction items generalizing b with
  | nil => exact ends_pure b
  | cons i items ih =>
    rw [List.foldlM_cons]
    refine (h i List.mem_cons_self b).bind (g := fun b' => some (items.foldl g b')) ?_
    rintro b' ⟨⟩
    exact ih (fun i' hi' => h i' (List.mem_cons_of_mem i hi')) _

theorem Ends.result_eq {x : Dividing α β} {r : Option β} (h : Ends P x r) : x.result = r := by
  obtain ⟨new, hrun, -⟩ := h []
  exact congrArg Prod.fst hrun

theorem Ends.of_mem_divisors {x : Dividing α β} {r : Option β} (h : Ends P x r) {d : Nat × α}
    (hd : d ∈ x.divisors) : P d.1 d.2 := by
  obtain ⟨new, hrun, hnew⟩ := h []
  refine hnew d ?_
  rw [divisors, hrun] at hd
  exact hd

end Dividing

namespace Tableau
open Dividing
variable {α : Type} [Scalar α]

/-! ## the pivots -/

/-- `d` is the pivot that stage `k` of an elimination from `w` has checked -/
def Checked (n : Nat) (w : Tableau α) (k : Nat) (d : α) : Prop :=
  k < n ∧ usablePivot d = true ∧ ∃ t, fromStage n 0 k w = some t ∧ d = pivot n k t

/-- the diagonal keeps the pivots -/
theorem checked_coeff {n k l : Nat} {w v : Tableau α} (hk : k < l) (hl : l ≤ n)
    (h : fromStage n 0 l w = some v) : Checked n w k (v.coeff k k) := by
  obtain ⟨m, rfl⟩ : ∃ m, l = k + (m + 1) := ⟨l - (k + 1), by omega⟩
  rw [fromStage_append, Nat.zero_add] at h
  obtain ⟨t, ht, h⟩ := Option.bind_eq_some_iff.mp h
  obtain ⟨u, hu, hv⟩ := Option.bind_eq_some_iff.mp h
  have hsame := (sameAbove_nextStage hu).trans (sameAbove_fromStage hv)
  have hpivot : v.coeff k k = pivot n k t := (hsame k (Nat.lt_succ_self k)).1 k (by omega)
  rw [nextStage, Option.ite_none_right_eq_some] at hu
  exact ⟨by omega, hpivot ▸ hu.1, t, ht, hpivot⟩

/-! ## the divisions -/

theorem ends_stage {P : Nat → α → Prop} {n k : Nat} {w : Tableau α}
    (h : usablePivot (pivot n k w) = true → P k (pivot n k w)) :
    Ends P (stage n w k) (nextStage n w k) := by
  unfold stage nextStage
  split
  · rename_i usable
    exact ends_foldlM (fun j _ v => ends_divide (h usable) _ (subtract n k v j)) _
  · exact ends_failure

theorem ends_stages {n k : Nat} (hk : k ≤ n) (w : Tableau α) :
    Ends (Checked n w) (stages n k w) (fromStage n 0 k w) := by
  induction k with
  | zero => exact ends_pure w
  | succ k ih =>
    rw [fromStage_concat, stages, List.range_succ, List.foldlM_append]
    refine (ih (Nat.le_of_succ_le hk)).bind fun t ht => ?_
    have hstage : Ends (Checked n w) (stage n t k) (nextStage n t k) :=
      ends_stage fun usable => ⟨hk, usable, t, ht, rfl⟩
    have hlast := hstage.bind (g := some) fun v _ => ends_pure v
    rwa [Option.bind_fun_some] at hlast

theorem ends_substituteBack {P : Nat → α → Prop} {n : Nat} {w : Tableau α}
    (h : ∀ i < n, P i (w.coeff i i)) :
    Ends P (substituteBack n w) (some (unknowns n w 0 n)) := by
  unfold substituteBack unknowns
  rw [← List.range_eq_range']
  refine ends_foldlM (fun i hi x => ?_) _
  have hi : i < n := List.mem_range.mp (List.mem_reverse.mp hi)
  exact ends_divide (h i hi) _ (Function.update x i)

end Tableau

/-- the loops do what the recursion does, and every divisor is a checked pivot -/
theorem Mat.ends_solveInPlace {α : Type} [Scalar α] {n : Nat} (a : Mat α n n) (b : Vector α n) :
    (a.solveInPlace b).Ends (Tableau.Checked n (Tableau.of a b)) (a.solve b) := by
  rw [Tableau.solve_eq, Option.map_eq_bind]
  refine (Tableau.ends_stages (Nat.le_refl n) _).bind fun w hw => ?_
  have hback : Dividing.Ends _ (Tableau.substituteBack n w) _ :=
    Tableau.ends_substituteBack fun k hk => Tableau.checked_coeff hk (Nat.le_refl n) hw
  exact hback.bind (g := fun x => some (Vector.ofFn fun i : Fin n => x i)) fun x _ =>
    Dividing.ends_pure _

/-! ## success and failure -/

/-- no stage looks at a right-hand side to choose or check its pivot -/
theorem System.isSome_reduce_congr {α : Type} [Scalar α] {n : Nat} {s s' : System α n}
    (h : ∀ i : Fin n, (s.get i).coeffs = (s'.get i).coeffs) :
    s.reduce.isSome = s'.reduce.isSome := by
  induction n with
  | zero => rfl
  | succ n ih =>
    have hcolumn : (fun i => (s.get i).leading) = fun i => (s'.get i).leading :=
      funext fun i => congrArg (fun coeffs : Vector α (n + 1) => coeffs.get 0) (h i)
    have hrow : s.pivotRow = s'.pivotRow :=
      congrArg (fun column : Fin (n + 1) → α => Fin.foldl (n + 1)
        (fun best j => if Scalar.abs (column best) < Scalar.abs (column j) then j else best) 0)
        hcolumn
    have hpivoted (i : Fin (n + 1)) : (s.pivoted.get i).coeffs = (s'.pivoted.get i).coeffs := by
      rw [System.get_pivoted, System.get_pivoted, hrow, h]
    have hleading (i : Fin (n + 1)) :
        (s.pivoted.get i).leading = (s'.pivoted.get i).leading := by
      rw [Equation.leading, hpivoted]
      rfl
    have heliminated (i : Fin n) :
        (s.pivoted.eliminated.get i).coeffs = (s'.pivoted.eliminated.get i).coeffs := by
      refine ext_get (funext fun k => ?_)
      rw [System.get_eliminated, System.get_eliminated, Equation.get_eliminate,
        Equation.get_eliminate, hleading, hleading, hpivoted, hpivoted]
    rw [System.reduce_succ, System.reduce_succ, hleading]
    split
    · rw [Option.isSome_map, Option.isSome_map, ih heliminated]
    · rfl

theorem Mat.isSome_solve {α : Type} [Scalar α] {n : Nat} (a : Mat α n n) (b b' : Vector α n) :
    (a.solve b).isSome = (a.solve b').isSome := by
  rw [Mat.solve, Mat.solve, Option.isSome_map, Option.isSome_map]
  refine System.isSome_reduce_congr fun i => ?_
  rw [System.get_of, System.get_of]

namespace DenseMatrix
variable {α : Type} [Scalar α] {n : Nat}

theorem exists_solve_eq_ok {a : Mat α n n} {b : Vector α n} :
    (∃ x, (⟨n, n, a⟩ : DenseMatrix α).solve b.toArray = .ok x) ↔ (a.solve b).isSome = true := by
  rw [solve_mk]
  cases a.solve b <;> simp

theorem solve_eq_error {a : Mat α n n} {b : Vector α n} :
    (⟨n, n, a⟩ : DenseMatrix α).solve b.toArray = .error .singular ↔ a.solve b = none := by
  rw [solve_mk]
  cases a.solve b <;> simp

end DenseMatrix

theorem usablePivot_eq_true {p : Float} :
    usablePivot p = true ↔ (p == 0.0) = false ∧ p.isFinite = true := by
  show (!(p == 0.0) && p.isFinite) = true ↔ _
  rw [Bool.and_eq_true, Bool.not_eq_true']

open Tableau in
/-- A system of binary64 numbers is never divided by zero, by an infinity or by a NaN.

What divides under number `k` is the pivot that stage `k` has checked; from then on it stands on the
diagonal, whatever later stages do.  The system is singular if and only if some stage meets a pivot
that is zero or not finite, which does not depend on the right-hand side. -/
theorem DenseMatrix.divisors_of_solve {n : Nat} (a : Mat Float n n) (b : Vector Float n) :
    (a.solveInPlace b).result = a.solve b ∧
    (∀ k d, (k, d) ∈ (a.solveInPlace b).divisors →
      (d == 0.0) = false ∧ d.isFinite = true ∧
        k < n ∧ ∃ t, (stages n k (.of a b)).result = some t ∧ d = pivot n k t) ∧
    (∀ k l, k < l → l ≤ n → ∀ w, (stages n l (.of a b)).result = some w →
      ∃ t, (stages n k (.of a b)).result = some t ∧ w.coeff k k = pivot n k t) ∧
    ((⟨n, n, a⟩ : DenseMatrix Float).solve b.toArray = .error .singular ↔
      ∃ k < n, ∃ t, (stages n k (.of a b)).result = some t ∧
        ((pivot n k t == 0.0) = true ∨ (pivot n k t).isFinite = false)) ∧
    ((⟨n, n, a⟩ : DenseMatrix Float).solve b.toArray = .error .singular ∨
      ∃ x : Vector Float n, (⟨n, n, a⟩ : DenseMatrix Float).solve b.toArray = .ok x.toArray) ∧
    ∀ b' : Vector Float n,
      (∃ x, (⟨n, n, a⟩ : DenseMatrix Float).solve b.toArray = .ok x) ↔
        ∃ x, (⟨n, n, a⟩ : DenseMatrix Float).solve b'.toArray = .ok x := by
  have hstages {k : Nat} (hk : k ≤ n) :
      (stages n k (.of a b)).result = fromStage n 0 k (.of a b) := (ends_stages hk _).result_eq
  have hsolve := a.ends_solveInPlace b
  refine ⟨hsolve.result_eq, ?divisors, ?diagonal, ?singular, ?solved, ?outcome⟩
  case divisors =>
    intro k d hd
    obtain ⟨hk, usable, ht⟩ := hsolve.of_mem_divisors hd
    obtain ⟨hzero, hfinite⟩ := usablePivot_eq_true.mp usable
    refine ⟨hzero, hfinite, hk, ?_⟩
    rwa [hstages (Nat.le_of_lt hk)]
  case diagonal =>
    intro k l hk hl w hw
    rw [hstages hl] at hw
    rw [hstages (by omega)]
    exact (checked_coeff hk hl hw).2.2
  case singular =>
    rw [solve_eq_error, solve_eq_none]
    refine exists_congr fun k => and_congr_right fun hk => exists_congr fun t => ?_
    rw [hstages (Nat.le_of_lt hk), ← Bool.not_eq_true, usablePivot_eq_true]
    simp [imp_iff_not_or]
  case solved =>
    rw [solve_mk]
    cases a.solve b with
    | none => exact .inl rfl
    | some x => exact .inr ⟨x, rfl⟩
  case outcome =>
    intro b'
    rw [exists_solve_eq_ok, exists_solve_eq_ok, a.isSome_solve b b']

end LeastSquares
