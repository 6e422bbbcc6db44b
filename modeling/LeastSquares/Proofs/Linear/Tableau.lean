import Mathlib.Data.List.Basic
import Mathlib.Logic.Equiv.Basic
import LeastSquares.Linear.Elimination

/-!
# Elimination in place

The loops of an elimination that works on one tableau: rows are exchanged and changed in their
cells, finished rows stay where they are, and back substitution reads the tableau that the last
stage leaves.  Every division is noted, with the number of the stage or of the unknown it belongs
to.

Besides the loops this module has what each of them does to a cell: `coeff_exchange`,
`coeff_subtract`, `coeff_clear`, and the same for right-hand sides.
-/

namespace LeastSquares

/-! ## divisions -/

/-- a computation that notes what it divides by, and may end without a result -/
abbrev Dividing (α : Type) := OptionT (StateM (List (Nat × α)))

/-- `x / y`, noted under the number `k` -/
def divide {α : Type} [Div α] (k : Nat) (x y : α) : Dividing α α := do
  modify fun divisors => divisors ++ [(k, y)]
  return x / y

/-! ## the cells -/

/-- the cells of a working copy; those with numbers from the size on are not used -/
@[ext] structure Tableau (α : Type) where
  coeff : Nat → Nat → α
  rhs : Nat → α

namespace Tableau
variable {α : Type}

def set (w : Tableau α) (r c : Nat) (v : α) : Tableau α :=
  { w with coeff := Function.update w.coeff r (Function.update (w.coeff r) c v) }

def setRhs (w : Tableau α) (r : Nat) (v : α) : Tableau α :=
  { w with rhs := Function.update w.rhs r v }

theorem coeff_set (w : Tableau α) (r c : Nat) (v : α) (r' c' : Nat) :
    (w.set r c v).coeff r' c' = if r' = r ∧ c' = c then v else w.coeff r' c' := by
  unfold set
  simp only [Function.update_apply]
  grind

@[simp] theorem coeff_setRhs (w : Tableau α) (r : Nat) (v : α) :
    (w.setRhs r v).coeff = w.coeff := rfl

theorem rhs_setRhs (w : Tableau α) (r : Nat) (v : α) (r' : Nat) :
    (w.setRhs r v).rhs r' = if r' = r then v else w.rhs r' := Function.update_apply ..

/-! ## exchanging rows -/

def swapCells (w : Tableau α) (i j c : Nat) : Tableau α :=
  (w.set i c (w.coeff j c)).set j c (w.coeff i c)

def swapRhs (w : Tableau α) (i j : Nat) : Tableau α :=
  (w.setRhs i (w.rhs j)).setRhs j (w.rhs i)

/-- rows `i` and `j` of `n` columns exchanged, one column after another -/
def exchange (n : Nat) (w : Tableau α) (i j : Nat) : Tableau α :=
  if j = i then w else ((List.range n).foldl (fun w c => w.swapCells i j c) w).swapRhs i j

theorem coeff_swapCells (w : Tableau α) (i j c r c' : Nat) :
    (w.swapCells i j c).coeff r c' =
      if c' = c then w.coeff (Equiv.swap i j r) c' else w.coeff r c' := by
  unfold swapCells
  rw [coeff_set, coeff_set, Equiv.swap_apply_def]
  grind

theorem coeff_foldl_swapCells (w : Tableau α) (n i j r c : Nat) :
    ((List.range n).foldl (fun w c => w.swapCells i j c) w).coeff r c =
      if c < n then w.coeff (Equiv.swap i j r) c else w.coeff r c := by
  induction n generalizing r with
  | zero => rfl
  | succ n ih =>
    rw [List.range_succ, List.foldl_concat, coeff_swapCells, ih, ih]
    grind

theorem rhs_foldl_swapCells (w : Tableau α) (columns : List Nat) (i j : Nat) :
    (columns.foldl (fun w c => w.swapCells i j c) w).rhs = w.rhs := by
  induction columns generalizing w with
  | nil => rfl
  | cons c columns ih => exact ih (w.swapCells i j c)

theorem coeff_exchange (w : Tableau α) {n c : Nat} (hc : c < n) (i j r : Nat) :
    (exchange n w i j).coeff r c = w.coeff (Equiv.swap i j r) c := by
  unfold exchange
  split
  · rename_i h
    rw [h, Equiv.swap_self]
    rfl
  · show ((List.range n).foldl _ w).coeff r c = _
    rw [coeff_foldl_swapCells, if_pos hc]

theorem rhs_exchange (w : Tableau α) (n i j r : Nat) :
    (exchange n w i j).rhs r = w.rhs (Equiv.swap i j r) := by
  unfold exchange
  split
  · rename_i h
    rw [h, Equiv.swap_self]
    rfl
  · unfold swapRhs
    rw [rhs_setRhs, rhs_setRhs, rhs_foldl_swapCells, Equiv.swap_apply_def]
    grind

/-! ## subtracting rows -/

variable [Scalar α]

/-- `factor` times row `k` subtracted from row `j`, the right-hand side first and then the columns
from `k` to `n` -/
def subtract (n k : Nat) (w : Tableau α) (j : Nat) (factor : α) : Tableau α :=
  (List.range' k (n - k)).foldl
    (fun w c => w.set j c (w.coeff j c - factor * w.coeff k c))
    (w.setRhs j (w.rhs j - factor * w.rhs k))

theorem coeff_foldl_set (w : Tableau α) (j k : Nat) (factor : α) (m r c : Nat) :
    ((List.range' k m).foldl
      (fun w c => w.set j c (w.coeff j c - factor * w.coeff k c)) w).coeff r c =
      if r = j ∧ k ≤ c ∧ c < k + m then w.coeff r c - factor * w.coeff k c else w.coeff r c := by
  induction m generalizing r c with
  | zero => grind
  | succ m ih =>
    rw [List.range'_1_concat, List.foldl_concat, coeff_set, ih, ih, ih]
    grind

theorem rhs_foldl_set (w : Tableau α) (j k : Nat) (factor : α) (columns : List Nat) :
    (columns.foldl (fun w c => w.set j c (w.coeff j c - factor * w.coeff k c)) w).rhs = w.rhs := by
  induction columns generalizing w with
  | nil => rfl
  | cons c columns ih => exact ih _

theorem coeff_subtract (w : Tableau α) (n k j : Nat) (factor : α) (r c : Nat) :
    (subtract n k w j factor).coeff r c =
      if r = j ∧ k ≤ c ∧ c < n then w.coeff r c - factor * w.coeff k c else w.coeff r c := by
  unfold subtract
  rw [coeff_foldl_set, coeff_setRhs]
  grind

theorem rhs_subtract (w : Tableau α) (n k j : Nat) (factor : α) (r : Nat) :
    (subtract n k w j factor).rhs r =
      if r = j then w.rhs r - factor * w.rhs k else w.rhs r := by
  unfold subtract
  rw [rhs_foldl_set, rhs_setRhs]
  grind

/-- what the rows `k + 1`, ..., `k + m` become when row `k` clears column `k` -/
def clear (n k m : Nat) (w : Tableau α) : Tableau α :=
  (List.range' (k + 1) m).foldl
    (fun w' j => subtract n k w' j (w'.coeff j k / w.coeff k k)) w

theorem clear_succ (n k m : Nat) (w : Tableau α) :
    clear n k (m + 1) w = subtract n k (clear n k m w) (k + 1 + m)
      ((clear n k m w).coeff (k + 1 + m) k / w.coeff k k) := by
  unfold clear
  rw [List.range'_1_concat, List.foldl_concat]

theorem coeff_clear (w : Tableau α) (n k m r c : Nat) :
    (clear n k m w).coeff r c =
      if k < r ∧ r ≤ k + m ∧ k ≤ c ∧ c < n then
        w.coeff r c - w.coeff r k / w.coeff k k * w.coeff k c
      else w.coeff r c := by
  induction m generalizing r c with
  | zero => grind [clear]
  | succ m ih =>
    rw [clear_succ, coeff_subtract, ih, ih, ih]
    grind

theorem rhs_clear (w : Tableau α) (n k m r : Nat) :
    (clear n k m w).rhs r =
      if k < r ∧ r ≤ k + m then w.rhs r - w.coeff r k / w.coeff k k * w.rhs k
      else w.rhs r := by
  induction m generalizing r with
  | zero => grind [clear]
  | succ m ih =>
    rw [clear_succ, rhs_subtract, coeff_clear, ih, ih]
    grind

/-! ## the loops -/

/-- the row for stage `k`, by a scan of column `k` downwards -/
def pivotRow (n k : Nat) (w : Tableau α) : Nat :=
  (List.range' (k + 1) (n - (k + 1))).foldl
    (fun best j => if Scalar.abs (w.coeff best k) < Scalar.abs (w.coeff j k) then j else best) k

def pivoted (n k : Nat) (w : Tableau α) : Tableau α := exchange n w k (pivotRow n k w)

/-- the number that stage `k` checks -/
def pivot (n k : Nat) (w : Tableau α) : α := (pivoted n k w).coeff k k

def stage (n : Nat) (w : Tableau α) (k : Nat) : Dividing α (Tableau α) :=
  if usablePivot (pivot n k w) then
    (List.range' (k + 1) (n - (k + 1))).foldlM
      (fun w' j => do
        let factor ← divide k (w'.coeff j k) (pivot n k w)
        return subtract n k w' j factor)
      (pivoted n k w)
  else failure

/-- the first `k` stages -/
def stages (n k : Nat) (w : Tableau α) : Dividing α (Tableau α) := (List.range k).foldlM (stage n) w

/-- unknown `i`, when those behind it are known -/
def findUnknown (n : Nat) (w : Tableau α) (x : Nat → α) (i : Nat) : Dividing α (Nat → α) := do
  let known := (List.range' (i + 1) (n - (i + 1))).map fun j => w.coeff i j * x j
  let v ← divide i (w.rhs i - sumFrom Scalar.neutral known) (w.coeff i i)
  return Function.update x i v

/-- all unknowns, the last one first -/
def substituteBack (n : Nat) (w : Tableau α) : Dividing α (Nat → α) :=
  (List.range n).reverse.foldlM (findUnknown n w) fun _ => Scalar.zero

def of {n : Nat} (a : Mat α n n) (b : Vector α n) : Tableau α where
  coeff r c := if h : r < n ∧ c < n then a.entry ⟨r, h.1⟩ ⟨c, h.2⟩ else Scalar.zero
  rhs r := if h : r < n then b.get ⟨r, h⟩ else Scalar.zero

end Tableau

/-- the solution of `a x = b`, found in place -/
def Mat.solveInPlace {α : Type} [Scalar α] {n : Nat} (a : Mat α n n) (b : Vector α n) :
    Dividing α (Vector α n) := do
  let w ← (Tableau.of a b).stages n n
  let x ← w.substituteBack n
  return Vector.ofFn fun i : Fin n => x i

end LeastSquares
