import LeastSquares.Scalar

/-!
# Matrices

A matrix is its rows, and a layout: the order in which the entries lie in memory.  The layout
never changes an entry, but it decides in which order the products of a row are summed
(`Mat.mulVec`), so it is part of the value and every operation says what it does to it.
-/

namespace LeastSquares

/-- the order of the entries in memory -/
inductive Layout where
  | rowMajor
  | columnMajor
deriving DecidableEq

/-- the layout of the transposed matrix, which leaves the entries where they are -/
def Layout.flip : Layout → Layout
  | .rowMajor => .columnMajor
  | .columnMajor => .rowMajor

theorem Layout.flip_flip (l : Layout) : l.flip.flip = l := by cases l <;> rfl

structure Mat (α : Type) (m n : Nat) where
  layout : Layout
  rows : Vector (Vector α n) m

namespace Mat
variable {α : Type} {m n k : Nat}

/-! ## entries -/

def entry (a : Mat α m n) (i : Fin m) (j : Fin n) : α := a.rows[i][j]

def ofFn (layout : Layout) (f : Fin m → Fin n → α) : Mat α m n :=
  ⟨layout, Vector.ofFn fun i => Vector.ofFn (f i)⟩

@[simp] theorem entry_ofFn (l : Layout) (f : Fin m → Fin n → α) (i : Fin m) (j : Fin n) :
    (ofFn l f).entry i j = f i j := by simp [entry, ofFn]

theorem ext_entry {a b : Mat α m n} (hl : a.layout = b.layout)
    (he : ∀ i j, a.entry i j = b.entry i j) : a = b := by
  obtain ⟨la, ra⟩ := a
  obtain ⟨lb, rb⟩ := b
  simp only at hl
  subst hl
  congr 1
  ext i hi j hj
  exact he ⟨i, hi⟩ ⟨j, hj⟩

/-! ## layout -/

/-- consecutive rows are neighbours in memory: column-major, or a single column; an empty matrix has
no neighbours -/
def unitRowStride (a : Mat α m n) : Bool :=
  m ≠ 0 && n ≠ 0 && (a.layout = .columnMajor || n = 1)

/-- the entries of a row are neighbours in memory: row-major, or a single row, or no two columns -/
def contiguousRows (a : Mat α m n) : Bool :=
  a.layout = .rowMajor || m = 1 || n ≤ 1

/-! ## operations -/

def transpose (a : Mat α m n) : Mat α n m := ofFn a.layout.flip fun i j => a.entry j i

@[simp] theorem entry_transpose (a : Mat α m n) (i : Fin n) (j : Fin m) :
    a.transpose.entry i j = a.entry j i := by simp [transpose]

theorem transpose_transpose (a : Mat α m n) : a.transpose.transpose = a :=
  ext_entry (Layout.flip_flip _) fun i j => by simp

variable [Scalar α]

def addDiagonal (a : Mat α n n) (shift : α) : Mat α n n :=
  ofFn a.layout fun i j => if i = j then a.entry i j + shift else a.entry i j

def products (a b : Vector α n) : List α := (a.zipWith (· * ·) b).toList

/-- the product with a column vector: contiguous rows are summed in lanes -/
def mulVec (a : Mat α m n) (v : Vector α n) : Vector α m :=
  a.rows.map fun row =>
    if a.contiguousRows then sumLanes (products row v) else sumFrom Scalar.zero (products row v)

/-- the matrix product, every entry summed in blocks; it is column-major only if the rows of both
operands are neighbours in memory -/
def mul (a : Mat α m k) (b : Mat α k n) : Mat α m n :=
  ofFn (if a.unitRowStride && b.unitRowStride then .columnMajor else .rowMajor) fun i j =>
    sumBlocks (List.ofFn fun l => a.entry i l * b.entry l j)

theorem entry_addDiagonal (a : Mat α n n) (shift : α) (i j : Fin n) :
    (a.addDiagonal shift).entry i j = if i = j then a.entry i j + shift else a.entry i j := by
  simp [addDiagonal]

theorem getElem_mulVec (a : Mat α m n) (v : Vector α n) (i : Fin m) :
    (a.mulVec v)[i] =
      if a.contiguousRows then sumLanes (products a.rows[i] v)
      else sumFrom Scalar.zero (products a.rows[i] v) := by
  simp [mulVec]

theorem entry_mul (a : Mat α m k) (b : Mat α k n) (i : Fin m) (j : Fin n) :
    (a.mul b).entry i j = sumBlocks (List.ofFn fun l => a.entry i l * b.entry l j) := by
  simp [mul]

end Mat
end LeastSquares
