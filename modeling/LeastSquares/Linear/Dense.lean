import LeastSquares.Failure
import LeastSquares.Linear.Elimination

/-!
# Vectors and matrices of a size known at run time

A vector whose length is known only at run time is an `Array`; where the length is fixed by a type
it is a `Vector`.  `DenseMatrix` carries its size as data.  Each operation here compares sizes first
and then runs the one of `Mat`, where the sizes are part of the type; a size that does not fit is a
`ShapeFault`.
-/

namespace LeastSquares

/-! ## vectors -/

section
variable {α : Type}

/-- the Euclidean norm: squares added left to right, then the root -/
def norm [RealScalar α] (v : Array α) : α :=
  RealScalar.sqrt (v.foldl (fun s x => s + x * x) Scalar.neutral)

def negate [Scalar α] (v : Array α) : Array α := v.map (- ·)

def add [Scalar α] (a b : Array α) : Except (Failure α) (Array α) :=
  if a.size = b.size then .ok (a.zipWith (· + ·) b)
  else .error (.dimension (.sum a.size b.size))

end

/-! ## matrices -/

/-- a matrix together with its size -/
structure DenseMatrix (α : Type) where
  rows : Nat
  cols : Nat
  mat : Mat α rows cols

namespace DenseMatrix
variable {α : Type}

/-- the matrix at the size `m` by `n`, if this is its size -/
def sized? (a : DenseMatrix α) (m n : Nat) : Option (Mat α m n) :=
  if h : a.rows = m ∧ a.cols = n then some (h.1 ▸ h.2 ▸ a.mat) else none

theorem sized?_self (a : DenseMatrix α) : a.sized? a.rows a.cols = some a.mat := by
  simp [sized?]

theorem sized?_eq_none {a : DenseMatrix α} {m n : Nat} (h : ¬(a.rows = m ∧ a.cols = n)) :
    a.sized? m n = none := dif_neg h

def transpose (a : DenseMatrix α) : DenseMatrix α := ⟨_, _, a.mat.transpose⟩

/-- the matrix, if it has as many rows as columns -/
def square (a : DenseMatrix α) : Except (Failure α) (Mat α a.rows a.rows) :=
  match a.sized? a.rows a.rows with
  | some s => .ok s
  | none => .error (.dimension (.notSquare a.rows a.cols))

theorem square_mk {n : Nat} (a : Mat α n n) : (⟨n, n, a⟩ : DenseMatrix α).square = .ok a := by
  rw [square, sized?_self ⟨n, n, a⟩]

variable [Scalar α]

def mulVec (a : DenseMatrix α) (v : Array α) : Except (Failure α) (Array α) :=
  if h : v.size = a.cols then .ok (a.mat.mulVec ⟨v, h⟩).toArray
  else .error (.dimension (.timesVector a.rows a.cols v.size))

def mul (a b : DenseMatrix α) : Except (Failure α) (DenseMatrix α) :=
  match b.sized? a.cols b.cols with
  | some right => .ok ⟨_, _, a.mat.mul right⟩
  | none => .error (.dimension (.timesMatrix a.rows a.cols b.rows b.cols))

def addDiagonal (a : DenseMatrix α) (shift : α) : Except (Failure α) (DenseMatrix α) := do
  let s ← a.square
  return ⟨_, _, s.addDiagonal shift⟩

def solve (a : DenseMatrix α) (b : Array α) : Except (Failure α) (Array α) := do
  let s ← a.square
  if h : b.size = a.rows then
    match s.solve ⟨b, h⟩ with
    | some x => return x.toArray
    | none => throw .singular
  else throw (.dimension (.rightSide b.size a.rows))

/-! ## sizes that fit -/

theorem mulVec_toArray {m n : Nat} (a : Mat α m n) (v : Vector α n) :
    (⟨m, n, a⟩ : DenseMatrix α).mulVec v.toArray = .ok (a.mulVec v).toArray := by
  simp [mulVec]

theorem mul_mk {m k n : Nat} (a : Mat α m k) (b : Mat α k n) :
    (⟨m, k, a⟩ : DenseMatrix α).mul ⟨k, n, b⟩ = .ok ⟨m, n, a.mul b⟩ := by
  rw [mul, sized?_self ⟨k, n, b⟩]

theorem addDiagonal_mk {n : Nat} (a : Mat α n n) (shift : α) :
    (⟨n, n, a⟩ : DenseMatrix α).addDiagonal shift = .ok ⟨n, n, a.addDiagonal shift⟩ := by
  rw [addDiagonal, square_mk]
  rfl

/-- on a square system only a pivot can fail -/
theorem solve_mk {n : Nat} (a : Mat α n n) (b : Vector α n) :
    (⟨n, n, a⟩ : DenseMatrix α).solve b.toArray =
      match a.solve b with
      | some x => .ok x.toArray
      | none => .error .singular := by
  rw [solve, square_mk]
  simp only [bind, Except.bind, Vector.size_toArray, dite_true]
  cases a.solve b <;> rfl

end DenseMatrix

end LeastSquares
