import LeastSquares.Linear.Mat

/-!
# Gaussian elimination with partial pivoting

A square system is a vector of equations.  `System.reduce` picks the equation whose leading
coefficient is largest in absolute value, exchanges it with the first one, refuses a pivot that is
zero or not finite, eliminates the leading unknown from the others and goes on with one unknown
less.  What it leaves is a `Triangular` system, which keeps every pivot it has checked;
`Triangular.solve` divides by these and by nothing else.
-/

namespace LeastSquares

structure Equation (α : Type) (n : Nat) where
  coeffs : Vector α n
  rhs : α

abbrev System (α : Type) (n : Nat) := Vector (Equation α n) n

/-- a system in triangular form: the leading equation has the checked pivot, its other
coefficients and its right-hand side; the rest has one unknown less -/
inductive Triangular (α : Type) : Nat → Type where
  | nil : Triangular α 0
  | cons {n : Nat} (pivot : α) (coeffs : Vector α n) (rhs : α) (rest : Triangular α n) :
      Triangular α (n + 1)

variable {α : Type} [Scalar α] {n : Nat}

/-! ## forward elimination -/

/-- neither zero nor infinite nor NaN -/
def usablePivot (p : α) : Bool := !Scalar.isZero p && Scalar.isFinite p

def Equation.leading (e : Equation α (n + 1)) : α := e.coeffs.get 0

/-- the first equation among those whose leading coefficient is largest in absolute value, by a
scan that moves on only when it meets a strictly larger one -/
def System.pivotRow (s : System α (n + 1)) : Fin (n + 1) :=
  Fin.foldl (n + 1)
    (fun best j =>
      if Scalar.abs (s.get best).leading < Scalar.abs (s.get j).leading then j else best) 0

/-- the equation `e` less the multiple of `lead` that cancels its leading coefficient -/
def Equation.eliminate (lead e : Equation α (n + 1)) : Equation α n :=
  let factor := e.leading / lead.leading
  { coeffs := Vector.ofFn fun k => e.coeffs.get k.succ - factor * lead.coeffs.get k.succ
    rhs := e.rhs - factor * lead.rhs }

def System.pivoted (s : System α (n + 1)) : System α (n + 1) :=
  s.swap 0 s.pivotRow (by omega) s.pivotRow.isLt

/-- the equations behind the first one, with the leading unknown eliminated -/
def System.eliminated (s : System α (n + 1)) : System α n :=
  Vector.ofFn fun i => (s.get 0).eliminate (s.get i.succ)

/-- the triangular form, unless some pivot is not usable -/
def System.reduce : {n : Nat} → System α n → Option (Triangular α n)
  | 0, _ => some .nil
  | _ + 1, s =>
    let p := s.pivoted
    let lead := p.get 0
    if usablePivot lead.leading then
      (reduce p.eliminated).map
        (.cons lead.leading (Vector.ofFn fun k => lead.coeffs.get k.succ) lead.rhs)
    else none

theorem System.reduce_zero (s : System α 0) : s.reduce = some .nil := rfl

theorem System.reduce_succ (s : System α (n + 1)) :
    s.reduce =
      if usablePivot (s.pivoted.get 0).leading then
        s.pivoted.eliminated.reduce.map
          (.cons (s.pivoted.get 0).leading
            (Vector.ofFn fun k => (s.pivoted.get 0).coeffs.get k.succ) (s.pivoted.get 0).rhs)
      else none := rfl

/-! ## back substitution -/

/-- the unknowns, the last one first -/
def Triangular.solve : {n : Nat} → Triangular α n → Vector α n
  | 0, .nil => #v[]
  | _ + 1, .cons pivot coeffs rhs rest =>
    let tail := rest.solve
    let x := (rhs - sumFrom Scalar.neutral (Mat.products coeffs tail)) / pivot
    Vector.ofFn (Fin.cases x tail.get)

/-! ## both -/

def System.of (a : Mat α n n) (b : Vector α n) : System α n :=
  Vector.ofFn fun i => ⟨a.rows.get i, b.get i⟩

/-- the solution of `a x = b`, or `none` if a pivot is zero or not finite -/
def Mat.solve (a : Mat α n n) (b : Vector α n) : Option (Vector α n) :=
  (System.of a b).reduce.map Triangular.solve

end LeastSquares
