/-!
# Scalars and their sums

Every computation of this library is written once, over a type `α` with the operations below.
It runs on `Float` (binary64, round to nearest, no fused operations); the same definitions make
sense over an ordered field, where nothing is rounded.

* `Scalar`       what vectors, matrices and elimination need;
* `RealScalar`   also a square root and the ends of the range of a damping parameter.

No law is assumed here: rounding breaks associativity, a NaN breaks the order.  A statement names
the laws it uses.

The value of a rounded sum depends on the order of the additions.  Three orders occur:

* `sumFrom`     one by one, left to right;
* `sumLanes`    eight running sums side by side, folded together at the end, with up to seven
                terms left over;
* `sumBlocks`   blocks of `blockSize` terms, each summed on its own.

Over exact arithmetic all three are the sum of the list.
-/

namespace LeastSquares

class Scalar (α : Type) extends Add α, Sub α, Mul α, Div α, Neg α, LT α, LE α where
  zero : α
  one : α
  two : α
  /-- the value of a sum without terms; adding it changes nothing, not even the sign of a zero -/
  neutral : α
  abs : α → α
  isZero : α → Bool
  /-- neither infinite nor NaN -/
  isFinite : α → Bool
  decLt : DecidableLT α := by infer_instance
  decLe : DecidableLE α := by infer_instance

instance Scalar.decidableLT {α : Type} [Scalar α] : DecidableLT α := Scalar.decLt
instance Scalar.decidableLE {α : Type} [Scalar α] : DecidableLE α := Scalar.decLe

class RealScalar (α : Type) extends Scalar α where
  sqrt : α → α
  /-- the lower end of the range in which halving is exact -/
  least : α
  greatest : α

/-- binary64: the empty sum is `-0.0`, the range runs from `2^-1022` to `(2 - 2^-52) * 2^1023` -/
instance : RealScalar Float where
  zero := 0.0
  one := 1.0
  two := 2.0
  neutral := -0.0
  abs := Float.abs
  isZero x := x == 0.0
  isFinite := Float.isFinite
  sqrt := Float.sqrt
  least := Float.ofBits 0x0010000000000000
  greatest := Float.ofBits 0x7fefffffffffffff

variable {α : Type} [Scalar α]

/-! ## one by one -/

/-- `start`, and the terms added to it left to right -/
def sumFrom (start : α) (terms : List α) : α := terms.foldl (· + ·) start

theorem sumFrom_nil (start : α) : sumFrom start [] = start := rfl
theorem sumFrom_cons (start t : α) (terms : List α) :
    sumFrom start (t :: terms) = sumFrom (start + t) terms := rfl

/-! ## eight lanes -/

structure Lanes (α : Type) where
  l0 : α
  l1 : α
  l2 : α
  l3 : α
  l4 : α
  l5 : α
  l6 : α
  l7 : α

def Lanes.clear : Lanes α :=
  let z := Scalar.zero
  ⟨z, z, z, z, z, z, z, z⟩

/-- lane `i` and lane `i + 4` are added, and the four sums then one by one -/
def Lanes.total (p : Lanes α) : α :=
  Scalar.zero + (p.l0 + p.l4) + (p.l1 + p.l5) + (p.l2 + p.l6) + (p.l3 + p.l7)

/-- full groups of eight go into the lanes, the rest is added to their total -/
def Lanes.sum (p : Lanes α) : List α → α
  | t0 :: t1 :: t2 :: t3 :: t4 :: t5 :: t6 :: t7 :: rest =>
    Lanes.sum ⟨p.l0 + t0, p.l1 + t1, p.l2 + t2, p.l3 + t3,
      p.l4 + t4, p.l5 + t5, p.l6 + t6, p.l7 + t7⟩ rest
  | rest => sumFrom p.total rest

def sumLanes (terms : List α) : α := Lanes.clear.sum terms

/-! ## blocks -/

def blockSize : Nat := 256

/-- `start`, and the sums of the blocks of `terms` added to it left to right -/
def addBlocks (start : α) (terms : List α) : α :=
  if _h : 0 < terms.length then
    addBlocks (start + sumFrom Scalar.zero (terms.take blockSize)) (terms.drop blockSize)
  else start
termination_by terms.length
decreasing_by
  rw [List.length_drop, blockSize]
  omega

/-- the sum of the first block, and those of the later blocks added to it -/
def sumBlocks (terms : List α) : α :=
  addBlocks (sumFrom Scalar.zero (terms.take blockSize)) (terms.drop blockSize)

end LeastSquares
