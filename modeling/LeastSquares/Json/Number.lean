import LeastSquares.Json.Reader

/-!
# Numbers

A literal is read digit by digit into a `Mantissa`: a significand of at most 64 bits and a power
of ten.  Digits that no longer fit are dropped.  The value of a literal with a fraction or an
exponent, or of one that does not fit, is the significand as a binary64 number, multiplied or
divided by a power of ten: it is rounded twice, so the nearest number is not always the result.
-/

namespace LeastSquares.Json

inductive Number where
  /-- digits alone, below `2 ^ 64` -/
  | natural (n : Nat)
  | real (x : Float)

def Number.toFloat : Number → Float
  | .natural n => Float.ofNat n
  | .real x => x

/-! ## the digits -/

/-- significands stay below `2 ^ 64` -/
def significandBound : Nat := 0x10000000000000000

/-- `significand * 10 ^ exponent`; once `isFull`, further digits are dropped -/
structure Mantissa where
  significand : Nat
  exponent : Int
  isFull : Bool

namespace Mantissa

def zero : Mantissa := ⟨0, 0, false⟩

def shifted (m : Mantissa) (digit : Nat) : Nat := m.significand * 10 + digit

def pushWhole (m : Mantissa) (digit : Nat) : Mantissa :=
  if m.isFull then { m with exponent := m.exponent + 1 }
  else if m.shifted digit < significandBound then { m with significand := m.shifted digit }
  else { m with exponent := m.exponent + 1, isFull := true }

/-- the digits behind the point are tried afresh -/
def atPoint (m : Mantissa) : Mantissa := { m with isFull := false }

def pushFraction (m : Mantissa) (digit : Nat) : Mantissa :=
  if m.isFull then m
  else if m.shifted digit < significandBound then
    { m with significand := m.shifted digit, exponent := m.exponent - 1 }
  else { m with isFull := true }

end Mantissa

/-! ## the value -/

/-- the exponent of the largest power of ten that is a finite binary64 number -/
def largestPower : Nat := 308

/-- `10 ^ k`, correctly rounded -/
def powerOfTen (k : Nat) : Float := Float.ofScientific 1 false k

/-- `f * 10 ^ e` in steps that a power of ten can make, or `none` if it overflows -/
def scale (f : Float) (e : Int) : Option Float :=
  if e.natAbs ≤ largestPower then
    if 0 ≤ e then
      let g := f * powerOfTen e.natAbs
      if g.isInf then none else some g
    else some (f / powerOfTen e.natAbs)
  else if f == 0.0 then some f
  else if 0 ≤ e then none
  else scale (f / powerOfTen largestPower) (e + largestPower)
termination_by (-e).toNat
decreasing_by
  rename_i h _ _
  simp only [largestPower] at h ⊢
  omega

def withSign (negative : Bool) (x : Float) : Float := if negative then -x else x

/-- the value of a mantissa and a written exponent -/
def Mantissa.value (m : Mantissa) (negative : Bool) (e : Int) : Except JsonFault Number :=
  match scale (Float.ofNat m.significand) (m.exponent + e) with
  | some x => .ok (.real (withSign negative x))
  | none => .error .malformed

def Mantissa.whole (m : Mantissa) (negative : Bool) : Except JsonFault Number :=
  if m.isFull then m.value negative 0
  else if negative then .ok (.real (-Float.ofNat m.significand))
  else .ok (.natural m.significand)

/-! ## the literal -/

def isDigit (c : Char) : Bool := '0' ≤ c && c ≤ '9'

def digitValue (c : Char) : Nat := c.toNat - '0'.toNat

/-- the digits in front of a text, and the rest -/
def spanDigits (cs : List Char) : List Char × List Char :=
  (cs.takeWhile isDigit, cs.dropWhile isDigit)

def ofDigits (ds : List Char) : Nat := ds.foldl (fun n c => n * 10 + digitValue c) 0

def digits : Reader (List Char) := fun cs =>
  match spanDigits cs with
  | ([], rest) => .error (unexpected rest)
  | found => .ok found

/-- the digits before the point: a zero stands alone -/
def wholeDigits : Reader (List Char) := do
  let ds ← digits
  match ds with
  | '0' :: _ :: _ => throw .malformed
  | _ => return ds

/-- what follows the `e`: an optional sign and digits -/
def exponentPart : Reader Int := fun cs => do
  let (negative, cs) := match cs with
    | '+' :: cs => (false, cs)
    | '-' :: cs => (true, cs)
    | _ => (false, cs)
  let (ds, rest) ← digits cs
  let e : Int := ofDigits ds
  return (if negative then -e else e, rest)

def isExponentMark (c : Char) : Bool := c = 'e' || c = 'E'

/-- the exponent of a literal with the mantissa `m`, if there is one -/
def afterFraction (negative : Bool) (m : Mantissa) : Reader Number := fun cs =>
  match cs with
  | c :: more =>
    if isExponentMark c then do
      let (e, rest) ← exponentPart more
      return (← m.value negative e, rest)
    else return (← m.value negative 0, cs)
  | [] => return (← m.value negative 0, cs)

def number (negative : Bool) : Reader Number := fun cs => do
  let (ds, rest) ← wholeDigits cs
  let m := ds.foldl (fun m c => m.pushWhole (digitValue c)) .zero
  match rest with
  | '.' :: more =>
    let (ds, rest) ← digits more
    afterFraction negative (ds.foldl (fun m c => m.pushFraction (digitValue c)) m.atPoint) rest
  | c :: _ =>
    if isExponentMark c then afterFraction negative m rest
    else return (← m.whole negative, rest)
  | [] => return (← m.whole negative, rest)

/-- a literal, if the text starts like one -/
def number? (cs : List Char) : Option (Except JsonFault (Number × List Char)) :=
  match cs with
  | '-' :: rest => some (number true rest)
  | c :: _ => if isDigit c then some (number false cs) else none
  | [] => none

end LeastSquares.Json
