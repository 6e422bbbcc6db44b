/-!
# Decimal numbers

`Binary64.ofFloat` reads sign, significand and exponent off the 64 bits of a number, so everything
about decimal digits is said in exact arithmetic on natural numbers.

The real numbers that round to `significand * 2 ^ exponent` form an interval, closed exactly when
the significand is even.  `Decimal.shortest` looks for a decimal in it, on the grid of one digit,
then on that of two digits, and so on: on each grid only the two neighbours of the value can be the
nearest.  The first grid with a hit wins, and of two hits the nearer one.

A `Style` says how the shortest digits of a number are laid out; `Style.write` lays them out.
Three styles are in use:

* `Style.plain`      in messages: never an exponent;
* `Style.list`       in a list of values: a whole number keeps `.0`;
* `Style.json`       in JSON: as `list`, with the sign of an exponent always written.

`scientific` writes a fixed number of places instead, correctly rounded.
-/

namespace LeastSquares

/-! ## the value of a binary64 number -/

inductive Binary64 where
  | nan
  | infinite (negative : Bool)
  /-- `significand * 2 ^ exponent`, with its sign -/
  | finite (negative : Bool) (significand : Nat) (exponent : Int)
deriving DecidableEq

namespace Binary64

/-- `2 ^ 52`, the significand of the smallest normal number, and of every power of two above it -/
def hiddenBit : Nat := 0x10000000000000

def leastExponent : Int := -1074

/-- sign bit, eleven exponent bits, fifty-two fraction bits -/
def ofBits (bits : UInt64) : Binary64 :=
  let n := bits.toNat
  let negative := n.testBit 63
  let biased : Nat := n / hiddenBit % 2048
  let fraction := n % hiddenBit
  if biased = 2047 then
    if fraction = 0 then .infinite negative else .nan
  else if biased = 0 then .finite negative fraction leastExponent
  else .finite negative (hiddenBit + fraction) (leastExponent + (biased - 1 : Nat))

def ofFloat (x : Float) : Binary64 := ofBits x.toBits

/-- below a power of two the next number is only half as far away as above it -/
def narrowBelow (significand : Nat) (exponent : Int) : Bool :=
  significand = hiddenBit && exponent ≠ leastExponent

end Binary64

/-! ## decimal numbers -/

/-- a decimal number: `coefficient * 10 ^ exponent` -/
structure Decimal where
  coefficient : Nat
  exponent : Int

namespace Decimal

/-- which neighbour a number half-way between two is rounded to -/
inductive Tie where
  | even
  | up

def Tie.pick (t : Tie) (below : Nat) : Nat :=
  match t with
  | .even => if below % 2 = 0 then below else below + 1
  | .up => below + 1

def roundDiv (tie : Tie) (num den : Nat) : Nat :=
  let below := num / den
  let rest := num % den
  if 2 * rest < den then below
  else if den < 2 * rest then below + 1
  else tie.pick below

/-- the number of decimal digits of `n`, none for zero -/
def digitCount (n : Nat) : Nat := if n = 0 then 0 else digitCount (n / 10) + 1

/-- the exponent `d` with `10 ^ d ≤ num / den < 10 ^ (d + 1)`, for positive `num` and `den` -/
def leadingExponent (num den : Nat) : Int :=
  if den ≤ num then (digitCount (num / den) : Int) - 1
  else -(digitCount ((den - 1) / num) : Int)

/-- the same number with the trailing zeros of its coefficient moved into the exponent -/
def strip (c : Nat) (k : Int) : Decimal :=
  if 0 < c ∧ c % 10 = 0 then strip (c / 10) (k + 1) else ⟨c, k⟩
termination_by c
decreasing_by omega

def digits (d : Decimal) : List Char := Nat.toDigits 10 d.coefficient

def leading (d : Decimal) : Int := d.exponent + d.digits.length - 1

/-! ## the shortest one -/

/-- seventeen digits always suffice -/
def mostDigits : Nat := 17

/-- the multiple of `10 ^ k` nearest to `m * 2 ^ q` among those that round to it, as the factor of
`10 ^ k`; everything is measured in quarters of the spacing above the value -/
def onGrid (tie : Tie) (m : Nat) (q k : Int) : Option Nat :=
  let unit := Nat.pow 2 (q - 2).toNat * Nat.pow 10 (-k).toNat
  let step := Nat.pow 2 (2 - q).toNat * Nat.pow 10 k.toNat
  let value := 4 * m * unit
  let low := (4 * m - if Binary64.narrowBelow m q then 1 else 2) * unit
  let high := (4 * m + 2) * unit
  let inside (c : Nat) : Bool :=
    if m % 2 = 0 then low ≤ c * step && c * step ≤ high else low < c * step && c * step < high
  let below := value / step
  match inside below, inside (below + 1) with
  | true, true => some (roundDiv tie value step)
  | true, false => some below
  | false, true => some (below + 1)
  | false, false => none

/-- the first hit on the grids `10 ^ k`, `10 ^ (k - 1)`, and so on; among `mostDigits` of them there
is one, so the value for an exhausted count is never used -/
def firstHit (tie : Tie) (m : Nat) (q : Int) : Nat → Int → Decimal
  | 0, k => ⟨0, k⟩
  | left + 1, k =>
    match onGrid tie m q k with
    | some c => strip c k
    | none => firstHit tie m q left (k - 1)

/-- the shortest decimal that rounds to `m * 2 ^ q`, and the nearest of these -/
def shortest (tie : Tie) (m : Nat) (q : Int) : Decimal :=
  if m = 0 then ⟨0, 0⟩
  else firstHit tie m q mostDigits (leadingExponent (m * Nat.pow 2 q.toNat) (Nat.pow 2 (-q).toNat))

/-! ## how a number is written -/

structure Style where
  tie : Tie
  /-- the least exponent of a first digit that is written positionally; `none`: all are -/
  positionalFrom : Option Int
  /-- from this exponent of the first digit on, nothing is written positionally -/
  positionalBelow : Option Int
  /-- whole numbers keep `.0` -/
  wholeMark : Bool
  /-- positive exponents have a sign -/
  exponentSign : Bool

def Style.plain : Style := ⟨.up, none, none, false, false⟩
def Style.list : Style := ⟨.up, some (-4), some 16, true, false⟩
def Style.json : Style := ⟨.even, some (-5), some 16, true, true⟩

/-- is a number whose first digit has the exponent `d` written positionally? -/
def Style.isPositional (s : Style) (d : Int) : Bool :=
  s.positionalFrom.all (· ≤ d) && s.positionalBelow.all (d < ·)

def zeros (count : Nat) : List Char := List.replicate count '0'

/-- digits whose first one has the exponent `d`, with a point where it belongs -/
def positional (wholeMark : Bool) (digits : List Char) (d : Int) : List Char :=
  if d < 0 then '0' :: '.' :: zeros (-d - 1).toNat ++ digits
  else
    let whole := d.toNat + 1
    let ones := digits.take whole ++ zeros (whole - digits.length)
    match digits.drop whole with
    | [] => if wholeMark then ones ++ ['.', '0'] else ones
    | fraction => ones ++ '.' :: fraction

/-- an integer, with a sign if it is negative or if `plus` asks for one -/
def signed (plus : Bool) (e : Int) : List Char :=
  let digits := Nat.toDigits 10 e.natAbs
  if e < 0 then '-' :: digits else if plus then '+' :: digits else digits

/-- the first digit, a point and the others if there are any, and the exponent -/
def exponential (plus : Bool) (digits : List Char) (d : Int) : List Char :=
  let significand := match digits with
    | first :: rest@(_ :: _) => first :: '.' :: rest
    | _ => digits
  significand ++ 'e' :: signed plus d

def Style.layOut (s : Style) (x : Decimal) : List Char :=
  if s.isPositional x.leading then positional s.wholeMark x.digits x.leading
  else exponential s.exponentSign x.digits x.leading

def sign (negative : Bool) : List Char := if negative then ['-'] else []

/-- a number that is not finite, or what `finite` writes for its magnitude -/
def writeWith (finite : Nat → Int → List Char) : Binary64 → List Char
  | .nan => ['N', 'a', 'N']
  | .infinite negative => sign negative ++ ['i', 'n', 'f']
  | .finite negative m q => sign negative ++ finite m q

def Style.write (s : Style) (x : Float) : List Char :=
  writeWith (fun m q => s.layOut (shortest s.tie m q)) (Binary64.ofFloat x)

/-- `m * 2 ^ q` rounded to `places` digits after the first one, a tie to the even neighbour -/
def rounded (places m : Nat) (q : Int) : Decimal :=
  if m = 0 then ⟨0, 0⟩
  else
    let num := m * Nat.pow 2 q.toNat
    let den := Nat.pow 2 (-q).toNat
    let k := leadingExponent num den - places
    ⟨roundDiv .even (num * Nat.pow 10 (-k).toNat) (den * Nat.pow 10 k.toNat), k⟩

/-- the digits of `rounded`, all of them; a carry into a new first digit drops the last one -/
def fixedPlaces (places m : Nat) (q : Int) : List Char :=
  let x := rounded places m q
  let digits := if m = 0 then zeros (places + 1) else x.digits
  exponential false (digits.take (places + 1)) (if m = 0 then 0 else x.leading)

/-- a number with an exponent and `places` digits after the point -/
def scientific (places : Nat) (x : Float) : String :=
  String.ofList (writeWith (fixedPlaces places) (Binary64.ofFloat x))

def plain (x : Float) : String := String.ofList (Style.plain.write x)

end Decimal
end LeastSquares
