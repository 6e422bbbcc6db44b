import LeastSquares.Failure

/-!
# Readers of JSON

A text is read in one pass, and the first problem met decides the fault.  A `Reader` takes what it
reads off the characters that are left.

`quoted` reads what follows an opening quote, up to the closing one.  Characters beyond the first
65536 are escaped as two halves, a leading and a trailing surrogate; a half alone is malformed.
-/

namespace LeastSquares.Json

abbrev Reader (β : Type) := StateT (List Char) (Except JsonFault) β

/-- space, tab, line feed and carriage return -/
def isBlank (c : Char) : Bool := c = ' ' || c = '\t' || c = '\n' || c = '\r'

def dropBlanks (cs : List Char) : List Char := cs.dropWhile isBlank

theorem dropBlanks_other {c : Char} (h : ¬ isBlank c) (cs : List Char) :
    dropBlanks (c :: cs) = c :: cs := List.dropWhile_cons_of_neg h

/-- an end that comes too early is truncated, any other character malformed -/
def unexpected : List Char → JsonFault
  | [] => .truncated
  | _ :: _ => .malformed

def expect (word : List Char) : Reader Unit := fun cs =>
  match word, cs with
  | [], cs => .ok ((), cs)
  | w :: ws, c :: cs => if c = w then expect ws cs else .error .malformed
  | _ :: _, [] => .error .truncated

/-- the character `mark`, perhaps behind blanks -/
def expectMark (mark : Char) : Reader Unit := fun cs => expect [mark] (dropBlanks cs)

/-- a value that the whole text consists of, apart from blanks -/
def Reader.readAll {β : Type} (value : Reader β) (text : String) : Except JsonFault β := do
  let (b, rest) ← value text.toList
  match dropBlanks rest with
  | [] => return b
  | _ :: _ => throw .malformed

/-! ## quoted texts -/

def hexDigit? (c : Char) : Option Nat :=
  if '0' ≤ c ∧ c ≤ '9' then some (c.toNat - '0'.toNat)
  else if 'a' ≤ c ∧ c ≤ 'f' then some (c.toNat - 'a'.toNat + 10)
  else if 'A' ≤ c ∧ c ≤ 'F' then some (c.toNat - 'A'.toNat + 10)
  else none

def byteLength (cs : List Char) : Nat := cs.foldl (fun n c => n + c.utf8Size) 0

/-- control characters must be escaped -/
def isControl (c : Char) : Bool := c.toNat < 0x20

/-- a reader's value, with a rest that is not longer than the text -/
abbrev Within (β : Type) (cs : List Char) :=
  Except JsonFault (β × { rest : List Char // rest.length ≤ cs.length })

/-- the number written in four hexadecimal digits; a text of less than four bytes is truncated,
whatever it holds -/
def hexQuad : (cs : List Char) → Within Nat cs
  | a :: b :: c :: d :: rest =>
    match hexDigit? a, hexDigit? b, hexDigit? c, hexDigit? d with
    | some a, some b, some c, some d =>
      .ok (((a * 16 + b) * 16 + c) * 16 + d, ⟨rest, by simp only [List.length_cons]; omega⟩)
    | _, _, _, _ => .error .malformed
  | cs => .error (if byteLength cs < 4 then .truncated else .malformed)

def isLeadingHalf (n : Nat) : Bool := 0xd800 ≤ n && n < 0xdc00
def isTrailingHalf (n : Nat) : Bool := 0xdc00 ≤ n && n < 0xe000

def joinHalves (leading trailing : Nat) : Char :=
  Char.ofNat (0x10000 + (leading - 0xd800) * 0x400 + (trailing - 0xdc00))

/-- the character escaped by what follows `\u` -/
def unicodeEscape (cs : List Char) : Within Char cs := do
  let (n, rest) ← hexQuad cs
  if isTrailingHalf n then throw .malformed
  else if isLeadingHalf n then
    match rest with
    | ⟨'\\' :: 'u' :: more, h⟩ =>
      let (k, rest) ← hexQuad more
      if isTrailingHalf k then
        return (joinHalves n k, ⟨rest.1, by
          have := rest.2
          simp only [List.length_cons] at h
          omega⟩)
      else throw .malformed
    | ⟨['\\'], _⟩ => throw .truncated
    | ⟨rest, _⟩ => throw (unexpected rest)
  else return (Char.ofNat n, rest)

def simpleEscape? : Char → Option Char
  | '"' => some '"'
  | '\\' => some '\\'
  | '/' => some '/'
  | 'b' => some '\x08'
  | 'f' => some '\x0c'
  | 'n' => some '\n'
  | 'r' => some '\r'
  | 't' => some '\t'
  | _ => none

/-- the character escaped by what follows a backslash -/
def escape : (cs : List Char) → Within Char cs
  | [] => .error .truncated
  | 'u' :: cs => do
    let (c, rest) ← unicodeEscape cs
    return (c, ⟨rest.1, by have := rest.2; simp only [List.length_cons]; omega⟩)
  | c :: cs =>
    match simpleEscape? c with
    | some d => .ok (d, ⟨cs, by simp only [List.length_cons]; omega⟩)
    | none => .error .malformed

def quoted (cs : List Char) : Except JsonFault (List Char × List Char) :=
  match cs with
  | [] => .error .truncated
  | '"' :: rest => .ok ([], rest)
  | '\\' :: more => do
    let (c, rest) ← escape more
    let (text, rest) ← quoted rest.1
    return (c :: text, rest)
  | c :: rest => do
    if isControl c then throw .malformed
    let (text, rest) ← quoted rest
    return (c :: text, rest)
termination_by cs.length
decreasing_by
  · have := rest.2
    simp only [List.length_cons]
    omega
  · simp only [List.length_cons]
    omega

end LeastSquares.Json
