import LeastSquares.Json.Skip

/-!
# Values and records

Each reader knows the kind of value it wants.  A value of another kind is read far enough to see
that it is well-formed: a literal, a number and a quoted text to their end, an array or an object
not beyond its bracket.

A record is written as an object with a key for every field, in any order and among other keys, or
as an array of the fields in their order.  Its reader is a list of `RecordField`s over a type `π`
of partly read records.  A key may occur once only; whether a field may be missing is for the one
who completes the partial record.
-/

namespace LeastSquares.Json

/-- the fault of `result`, or the mismatch that a readable value of the wrong kind is -/
def mismatchAfter {β : Type} : Except JsonFault β → JsonFault
  | .ok _ => .mismatch
  | .error fault => fault

/-- the fault that a value of the wrong kind is, if it starts the text -/
def wrongKind (cs : List Char) : JsonFault :=
  match number? cs with
  | some result => mismatchAfter result
  | none =>
    match cs with
    | 'n' :: rest => mismatchAfter (expect ['u', 'l', 'l'] rest)
    | 't' :: rest => mismatchAfter (expect ['r', 'u', 'e'] rest)
    | 'f' :: rest => mismatchAfter (expect ['a', 'l', 's', 'e'] rest)
    | '"' :: rest => mismatchAfter (quoted rest)
    | '[' :: _ => .mismatch
    | '{' :: _ => .mismatch
    | cs => unexpected cs

def anyNumber : Reader Number := fun cs =>
  let cs := dropBlanks cs
  match number? cs with
  | some result => result
  | none => .error (wrongKind cs)

def float : Reader Float := Number.toFloat <$> anyNumber

/-- a natural number below `2 ^ 64` -/
def natural : Reader Nat := do
  match ← anyNumber with
  | .natural n => return n
  | .real _ => throw .mismatch

def null : Reader Unit := fun cs =>
  match dropBlanks cs with
  | 'n' :: rest => expect ['u', 'l', 'l'] rest
  | cs => .error (wrongKind cs)

/-- a quoted text at a place where no other kind of value is read at all, as in a key -/
def text : Reader String := fun cs =>
  match dropBlanks cs with
  | '"' :: rest => do
    let (t, rest) ← quoted rest
    return (String.ofList t, rest)
  | cs => .error (unexpected cs)

/-! ## arrays -/

/-- goes to the next item of an array, or behind its end -/
def nextItem (first : Bool) : Reader Bool := fun cs =>
  match dropBlanks cs with
  | [] => .error .truncated
  | ']' :: rest => .ok (false, rest)
  | ',' :: rest =>
    if first then .ok (true, ',' :: rest)
    else
      match dropBlanks rest with
      | [] => .error .truncated
      | ']' :: _ => .error .malformed
      | rest => .ok (true, rest)
  | cs => if first then .ok (true, cs) else .error .malformed

/-- the items up to the end of an array, at most `bound` of them -/
def items {β : Type} (item : Reader β) :
    (bound : Nat) → (first : Bool) → Array β → Reader (Array β)
  | 0, _, _ => throw .truncated
  | bound + 1, first, found => do
    if ← nextItem first then
      items item bound false (found.push (← item))
    else return found

/-- an array of items of one kind; every item takes at least one character, so the length of the
text bounds their number -/
def array {β : Type} (item : Reader β) : Reader (Array β) := fun cs =>
  match dropBlanks cs with
  | '[' :: rest => items item (rest.length + 1) true #[] rest
  | cs => .error (wrongKind cs)

/-! ## records -/

/-- a field of a record of which a part `π` has been read -/
structure RecordField (π : Type) where
  name : String
  isRead : π → Bool
  read : π → Reader π

variable {π β : Type}

/-- goes to the next key of an object and behind its opening quote, or behind the end of the
object -/
def nextKey (first : Bool) : Reader Bool := fun cs =>
  match dropBlanks cs with
  | [] => .error .truncated
  | '}' :: rest => .ok (false, rest)
  | '"' :: rest => if first then .ok (true, rest) else .error .malformed
  | ',' :: rest =>
    if first then .error .malformed
    else
      match dropBlanks rest with
      | '"' :: rest => .ok (true, rest)
      | rest => .error (unexpected rest)
  | _ => .error .malformed

/-- the value of the key `name`; the value of a key that is no field is skipped -/
def member (fields : List (RecordField π)) (name : String) (part : π) : Reader π := do
  match fields.find? (·.name = name) with
  | some field =>
    if field.isRead part then throw .mismatch
    expectMark ':'
    field.read part
  | none =>
    expectMark ':'
    skipValue
    return part

/-- the members up to the end of an object, at most `bound` of them -/
def members (fields : List (RecordField π)) : (bound : Nat) → (first : Bool) → π → Reader π
  | 0, _, _ => throw .truncated
  | bound + 1, first, part => do
    if ← nextKey first then
      let name ← quoted
      let part ← member fields (String.ofList name) part
      members fields bound false part
    else return part

/-- the end of an array that has all its items -/
def closeArray : Reader Unit := fun cs =>
  match dropBlanks cs with
  | ']' :: rest => .ok ((), rest)
  | cs => .error (unexpected cs)

/-- the fields in their order, up to the end of an array, which may come early -/
def positions : List (RecordField π) → (first : Bool) → π → Reader π
  | [], _, part => do
    closeArray
    return part
  | field :: fields, first, part => do
    if ← nextItem first then
      let part ← field.read part
      positions fields false part
    else return part

/-- a record; `complete` says what the fields that were read amount to -/
def record (fields : List (RecordField π)) (empty : π) (complete : π → Option β) :
    Reader β := fun cs => do
  let (part, rest) ← match dropBlanks cs with
    | '{' :: rest => members fields (rest.length + 1) true empty rest
    | '[' :: rest => positions fields true empty rest
    | cs => .error (wrongKind cs)
  match complete part with
  | some b => return (b, rest)
  | none => throw .mismatch

end LeastSquares.Json
