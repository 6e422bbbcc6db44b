import LeastSquares.Json.Number
import LeastSquares.Json.Reader

/-!
# Skipping a value

The value of a key that nobody asks for is passed over by a machine that goes through the text
once, character by character.  It checks the grammar and nothing more: a number may be out of
range, half a surrogate pair may stand alone.  The open brackets are kept on a stack, so values
may be nested to any depth.
-/

namespace LeastSquares.Json

inductive Bracket where
  | array
  | object
deriving DecidableEq

def Bracket.closing : Bracket → Char
  | .array => ']'
  | .object => '}'

inductive NumberPlace where
  | sign
  | zero
  | whole
  | point
  | fraction
  | mark
  | exponentSign
  | exponent

def NumberPlace.isComplete : NumberPlace → Bool
  | .zero | .whole | .fraction | .exponent => true
  | .sign | .point | .mark | .exponentSign => false

/-- the place behind the character `c`, if the number goes on with it -/
def NumberPlace.next? (place : NumberPlace) (c : Char) : Option NumberPlace :=
  let digit := isDigit c
  let mark := isExponentMark c
  match place with
  | .sign => if c = '0' then some .zero else if digit then some .whole else none
  | .zero => if c = '.' then some .point else if mark then some .mark else none
  | .whole =>
    if digit then some .whole
    else if c = '.' then some .point
    else if mark then some .mark
    else none
  | .point => if digit then some .fraction else none
  | .fraction => if digit then some .fraction else if mark then some .mark else none
  | .mark =>
    if c = '+' || c = '-' then some .exponentSign else if digit then some .exponent else none
  | .exponentSign => if digit then some .exponent else none
  | .exponent => if digit then some .exponent else none

inductive QuotePlace where
  | plain
  | escape
  /-- this many hexadecimal digits of an escape are missing -/
  | hex (missing : Nat)

inductive Place where
  | value
  /-- the first item of an array, or its end -/
  | firstItem
  /-- the first key of an object, or its end -/
  | firstKey
  | key
  | colon
  | after
  | word (missing : List Char)
  | number (place : NumberPlace)
  | quote (isKey : Bool) (place : QuotePlace)

/-- the state of the machine: a place, and the open brackets around it, the innermost first -/
structure Skip where
  place : Place
  stack : List Bracket

namespace Skip

def start : Skip := ⟨.value, []⟩

/-- the start of a value with the character `c` -/
def enter (stack : List Bracket) (c : Char) : Except JsonFault Skip :=
  match c with
  | 'n' => .ok ⟨.word ['u', 'l', 'l'], stack⟩
  | 't' => .ok ⟨.word ['r', 'u', 'e'], stack⟩
  | 'f' => .ok ⟨.word ['a', 'l', 's', 'e'], stack⟩
  | '-' => .ok ⟨.number .sign, stack⟩
  | '0' => .ok ⟨.number .zero, stack⟩
  | '"' => .ok ⟨.quote false .plain, stack⟩
  | '[' => .ok ⟨.firstItem, .array :: stack⟩
  | '{' => .ok ⟨.firstKey, .object :: stack⟩
  | c => if isDigit c then .ok ⟨.number .whole, stack⟩ else .error .malformed

/-- behind a value: a comma, or the end of the innermost bracket -/
def leave (stack : List Bracket) (c : Char) : Except JsonFault Skip :=
  match stack with
  | [] => .error .malformed
  | bracket :: rest =>
    if c = ',' then
      .ok ⟨match bracket with | .array => .value | .object => .key, stack⟩
    else if c = bracket.closing then .ok ⟨.after, rest⟩
    else .error .malformed

/-- a quoted text goes on with the character `c`, in front of `rest` -/
def quoteStep (isKey : Bool) (place : QuotePlace) (stack : List Bracket) (c : Char)
    (rest : List Char) : Except JsonFault Skip :=
  match place with
  | .plain =>
    if c = '"' then .ok ⟨if isKey then .colon else .after, stack⟩
    else if c = '\\' then .ok ⟨.quote isKey .escape, stack⟩
    else if isControl c then .error .malformed
    else .ok ⟨.quote isKey .plain, stack⟩
  | .escape =>
    if c = 'u' then
      if byteLength (rest.take 4) < 4 then .error .truncated
      else .ok ⟨.quote isKey (.hex 4), stack⟩
    else if (simpleEscape? c).isSome then .ok ⟨.quote isKey .plain, stack⟩
    else .error .malformed
  | .hex missing =>
    if (hexDigit? c).isSome then
      .ok ⟨.quote isKey (if missing ≤ 1 then .plain else .hex (missing - 1)), stack⟩
    else .error .malformed

/-- one character, in front of `rest` -/
def step (s : Skip) (c : Char) (rest : List Char) : Except JsonFault Skip :=
  match s.place with
  | .value => if isBlank c then .ok s else enter s.stack c
  | .firstItem =>
    if isBlank c then .ok s
    else if c = ']' then leave s.stack c
    else enter s.stack c
  | .firstKey =>
    if isBlank c then .ok s
    else if c = '}' then leave s.stack c
    else if c = '"' then .ok { s with place := .quote true .plain }
    else .error .malformed
  | .key =>
    if isBlank c then .ok s
    else if c = '"' then .ok { s with place := .quote true .plain }
    else .error .malformed
  | .colon =>
    if isBlank c then .ok s
    else if c = ':' then .ok { s with place := .value }
    else .error .malformed
  | .after => if isBlank c then .ok s else leave s.stack c
  | .word missing =>
    match missing with
    | w :: ws =>
      if c = w then .ok { s with place := if ws.isEmpty then .after else .word ws }
      else .error .malformed
    | [] => .error .malformed
  | .number place =>
    match place.next? c with
    | some next => .ok { s with place := .number next }
    | none =>
      if !place.isComplete then .error .malformed
      else if isBlank c then .ok { s with place := .after }
      else leave s.stack c
  | .quote isKey place => quoteStep isKey place s.stack c rest

/-- the value has ended in front of the character `c` -/
def isDone (s : Skip) (c : Char) : Bool :=
  s.stack.isEmpty &&
    match s.place with
    | .after => true
    | .number place => place.isComplete && (place.next? c).isNone
    | _ => false

/-- the end of the text: a value may end there only outside all brackets -/
def atEnd (s : Skip) : Except JsonFault Unit :=
  match s.place with
  | .after => if s.stack.isEmpty then .ok () else .error .truncated
  | .number place =>
    if !place.isComplete then .error .malformed
    else if s.stack.isEmpty then .ok ()
    else .error .truncated
  | _ => .error .truncated

def run (s : Skip) : List Char → Except JsonFault (List Char)
  | [] =>
    match s.atEnd with
    | .ok () => .ok []
    | .error fault => .error fault
  | c :: rest =>
    if s.isDone c then .ok (c :: rest)
    else
      match s.step c rest with
      | .ok next => run next rest
      | .error fault => .error fault

theorem run_of_isDone {s : Skip} {c : Char} (h : s.isDone c) (rest : List Char) :
    s.run (c :: rest) = .ok (c :: rest) := by
  rw [run, if_pos h]

theorem run_of_step {s t : Skip} {c : Char} {rest : List Char} (h : ¬ s.isDone c)
    (hs : s.step c rest = .ok t) : s.run (c :: rest) = t.run rest := by
  rw [run, if_neg h, hs]

end Skip

/-- passes over a value of any kind -/
def skipValue : Reader Unit := fun cs => do
  return ((), ← Skip.start.run cs)

end LeastSquares.Json
