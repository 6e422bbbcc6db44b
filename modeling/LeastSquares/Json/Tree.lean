import LeastSquares.Decimal

/-!
# Writing JSON

A `Tree` is what is written: in one line (`compact`), or with one item a line, indented by two
blanks for every bracket (`pretty`).  A number that is not finite is written as `null`.
-/

namespace LeastSquares.Json

/-- a value to be written; keys and labels hold no character that would need an escape -/
inductive Tree where
  | natural (n : Nat)
  | real (x : Float)
  | label (text : String)
  | array (items : List Tree)
  | object (members : List (String × Tree))

namespace Tree

def reals (xs : Array Float) : Tree := .array (xs.toList.map .real)

def quote (text : String) : List Char := '"' :: text.toList ++ ['"']

/-- a number, or `null` if it is not finite -/
def writeReal (x : Float) : List Char :=
  if x.isFinite then Decimal.Style.json.write x else ['n', 'u', 'l', 'l']

def joinWith (sep : List Char) : List (List Char) → List Char
  | [] => []
  | [piece] => piece
  | piece :: rest => piece ++ sep ++ joinWith sep rest

/-! ## one line -/

mutual

def writeCompact : Tree → List Char
  | natural n => Nat.toDigits 10 n
  | real x => writeReal x
  | label text => quote text
  | array items => '[' :: joinWith [','] (compactItems items) ++ [']']
  | object members => '{' :: joinWith [','] (compactMembers members) ++ ['}']

def compactItems : List Tree → List (List Char)
  | [] => []
  | t :: rest => writeCompact t :: compactItems rest

def compactMembers : List (String × Tree) → List (List Char)
  | [] => []
  | (key, t) :: rest => (quote key ++ ':' :: writeCompact t) :: compactMembers rest

end

/-! ## one item a line -/

/-- a new line with this many brackets around it -/
def newLine (depth : Nat) : List Char := '\n' :: List.replicate (2 * depth) ' '

/-- pieces, each on a line of its own, between two brackets -/
def bracketed (opening closing : Char) (depth : Nat) (pieces : List (List Char)) : List Char :=
  if pieces.isEmpty then [opening, closing]
  else
    opening :: newLine (depth + 1) ++ joinWith (',' :: newLine (depth + 1)) pieces ++
      newLine depth ++ [closing]

mutual

def writePretty : Tree → (depth : Nat) → List Char
  | natural n, _ => Nat.toDigits 10 n
  | real x, _ => writeReal x
  | label text, _ => quote text
  | array items, depth => bracketed '[' ']' depth (prettyItems items (depth + 1))
  | object members, depth => bracketed '{' '}' depth (prettyMembers members (depth + 1))

def prettyItems : List Tree → (depth : Nat) → List (List Char)
  | [], _ => []
  | t :: rest, depth => writePretty t depth :: prettyItems rest depth

def prettyMembers : List (String × Tree) → (depth : Nat) → List (List Char)
  | [], _ => []
  | (key, t) :: rest, depth =>
    (quote key ++ ':' :: ' ' :: writePretty t depth) :: prettyMembers rest depth

end

def compact (t : Tree) : String := String.ofList t.writeCompact

def pretty (t : Tree) : String := String.ofList (t.writePretty 0)

end Tree
end LeastSquares.Json
