import LeastSquares.Json.Number
import LeastSquares.Json.Reader
import LeastSquares.Proofs.Json.Reading

/-!
# The grammar of JSON

Which texts are values is said here apart from the readers that go through them: `Derives` has a
rule for each way to put a text together from smaller ones, with blanks wherever JSON allows them.

A quoted text may escape any of its characters.  `Escaped` says that every escape is complete, and
`Spells` what the text stands for.  Half of a surrogate pair is a complete escape, but it stands for
a character only together with the other half, so a text with a half alone spells nothing and can
be no key.
-/

namespace LeastSquares.Json

/-! ## quoted texts -/

/-- can a character be written between quotes as it is? -/
def isPlain (c : Char) : Bool := c ≠ '"' && c ≠ '\\' && !isControl c

theorem isPlain_iff {c : Char} :
    isPlain c = true ↔ (c ≠ '"' ∧ c ≠ '\\') ∧ isControl c = false := by
  simp [isPlain]

def Plain (text : List Char) : Prop := ∀ c ∈ text, isPlain c = true

theorem plain_of_all {text : List Char} (h : text.all isPlain = true) : Plain text :=
  List.all_eq_true.mp h

/-- four hexadecimal digits and their number -/
inductive Quad : List Char → Nat → Prop where
  | intro {a b c d : Char} {i j k l : Nat} (ha : hexDigit? a = some i) (hb : hexDigit? b = some j)
      (hc : hexDigit? c = some k) (hd : hexDigit? d = some l) :
      Quad [a, b, c, d] (((i * 16 + j) * 16 + k) * 16 + l)

/-- a text between quotes -/
inductive Escaped : List Char → Prop where
  | nil : Escaped []
  | plain {c : Char} {cs : List Char} (hc : isPlain c = true) (rest : Escaped cs) :
      Escaped (c :: cs)
  | simple {c d : Char} {cs : List Char} (hc : simpleEscape? c = some d) (rest : Escaped cs) :
      Escaped ('\\' :: c :: cs)
  | code {q cs : List Char} {n : Nat} (hq : Quad q n) (rest : Escaped cs) :
      Escaped ('\\' :: 'u' :: (q ++ cs))

/-- a text between quotes, and the text it stands for -/
inductive Spells : List Char → List Char → Prop where
  | nil : Spells [] []
  | plain {c : Char} {cs text : List Char} (hc : isPlain c = true) (rest : Spells cs text) :
      Spells (c :: cs) (c :: text)
  | simple {c d : Char} {cs text : List Char} (hc : simpleEscape? c = some d)
      (rest : Spells cs text) : Spells ('\\' :: c :: cs) (d :: text)
  | code {q cs text : List Char} {n : Nat} (hq : Quad q n) (hleading : isLeadingHalf n = false)
      (htrailing : isTrailingHalf n = false) (rest : Spells cs text) :
      Spells ('\\' :: 'u' :: (q ++ cs)) (Char.ofNat n :: text)
  | pair {q q' cs text : List Char} {n n' : Nat} (hq : Quad q n) (hq' : Quad q' n')
      (hleading : isLeadingHalf n = true) (htrailing : isTrailingHalf n' = true)
      (rest : Spells cs text) :
      Spells ('\\' :: 'u' :: (q ++ '\\' :: 'u' :: (q' ++ cs))) (joinHalves n n' :: text)

theorem spells_of_plain {text : List Char} (h : Plain text) : Spells text text := by
  induction text with
  | nil => exact .nil
  | cons c text ih =>
    exact .plain (h c List.mem_cons_self) (ih fun d hd => h d (List.mem_cons_of_mem c hd))

/-! ## numbers -/

/-- one digit or more -/
def Digits (cs : List Char) : Prop := cs ≠ [] ∧ ∀ c ∈ cs, isDigit c = true

theorem digits_of_all {cs : List Char} (hne : cs ≠ []) (h : cs.all isDigit = true) : Digits cs :=
  ⟨hne, List.all_eq_true.mp h⟩

/-- the digits before the point: a zero stands alone -/
def Whole (cs : List Char) : Prop := Digits cs ∧ (cs.head? = some '0' → cs = ['0'])

inductive Fraction : List Char → Prop where
  | absent : Fraction []
  | present {ds : List Char} (digits : Digits ds) : Fraction ('.' :: ds)

inductive Exponent : List Char → Prop where
  | absent : Exponent []
  | present {mark : Char} {sign ds : List Char} (hmark : isExponentMark mark = true)
      (hsign : sign ∈ [[], ['+'], ['-']]) (digits : Digits ds) : Exponent (mark :: (sign ++ ds))

inductive Numeral : List Char → Prop where
  | intro {sign ds fraction exponent : List Char} (hsign : sign ∈ [[], ['-']]) (whole : Whole ds)
      (hfraction : Fraction fraction) (hexponent : Exponent exponent) :
      Numeral (sign ++ (ds ++ (fraction ++ exponent)))

/-! ## values -/

def words : List (List Char) :=
  [['n', 'u', 'l', 'l'], ['t', 'r', 'u', 'e'], ['f', 'a', 'l', 's', 'e']]

inductive Part where
  | value
  /-- a value between blanks -/
  | element
  /-- an array behind its bracket, or behind one of its items -/
  | items (first : Bool)
  /-- an object behind its bracket, or behind one of its members -/
  | members (first : Bool)

/-- a text behind others of its kind, if it is not the first one -/
def separated (first : Bool) (cs : List Char) : List Char := if first then cs else ',' :: cs

/-- a key between quotes, a colon and the text behind it -/
def memberText (lead key gap v : List Char) : List Char :=
  lead ++ '"' :: (key ++ '"' :: (gap ++ ':' :: v))

inductive Derives : Part → List Char → Prop where
  | word {cs : List Char} (h : cs ∈ words) : Derives .value cs
  | numeral {cs : List Char} (h : Numeral cs) : Derives .value cs
  | quoted {cs : List Char} (h : Escaped cs) : Derives .value ('"' :: (cs ++ ['"']))
  | array {cs : List Char} (h : Derives (.items true) cs) : Derives .value ('[' :: cs)
  | object {cs : List Char} (h : Derives (.members true) cs) : Derives .value ('{' :: cs)
  | element {lead v trail : List Char} (hlead : Blank lead) (h : Derives .value v)
      (htrail : Blank trail) : Derives .element (lead ++ (v ++ trail))
  | itemsEnd {first : Bool} {blanks : List Char} (h : Blank blanks) :
      Derives (.items first) (blanks ++ [']'])
  | item {first : Bool} {e cs : List Char} (h : Derives .element e)
      (rest : Derives (.items false) cs) : Derives (.items first) (separated first e ++ cs)
  | membersEnd {first : Bool} {blanks : List Char} (h : Blank blanks) :
      Derives (.members first) (blanks ++ ['}'])
  | member {first : Bool} {lead key gap e cs : List Char} (hlead : Blank lead)
      (hkey : Escaped key) (hgap : Blank gap) (h : Derives .element e)
      (rest : Derives (.members false) cs) :
      Derives (.members first) (separated first (memberText lead key gap e) ++ cs)

end LeastSquares.Json
