import LeastSquares.Proofs.Json.Object
import LeastSquares.Proofs.Json.Sequence

/-!
# Reading records back

The members of an object are written one after the other, with plain keys and with blanks of the
layout's choice between them (`inside`).  `Filled` says what becomes of a record whose fields are
read from these members in their order, up to the first one that cannot be read, and `record_inside`
that the text of the object gives that result.
-/

namespace LeastSquares.Json
variable {π β : Type}

/-! ## one member -/

section
variable {fields : List (RecordField π)}

theorem decides_member {name : String} {field : RecordField π} {part part' : π} {v : List Char}
    {readable : Bool} (hfind : fields.find? (fun f => f.name = name) = some field)
    (hread : field.isRead part = false) (h : Decides (field.read part) v readable part') :
    Decides (member fields name part) (':' :: v) readable part' where
  reads hr := reads_member hfind hread (h.reads hr)
  refuses hr := refuses_member hfind hread (h.refuses hr)

end

/-! ## all members -/

/-- what becomes of a partly read record when these members are read, each one a key and the text
behind its colon -/
inductive Filled (fields : List (RecordField π)) :
    π → List (String × List Char) → Except JsonFault π → Prop where
  | done {part : π} : Filled fields part [] (.ok part)
  | fault {part : π} {key : String} {v : List Char} {ms : List (String × List Char)}
      {fault : JsonFault} (plain : Plain key.toList)
      (refuses : Refuses (member fields key part) (':' :: v) fault) :
      Filled fields part ((key, v) :: ms) (.error fault)
  | member {part part' : π} {key : String} {v : List Char} {ms : List (String × List Char)}
      {result : Except JsonFault π} (plain : Plain key.toList)
      (reads : Reads (member fields key part) (':' :: v) part')
      (rest : Filled fields part' ms result) : Filled fields part ((key, v) :: ms) result

/-- a member that may be unreadable in front of others that may be -/
theorem filled_cons {fields : List (RecordField π)} {part part' result : π} {key : String}
    {v : List Char} {ms : List (String × List Char)} {readable readable' : Bool}
    (plain : Plain key.toList) (h : Decides (member fields key part) (':' :: v) readable part')
    (rest : Filled fields part' ms (verdict readable' result)) :
    Filled fields part ((key, v) :: ms) (verdict (readable && readable') result) := by
  cases readable with
  | true => exact .member plain (h.reads rfl) rest
  | false => exact .fault plain (h.refuses rfl)

/-- the text between the brackets of an object and its closing one, with `lead` before every key and
`trail` before the bracket -/
def inside (lead trail : List Char) : (first : Bool) → List (String × List Char) → List Char
  | _, [] => trail ++ ['}']
  | first, (key, v) :: ms =>
    (if first then lead else ',' :: lead) ++ Tree.quote key ++ ':' :: v ++
      inside lead trail false ms

section
variable {fields : List (RecordField π)} {lead trail : List Char}

/-- a member as it is written -/
def piece (m : String × List Char) : List Char := Tree.quote m.1 ++ ':' :: m.2

theorem inside_eq_row (first : Bool) (ms : List (String × List Char)) :
    inside lead trail first ms = row '}' lead trail first (ms.map piece) := by
  induction ms generalizing first with
  | nil => rfl
  | cons m ms ih => simp [inside, row, piece, ih]

/-- the layout of what is written -/
theorem membersText_inside (hl : Blank lead) (ht : Blank trail) (first : Bool)
    (ms : List (String × List Char)) :
    MembersText first (ms.map fun m => (m.1.toList, m.2)) (inside lead trail first ms) := by
  induction ms generalizing first with
  | nil => exact .closing ht
  | cons m ms ih =>
    have htext : inside lead trail first (m :: ms) =
        separated first (memberText lead m.1.toList [] m.2) ++ inside lead trail false ms := by
      cases first <;> simp [inside, separated, memberText, Tree.quote]
    rw [htext]
    exact .member hl blank_nil (ih false)

theorem Filled.fills {ms : List (String × List Char)} {part : π} {result : Except JsonFault π}
    (h : Filled fields part ms result) :
    Fills fields part (ms.map fun m => (m.1.toList, m.2)) result := by
  induction h with
  | done => exact .done
  | fault plain refuses => exact .fault (spells_of_plain plain) refuses
  | member plain reads _ ih => exact .member (spells_of_plain plain) reads ih

/-- the result of filling a record, and whether it is complete then -/
theorem record_inside (hl : Blank lead) (ht : Blank trail) {empty : π}
    {ms : List (String × List Char)} {result : Except JsonFault π}
    (h : Filled fields empty ms result) (complete : π → Option β) (rest : List Char) :
    record fields empty complete ('{' :: (inside lead trail true ms ++ rest)) =
      result.bind fun part => (complete part).elim (.error .mismatch) fun b => .ok (b, rest) :=
  record_text (membersText_inside hl ht true ms) h.fills complete rest

theorem decides_record (hl : Blank lead) (ht : Blank trail) {empty part : π}
    {ms : List (String × List Char)} {readable : Bool}
    (h : Filled fields empty ms (verdict readable part)) {complete : π → Option β} {b : β}
    (hcomplete : complete part = some b) :
    Decides (record fields empty complete) ('{' :: inside lead trail true ms) readable b := by
  constructor
  case reads =>
    rintro rfl rest _
    refine ⟨[], blank_nil, ?_⟩
    rw [List.cons_append, record_inside hl ht h complete rest]
    show (complete part).elim _ _ = _
    rw [hcomplete]
    rfl
  case refuses =>
    rintro rfl rest _
    rw [List.cons_append, record_inside hl ht h complete rest]
    rfl

end

/-! ## written objects -/

theorem bracketed_pieces (depth : Nat) (m : String × List Char) (ms : List (String × List Char)) :
    Tree.bracketed '{' '}' depth (piece m :: ms.map piece) =
      '{' :: inside (Tree.newLine (depth + 1)) (Tree.newLine depth) true (m :: ms) := by
  rw [inside_eq_row, List.map_cons]
  exact bracketed_row_cons '{' '}' depth (piece m) (ms.map piece)

theorem joined_pieces (ms : List (String × List Char)) :
    '{' :: Tree.joinWith [','] (ms.map piece) ++ ['}'] = '{' :: inside [] [] true ms := by
  rw [inside_eq_row]
  exact joined_row '{' '}' (ms.map piece)

end LeastSquares.Json
