import LeastSquares.Json.Fields
import LeastSquares.Proofs.Json.Grammar

/-!
# Reading objects

The members of an object are read one after the other, each into the record that those before it
have filled.  `Fills` says what becomes of the record, up to the first member that cannot be read.
How the object is laid out makes no difference to it: blanks may stand wherever JSON allows them,
and a key may be escaped (`members_text`, by induction on the members).
-/

namespace LeastSquares.Json
variable {π β : Type}

/-! ## keys -/

theorem quoted_of_isPlain {c : Char} (hc : isPlain c = true) {cs text rest : List Char}
    (h : quoted cs = .ok (text, rest)) : quoted (c :: cs) = .ok (c :: text, rest) := by
  obtain ⟨⟨hquote, hescape⟩, hcontrol⟩ := isPlain_iff.mp hc
  rw [quoted, hcontrol, h]
  · rfl
  · exact hquote
  · exact hescape

theorem quoted_of_escape {c : Char} {cs text rest : List Char}
    {more : { rest : List Char // rest.length ≤ cs.length }} (hc : escape cs = .ok (c, more))
    (h : quoted more.1 = .ok (text, rest)) : quoted ('\\' :: cs) = .ok (c :: text, rest) := by
  rw [quoted, hc]
  show (quoted more.1 >>= _) = _
  rw [h]
  rfl

theorem escape_of_simple {c d : Char} (h : simpleEscape? c = some d) (cs : List Char) :
    escape (c :: cs) = .ok (d, ⟨cs, Nat.le_succ _⟩) := by
  have hu : c ≠ 'u' := by
    rintro rfl
    cases h
  rw [escape, h]
  exact hu

theorem hexQuad_append {q : List Char} {n : Nat} (hq : Quad q n) (cs : List Char) :
    hexQuad (q ++ cs) = .ok (n, ⟨cs, (List.suffix_append q cs).length_le⟩) := by
  obtain ⟨ha, hb, hc, hd⟩ := hq
  show hexQuad (_ :: _ :: _ :: _ :: cs) = _
  rw [hexQuad, ha, hb, hc, hd]

theorem escape_of_code {q : List Char} {n : Nat} (hq : Quad q n)
    (hleading : isLeadingHalf n = false) (htrailing : isTrailingHalf n = false) (cs : List Char) :
    escape ('u' :: (q ++ cs)) = .ok (Char.ofNat n, ⟨cs, by simp; omega⟩) := by
  have hcode : unicodeEscape (q ++ cs) =
      .ok (Char.ofNat n, ⟨cs, (List.suffix_append q cs).length_le⟩) := by
    unfold unicodeEscape
    rw [hexQuad_append hq]
    show (if isTrailingHalf n then _ else if isLeadingHalf n then _ else _) = _
    rw [htrailing, hleading]
    rfl
  rw [escape, hcode]
  rfl

/-- the two halves of a character -/
theorem escape_of_pair {q q' : List Char} {n n' : Nat} (hq : Quad q n) (hq' : Quad q' n')
    (hleading : isLeadingHalf n = true) (htrailing : isTrailingHalf n' = true) (cs : List Char) :
    escape ('u' :: (q ++ '\\' :: 'u' :: (q' ++ cs))) =
      .ok (joinHalves n n', ⟨cs, by simp; omega⟩) := by
  have hfirst : isTrailingHalf n = false := by
    simp only [isLeadingHalf, isTrailingHalf, Bool.and_eq_true, decide_eq_true_eq] at hleading ⊢
    simp only [Bool.and_eq_false_iff, decide_eq_false_iff_not]
    omega
  have hcode : unicodeEscape (q ++ '\\' :: 'u' :: (q' ++ cs)) =
      .ok (joinHalves n n', ⟨cs, by simp; omega⟩) := by
    unfold unicodeEscape
    rw [hexQuad_append hq]
    show (if isTrailingHalf n then _ else if isLeadingHalf n then
      hexQuad (q' ++ cs) >>= fun p => if isTrailingHalf p.1 then _ else _ else _) = _
    rw [hfirst, hleading, hexQuad_append hq']
    show (if isTrailingHalf n' then _ else _) = _
    rw [htrailing]
    rfl
  rw [escape, hcode]
  rfl

theorem quoted_of_spells {key text : List Char} (h : Spells key text) (rest : List Char) :
    quoted (key ++ '"' :: rest) = .ok (text, rest) := by
  induction h with
  | nil => rw [List.nil_append, quoted]
  | plain hc _ ih => exact quoted_of_isPlain hc ih
  | simple hc _ ih => exact quoted_of_escape (escape_of_simple hc _) ih
  | @code q cs text n hq hleading htrailing _ ih =>
    rw [List.cons_append, List.cons_append, List.append_assoc]
    exact quoted_of_escape (escape_of_code hq hleading htrailing _) ih
  | @pair q q' cs text n n' hq hq' hleading htrailing _ ih =>
    rw [List.cons_append, List.cons_append, List.append_assoc, List.cons_append, List.cons_append,
      List.append_assoc]
    exact quoted_of_escape (escape_of_pair hq hq' hleading htrailing _) ih

theorem quoted_of_plain {text : List Char} (h : Plain text) (rest : List Char) :
    quoted (text ++ '"' :: rest) = .ok (text, rest) :=
  quoted_of_spells (spells_of_plain h) rest

/-! ## one member -/

section
variable {fields : List (RecordField π)}

theorem nextKey_of_closing (first : Bool) {blanks : List Char} (h : Blank blanks)
    (cs : List Char) : nextKey first (blanks ++ '}' :: cs) = .ok (false, cs) := by
  unfold nextKey
  rw [dropBlanks_append_cons h (by decide)]
  rfl

theorem nextKey_of_first {blanks : List Char} (h : Blank blanks) (cs : List Char) :
    nextKey true (blanks ++ '"' :: cs) = .ok (true, cs) := by
  unfold nextKey
  rw [dropBlanks_append_cons h (by decide)]
  rfl

theorem nextKey_of_comma {blanks blanks' : List Char} (h : Blank blanks) (h' : Blank blanks')
    (cs : List Char) :
    nextKey false (blanks ++ ',' :: (blanks' ++ '"' :: cs)) = .ok (true, cs) := by
  unfold nextKey
  rw [dropBlanks_append_cons h (by decide)]
  have hkey := dropBlanks_append_cons h' (c := '"') (by decide) cs
  simp [hkey]

theorem nextKey_separated (first : Bool) {blanks lead : List Char} (hb : Blank blanks)
    (hlead : Blank lead) (key gap v rest : List Char) :
    nextKey first (blanks ++ (separated first (memberText lead key gap v) ++ rest)) =
      .ok (true, key ++ '"' :: (gap ++ ':' :: (v ++ rest))) := by
  cases first with
  | true =>
    have hfirst := nextKey_of_first (hb.append hlead) (key ++ '"' :: (gap ++ ':' :: (v ++ rest)))
    rw [← hfirst]
    simp [separated, memberText]
  | false =>
    have hcomma := nextKey_of_comma hb hlead (key ++ '"' :: (gap ++ ':' :: (v ++ rest)))
    rw [← hcomma]
    simp [separated, memberText]

theorem members_of_closing {bound : Nat} {first : Bool} {part : π} {cs rest : List Char}
    (h : nextKey first cs = .ok (false, rest)) :
    members fields (bound + 1) first part cs = .ok (part, rest) := by
  show (nextKey first >>= _) cs = _
  rw [bind_of_ok h]
  rfl

/-- a member is read, and then the members behind it -/
theorem members_of_key {bound : Nat} {first : Bool} {part : π} {cs rest key : List Char}
    {name : String} (h : nextKey first cs = .ok (true, key ++ '"' :: rest))
    (hkey : Spells key name.toList) :
    members fields (bound + 1) first part cs =
      (member fields name part >>= members fields bound false) rest := by
  show (nextKey first >>= _) cs = _
  rw [bind_of_ok h]
  refine (bind_of_ok (quoted_of_spells hkey rest)).trans ?_
  rw [String.ofList_toList]

theorem expectMark_append {blanks : List Char} (h : Blank blanks) (mark : Char) (cs : List Char) :
    expectMark mark (blanks ++ cs) = expectMark mark cs := by
  unfold expectMark
  rw [dropBlanks_append h]

theorem skipsBlanks_mark (mark : Char) (value : Reader β) :
    SkipsBlanks (expectMark mark >>= fun _ => value) := by
  intro blanks cs h
  show (expectMark mark (blanks ++ cs) >>= _) = (expectMark mark cs >>= _)
  rw [expectMark_append h]

section
variable {name : String} {field : RecordField π} {part part' : π} {v : List Char}

theorem member_of_find (hfind : fields.find? (fun f => f.name = name) = some field) :
    member fields name part =
      if field.isRead part then throw .mismatch
      else expectMark ':' >>= fun _ => field.read part := by
  unfold member
  rw [hfind]
  rfl

theorem member_of_unknown (hfind : fields.find? (fun f => f.name = name) = none) :
    member fields name part =
      expectMark ':' >>= fun _ => skipValue >>= fun _ => pure part := by
  unfold member
  rw [hfind]

theorem skipsBlanks_member : SkipsBlanks (member fields name part) := by
  cases hfind : fields.find? (fun f => f.name = name) with
  | none =>
    rw [member_of_unknown hfind]
    exact skipsBlanks_mark _ _
  | some field =>
    rw [member_of_find hfind]
    split
    · exact fun _ _ _ => rfl
    · exact skipsBlanks_mark _ _

theorem reads_member (hfind : fields.find? (fun f => f.name = name) = some field)
    (hread : field.isRead part = false) (h : Reads (field.read part) v part') :
    Reads (member fields name part) (':' :: v) part' := by
  rw [member_of_find hfind, hread]
  exact h

theorem refuses_member {fault : JsonFault}
    (hfind : fields.find? (fun f => f.name = name) = some field)
    (hread : field.isRead part = false) (h : Refuses (field.read part) v fault) :
    Refuses (member fields name part) (':' :: v) fault := by
  rw [member_of_find hfind, hread]
  exact h

/-- a field is read once only -/
theorem refuses_again (hfind : fields.find? (fun f => f.name = name) = some field)
    (hread : field.isRead part = true) (cs : List Char) :
    Refuses (member fields name part) cs .mismatch := by
  rw [member_of_find hfind, hread]
  exact fun _ _ => rfl

/-- the value of a key that names no field is passed over -/
theorem reads_unknown (hfind : fields.find? (fun f => f.name = name) = none)
    (h : Reads skipValue v ()) : Reads (member fields name part) (':' :: v) part := by
  rw [member_of_unknown hfind]
  exact h.map fun _ => part

end

/-! ## all members -/

/-- what becomes of a partly read record when these members are read, each one a key as it is
written and the text behind its colon -/
inductive Fills (fields : List (RecordField π)) :
    π → List (List Char × List Char) → Except JsonFault π → Prop where
  | done {part : π} : Fills fields part [] (.ok part)
  | fault {part : π} {key v : List Char} {name : String} {ms : List (List Char × List Char)}
      {fault : JsonFault} (spells : Spells key name.toList)
      (refuses : Refuses (member fields name part) (':' :: v) fault) :
      Fills fields part ((key, v) :: ms) (.error fault)
  | member {part part' : π} {key v : List Char} {name : String}
      {ms : List (List Char × List Char)} {result : Except JsonFault π}
      (spells : Spells key name.toList) (reads : Reads (member fields name part) (':' :: v) part')
      (rest : Fills fields part' ms result) : Fills fields part ((key, v) :: ms) result

/-- an object with these members, behind its opening bracket or behind a member -/
inductive MembersText : Bool → List (List Char × List Char) → List Char → Prop where
  | closing {first : Bool} {blanks : List Char} (h : Blank blanks) :
      MembersText first [] (blanks ++ ['}'])
  | member {first : Bool} {lead key gap v cs : List Char} {ms : List (List Char × List Char)}
      (hlead : Blank lead) (hgap : Blank gap) (rest : MembersText false ms cs) :
      MembersText first ((key, v) :: ms) (separated first (memberText lead key gap v) ++ cs)

section
variable {first : Bool} {ms : List (List Char × List Char)} {cs : List Char}

theorem MembersText.length_le (h : MembersText first ms cs) : ms.length ≤ cs.length := by
  induction h with
  | closing => exact Nat.zero_le _
  | @member first lead key gap v cs ms _ _ _ ih =>
    have hcolon : 0 < (separated first (memberText lead key gap v)).length := by
      cases first with
      | true =>
        simp only [separated, memberText, if_true, List.length_append, List.length_cons]
        omega
      | false => exact Nat.succ_pos _
    rw [List.length_cons, List.length_append]
    omega

theorem MembersText.ends (h : MembersText false ms cs) (rest : List Char) : Ends (cs ++ rest) := by
  cases h with
  | closing h =>
    rw [List.append_assoc]
    exact (ends_cons (by decide) _).append h
  | member _ _ _ => exact ends_cons (by decide) _

theorem members_text (htext : MembersText first ms cs) {part : π} {result : Except JsonFault π}
    (h : Fills fields part ms result) {bound : Nat} (hbound : ms.length < bound)
    {blanks : List Char} (hb : Blank blanks) (rest : List Char) :
    members fields bound first part (blanks ++ (cs ++ rest)) =
      result.map fun part => (part, rest) := by
  obtain ⟨bound, rfl⟩ := Nat.exists_eq_succ_of_ne_zero (Nat.ne_of_gt (Nat.zero_lt_of_lt hbound))
  induction htext generalizing part bound blanks with
  | @closing first trail htrail =>
    cases h
    refine members_of_closing ?_
    rw [List.append_assoc, ← List.append_assoc]
    exact nextKey_of_closing first (hb.append htrail) rest
  | @member first lead key gap v cs ms hlead hgap htext ih =>
    have hkey := nextKey_separated first hb hlead key gap v (cs ++ rest)
    rw [← List.append_assoc (separated _ _)] at hkey
    cases h with
    | fault hspells hrefuses =>
      rw [members_of_key hkey hspells]
      exact bind_of_error ((skipsBlanks_member gap _ hgap).trans (hrefuses _ (htext.ends rest)))
    | member hspells hreads hrest =>
      obtain ⟨blanks', hb', hmember⟩ := hreads _ (htext.ends rest)
      obtain ⟨bound, rfl⟩ := Nat.exists_eq_succ_of_ne_zero (Nat.ne_of_gt
        (Nat.zero_lt_of_lt (Nat.lt_of_succ_lt_succ hbound)))
      rw [members_of_key hkey hspells]
      exact (bind_of_ok ((skipsBlanks_member gap _ hgap).trans hmember)).trans
        (ih hrest hb' bound (Nat.lt_of_succ_lt_succ hbound))

/-- the result of filling a record, and whether it is complete then -/
theorem record_text (htext : MembersText true ms cs) {empty : π} {result : Except JsonFault π}
    (h : Fills fields empty ms result) (complete : π → Option β) (rest : List Char) :
    record fields empty complete ('{' :: (cs ++ rest)) =
      result.bind fun part => (complete part).elim (.error .mismatch) fun b => .ok (b, rest) := by
  have hbound : ms.length < (cs ++ rest).length + 1 := by
    rw [List.length_append]
    exact Nat.lt_succ_of_le (htext.length_le.trans (Nat.le_add_right _ _))
  have hmembers : members fields ((cs ++ rest).length + 1) true empty ([] ++ (cs ++ rest)) =
      result.map fun part => (part, rest) := members_text htext h hbound blank_nil rest
  show (members fields ((cs ++ rest).length + 1) true empty ([] ++ (cs ++ rest)) >>= _) = _
  rw [hmembers]
  cases result with
  | error fault => rfl
  | ok part =>
    dsimp only [Except.map, bind, Except.bind]
    cases complete part <;> rfl

theorem skipsBlanks_record (empty : π) (complete : π → Option β) :
    SkipsBlanks (record fields empty complete) := by
  intro blanks cs h
  unfold record
  rw [dropBlanks_append h]

end

end

end LeastSquares.Json
