import LeastSquares.Json.Fields
import LeastSquares.Json.Tree
import LeastSquares.Proofs.Json.Number

/-!
# Reading arrays back

The items of an array are written one after the other, with blanks of the layout's choice between
them (`row`).  An item need not be readable: a number that is not finite is written as `null`, which
is no number.  `Decides value cs readable b` says that `value` reads `b` from `cs` if that is so,
and refuses it as a value of another kind if not.

An array of such items is readable if all of them are (`decides_array`), by induction on the items.
-/

namespace LeastSquares.Json
variable {β γ : Type}

/-! ## pieces between brackets -/

/-- the pieces behind an opening bracket, and the closing one, with `lead` before every piece and
`trail` before the bracket -/
def row (closing : Char) (lead trail : List Char) :
    (first : Bool) → List (List Char) → List Char
  | _, [] => trail ++ [closing]
  | first, v :: vs => (if first then lead else ',' :: lead) ++ v ++ row closing lead trail false vs

theorem joinWith_row (closing : Char) (lead trail v : List Char) (vs : List (List Char)) :
    Tree.joinWith (',' :: lead) (v :: vs) ++ (trail ++ [closing]) =
      v ++ row closing lead trail false vs := by
  induction vs generalizing v with
  | nil => rfl
  | cons v' vs ih =>
    show v ++ (',' :: lead) ++ Tree.joinWith (',' :: lead) (v' :: vs) ++ (trail ++ [closing]) = _
    rw [List.append_assoc, ih v']
    simp [row]

/-- the comma before every piece but the first one is a character -/
theorem length_lt_row (closing : Char) (lead trail : List Char) (first : Bool)
    (vs : List (List Char)) :
    vs.length < (row closing lead trail first vs).length + first.toNat := by
  induction vs generalizing first with
  | nil =>
    simp only [row, List.length_nil, List.length_append, List.length_cons]
    omega
  | cons v vs ih =>
    have hrest := ih false
    cases first with
    | true =>
      simp [row] at hrest ⊢
      omega
    | false =>
      simp [row] at hrest ⊢
      omega

theorem ends_row {closing : Char} (hclosing : continues closing = false) {lead trail : List Char}
    (ht : Blank trail) (vs : List (List Char)) (rest : List Char) :
    Ends (row closing lead trail false vs ++ rest) := by
  cases vs with
  | nil =>
    show Ends (trail ++ [closing] ++ rest)
    rw [List.append_assoc]
    exact (ends_cons hclosing rest).append ht
  | cons v vs => exact ends_cons (by decide) _

/-! ## values that may be unreadable -/

/-- from the text `cs` `value` reads `b` if that is `readable`, and finds a value of another kind if
not -/
structure Decides (value : Reader β) (cs : List Char) (readable : Bool) (b : β) : Prop where
  reads : readable = true → Reads value cs b
  refuses : readable = false → Refuses value cs .mismatch

def verdict (readable : Bool) (b : β) : Except JsonFault β :=
  if readable then .ok b else .error .mismatch

namespace Decides
variable {value : Reader β} {cs : List Char} {readable : Bool} {b : β}

theorem of_reads (h : Reads value cs b) : Decides value cs true b := ⟨fun _ => h, nofun⟩

theorem map (h : Decides value cs readable b) (f : β → γ) :
    Decides (value >>= fun b => pure (f b)) cs readable (f b) :=
  ⟨fun hr => (h.reads hr).map f, fun hr => (h.refuses hr).bind _⟩

theorem behind_blanks (h : Decides value cs readable b) (hskips : SkipsBlanks value)
    {blanks : List Char} (hb : Blank blanks) : Decides value (blanks ++ cs) readable b :=
  ⟨fun hr => (h.reads hr).behind_blanks hskips hb, fun hr => (h.refuses hr).behind_blanks hskips hb⟩

theorem readAll {text : String} (h : Decides value text.toList readable b) :
    value.readAll text = verdict readable b := by
  cases readable with
  | true =>
    obtain ⟨blanks, hblanks, hvalue⟩ := h.reads rfl [] ends_nil
    simp only [List.append_nil] at hvalue
    exact readAll_eq_ok.mpr ⟨blanks, hblanks, hvalue⟩
  | false =>
    have hvalue := h.refuses rfl [] ends_nil
    rw [List.append_nil] at hvalue
    unfold Reader.readAll
    rw [hvalue]
    rfl

end Decides

/-! ## one item -/

/-- does a character start an item, rather than separate items or end their array? -/
def startsItem (c : Char) : Bool := !isBlank c && c ≠ ']' && c ≠ ','

/-- the text starts like an item, perhaps behind blanks -/
def Opens (cs : List Char) : Prop :=
  ∃ blanks c rest, cs = blanks ++ c :: rest ∧ Blank blanks ∧ startsItem c = true

theorem opens_cons {c : Char} (h : startsItem c = true) (cs : List Char) : Opens (c :: cs) :=
  ⟨[], c, cs, rfl, blank_nil, h⟩

theorem nextItem_of_closing (first : Bool) {blanks : List Char} (h : Blank blanks)
    (cs : List Char) : nextItem first (blanks ++ ']' :: cs) = .ok (false, cs) := by
  unfold nextItem
  rw [dropBlanks_append_cons h (by decide)]
  rfl

section
variable {c : Char} {blanks blanks' : List Char}

theorem nextItem_of_first (hc : startsItem c = true) (h : Blank blanks) (cs : List Char) :
    nextItem true (blanks ++ c :: cs) = .ok (true, c :: cs) := by
  obtain ⟨⟨hblank, hclosing⟩, hcomma⟩ : (isBlank c = false ∧ c ≠ ']') ∧ c ≠ ',' := by
    simpa [startsItem] using hc
  unfold nextItem
  rw [dropBlanks_append_cons h (by simp [hblank])]
  split
  · rename_i heq
    cases heq
  · rename_i heq
    exact absurd (List.cons.inj heq).1 hclosing
  · rename_i heq
    exact absurd (List.cons.inj heq).1 hcomma
  · rfl

theorem nextItem_of_comma (hc : startsItem c = true) (h : Blank blanks) (h' : Blank blanks')
    (cs : List Char) :
    nextItem false (blanks ++ ',' :: (blanks' ++ c :: cs)) = .ok (true, c :: cs) := by
  obtain ⟨⟨hblank, hclosing⟩, -⟩ : (isBlank c = false ∧ c ≠ ']') ∧ c ≠ ',' := by
    simpa [startsItem] using hc
  have hitem := dropBlanks_append_cons h' (c := c) (by simp [hblank]) cs
  unfold nextItem
  rw [dropBlanks_append_cons h (by decide)]
  simp [hitem, hclosing]

end

section
variable {item : Reader β} {bound : Nat} {first : Bool} {found : Array β} {cs rest : List Char}

theorem items_of_closing (h : nextItem first cs = .ok (false, rest)) :
    items item (bound + 1) first found cs = .ok (found, rest) := by
  show (nextItem first >>= _) cs = _
  rw [bind_of_ok h]
  rfl

theorem items_of_next (h : nextItem first cs = .ok (true, rest)) :
    items item (bound + 1) first found cs =
      (item >>= fun b => items item bound false (found.push b)) rest := by
  show (nextItem first >>= _) cs = _
  rw [bind_of_ok h]
  rfl

/-- what comes behind the separator of an item is read as that item -/
theorem items_of_opens (hskips : SkipsBlanks item) {lead v blanks : List Char} (hl : Blank lead)
    (hv : Opens v) (hb : Blank blanks) :
    items item (bound + 1) first found
        (blanks ++ ((if first then lead else ',' :: lead) ++ (v ++ rest))) =
      (item >>= fun b => items item bound false (found.push b)) (v ++ rest) := by
  obtain ⟨front, c, cs, rfl, hfront, hc⟩ := hv
  have hnext : nextItem first (blanks ++ ((if first then lead else ',' :: lead) ++
      (front ++ c :: cs ++ rest))) = .ok (true, c :: (cs ++ rest)) := by
    cases first with
    | true =>
      have hfirst := nextItem_of_first hc (hb.append (hl.append hfront)) (cs ++ rest)
      rw [← hfirst]
      simp
    | false =>
      have hcomma := nextItem_of_comma hc hb (hl.append hfront) (cs ++ rest)
      rw [← hcomma]
      simp
  have hitem : item (front ++ c :: cs ++ rest) = item (c :: (cs ++ rest)) := by
    rw [List.append_assoc]
    exact hskips front _ hfront
  rw [items_of_next hnext]
  show (item (c :: (cs ++ rest)) >>= _) = (item (front ++ c :: cs ++ rest) >>= _)
  rw [hitem]

end

/-! ## all items -/

section
variable {item : Reader β} {write : β → List Char} {good : β → Bool} {lead trail : List Char}
  {bs : List β}

theorem items_row (hskips : SkipsBlanks item) (hl : Blank lead) (ht : Blank trail)
    (h : ∀ b ∈ bs, Opens (write b) ∧ Decides item (write b) (good b) b) {bound : Nat}
    (hbound : bs.length < bound) (first : Bool) {blanks : List Char} (hb : Blank blanks)
    (found : Array β) (rest : List Char) :
    items item bound first found (blanks ++ (row ']' lead trail first (bs.map write) ++ rest)) =
      (verdict (bs.all good) (found ++ bs.toArray)).map fun bs => (bs, rest) := by
  obtain ⟨bound, rfl⟩ := Nat.exists_eq_succ_of_ne_zero (Nat.ne_of_gt (Nat.zero_lt_of_lt hbound))
  induction bs generalizing bound first blanks found with
  | nil =>
    have hclosing := nextItem_of_closing first (hb.append ht) rest
    have hall : verdict ([].all good) (found ++ [].toArray) = .ok found := by
      simp [verdict]
    rw [hall]
    refine items_of_closing ?_
    rw [← hclosing]
    simp [row]
  | cons b bs ih =>
    obtain ⟨hopens, hdecides⟩ := h b List.mem_cons_self
    have hends : Ends (row ']' lead trail false (bs.map write) ++ rest) :=
      ends_row (by decide) ht (bs.map write) rest
    have hrow : row ']' lead trail first ((b :: bs).map write) ++ rest =
        (if first then lead else ',' :: lead) ++
          (write b ++ (row ']' lead trail false (bs.map write) ++ rest)) := by
      simp [row]
    rw [hrow, items_of_opens hskips hl hopens hb, List.all_cons]
    cases hgood : good b with
    | false =>
      rw [bind_of_error (hdecides.refuses hgood _ hends)]
      rfl
    | true =>
      obtain ⟨blanks', hb', hreads⟩ := hdecides.reads hgood _ hends
      obtain ⟨bound, rfl⟩ := Nat.exists_eq_succ_of_ne_zero (Nat.ne_of_gt
        (Nat.zero_lt_of_lt (Nat.lt_of_succ_lt_succ hbound)))
      rw [bind_of_ok hreads, ih (fun b hb => h b (List.mem_cons_of_mem _ hb)) false hb'
        (found.push b) bound (Nat.lt_of_succ_lt_succ hbound)]
      simp

/-- an array is readable if all of its items are -/
theorem decides_array (hskips : SkipsBlanks item) (hl : Blank lead) (ht : Blank trail)
    (h : ∀ b ∈ bs, Opens (write b) ∧ Decides item (write b) (good b) b) :
    Decides (array item) ('[' :: row ']' lead trail true (bs.map write)) (bs.all good)
      bs.toArray := by
  have hitems (rest : List Char) :
      array item ('[' :: row ']' lead trail true (bs.map write) ++ rest) =
        (verdict (bs.all good) bs.toArray).map fun bs => (bs, rest) := by
    have hlength := length_lt_row ']' lead trail true (bs.map write)
    rw [List.length_map] at hlength
    have hbound : bs.length < (row ']' lead trail true (bs.map write) ++ rest).length + 1 := by
      rw [List.length_append]
      exact Nat.lt_of_lt_of_le hlength (by simp)
    have hrow := items_row hskips hl ht h hbound true blank_nil #[] rest
    rw [Array.empty_append] at hrow
    exact hrow
  constructor
  case reads =>
    intro hgood rest _
    refine ⟨[], blank_nil, ?_⟩
    rw [hitems, hgood]
    rfl
  case refuses =>
    intro hgood rest _
    rw [hitems, hgood]
    rfl

end

/-! ## written arrays -/

theorem skipsBlanks_array (item : Reader β) : SkipsBlanks (array item) := by
  intro blanks cs h
  unfold array
  rw [dropBlanks_append h]

theorem blank_newLine (depth : Nat) : Blank (Tree.newLine depth) := by
  intro c hc
  rcases List.mem_cons.mp hc with rfl | hc
  · rfl
  · rw [List.eq_of_mem_replicate hc]
    rfl

theorem bracketed_row_cons (opening closing : Char) (depth : Nat) (v : List Char)
    (vs : List (List Char)) : Tree.bracketed opening closing depth (v :: vs) =
      opening :: row closing (Tree.newLine (depth + 1)) (Tree.newLine depth) true (v :: vs) := by
  have hjoin := joinWith_row closing (Tree.newLine (depth + 1)) (Tree.newLine depth) v vs
  show opening :: Tree.newLine (depth + 1) ++ Tree.joinWith _ (v :: vs) ++
    Tree.newLine depth ++ [closing] = _
  rw [List.append_assoc, List.append_assoc, hjoin]
  simp [row]

/-- pieces on lines of their own; an empty pair of brackets has no line in it -/
theorem exists_bracketed_row (opening closing : Char) (depth : Nat) (vs : List (List Char)) :
    ∃ trail, Blank trail ∧ Tree.bracketed opening closing depth vs =
      opening :: row closing (Tree.newLine (depth + 1)) trail true vs := by
  cases vs with
  | nil => exact ⟨[], blank_nil, rfl⟩
  | cons v vs =>
    exact ⟨Tree.newLine depth, blank_newLine depth, bracketed_row_cons opening closing depth v vs⟩

/-- pieces on one line -/
theorem joined_row (opening closing : Char) (vs : List (List Char)) :
    opening :: Tree.joinWith [','] vs ++ [closing] = opening :: row closing [] [] true vs := by
  cases vs with
  | nil => rfl
  | cons v vs =>
    have hjoin := joinWith_row closing [] [] v vs
    rw [List.nil_append] at hjoin
    rw [List.cons_append, hjoin]
    simp [row]

end LeastSquares.Json
