import Mathlib.Data.List.TakeWhile
import LeastSquares.Json.Number

/-!
# Reading a value inside a longer text

A text is read from its front, and what is read there can depend on what comes behind it: the
number `1` goes on in `12`, not in `1,`.  `Ends rest` says that a number does not go on in `rest`.

* `Reads value cs b`        in front of such a rest, `value` reads `b` from `cs`;
* `Refuses value cs fault`  in front of such a rest, `value` fails at `cs`;
* `Local value`             more text does not change what has been read, so that a value which can
                            be read alone is read inside a longer text too (`Local.reads`).
-/

namespace LeastSquares.Json
variable {β γ : Type}

/-! ## blanks -/

/-- nothing but blanks -/
def Blank (cs : List Char) : Prop := ∀ c ∈ cs, isBlank c = true

theorem blank_nil : Blank [] := nofun

theorem blank_space : Blank [' '] := List.all_eq_true.mp rfl

theorem Blank.append {cs cs' : List Char} (h : Blank cs) (h' : Blank cs') : Blank (cs ++ cs') :=
  List.forall_mem_append.mpr ⟨h, h'⟩

theorem dropBlanks_eq_nil {cs : List Char} : dropBlanks cs = [] ↔ Blank cs :=
  List.dropWhile_eq_nil_iff

theorem dropBlanks_append {blanks : List Char} (h : Blank blanks) (cs : List Char) :
    dropBlanks (blanks ++ cs) = dropBlanks cs := List.dropWhile_append_of_pos h

/-- blanks and a character that is none -/
theorem dropBlanks_append_cons {blanks : List Char} (h : Blank blanks) {c : Char}
    (hc : ¬ isBlank c = true) (cs : List Char) : dropBlanks (blanks ++ c :: cs) = c :: cs :=
  (dropBlanks_append h _).trans (dropBlanks_other hc cs)

/-- the blanks in front of a text, and the text -/
theorem exists_blanks (cs : List Char) : ∃ blanks rest, cs = blanks ++ rest ∧ Blank blanks ∧
    ∀ c ∈ rest.head?, ¬ isBlank c = true := by
  refine ⟨cs.takeWhile isBlank, cs.dropWhile isBlank, List.takeWhile_append_dropWhile.symm, ?_, ?_⟩
  · intro c hc
    exact List.mem_takeWhile_imp hc
  · intro c hc
    have hhead := List.head?_dropWhile_not isBlank cs
    rw [hc] at hhead
    simpa using hhead

/-! ## the end of a number -/

/-- can a number go on with this character? -/
def continues (c : Char) : Bool := isDigit c || c = '.' || isExponentMark c

/-- a number in front of this text does not go on in it -/
def Ends (rest : List Char) : Prop := ∀ c ∈ rest.head?, continues c = false

theorem ends_nil : Ends [] := nofun

theorem ends_cons {c : Char} (h : continues c = false) (rest : List Char) : Ends (c :: rest) := by
  intro d hd
  cases hd
  exact h

theorem not_continues_of_isBlank {c : Char} (h : isBlank c = true) : continues c = false := by
  have hcases : c = ' ' ∨ c = '\t' ∨ c = '\n' ∨ c = '\r' := by
    simpa [isBlank, or_assoc] using h
  rcases hcases with rfl | rfl | rfl | rfl <;> decide

theorem Ends.append {blanks rest : List Char} (h : Ends rest) (hb : Blank blanks) :
    Ends (blanks ++ rest) := by
  cases blanks with
  | nil => exact h
  | cons c blanks => exact ends_cons (not_continues_of_isBlank (hb c List.mem_cons_self)) _

/-! ## readers -/

section
variable {value : Reader β} {f : β → Reader γ} {cs rest : List Char} {b : β} {fault : JsonFault}

theorem bind_of_ok (h : value cs = .ok (b, rest)) : (value >>= f) cs = f b rest := by
  show (value cs >>= fun p => f p.1 p.2) = _
  rw [h]
  rfl

theorem bind_of_error (h : value cs = .error fault) : (value >>= f) cs = .error fault := by
  show (value cs >>= fun p => f p.1 p.2) = _
  rw [h]
  rfl

theorem bind_eq_ok {c : γ} : (value >>= f) cs = .ok (c, rest) ↔
    ∃ b mid, value cs = .ok (b, mid) ∧ f b mid = .ok (c, rest) := by
  cases h : value cs with
  | error fault =>
    rw [bind_of_error h]
    exact ⟨nofun, fun ⟨_, _, h, _⟩ => by cases h⟩
  | ok p =>
    obtain ⟨b, mid⟩ := p
    rw [bind_of_ok h]
    refine ⟨fun h => ⟨b, mid, rfl, h⟩, ?_⟩
    rintro ⟨b', mid', heq, h⟩
    cases heq
    exact h

theorem readAll_eq_ok {text : String} :
    value.readAll text = .ok b ↔ ∃ blanks, Blank blanks ∧ value text.toList = .ok (b, blanks) := by
  unfold Reader.readAll
  cases h : value text.toList with
  | error fault =>
    refine ⟨nofun, ?_⟩
    rintro ⟨blanks, -, heq⟩
    cases heq
  | ok p =>
    obtain ⟨b', rest⟩ := p
    dsimp only [bind, Except.bind]
    cases hrest : dropBlanks rest with
    | nil =>
      refine ⟨?_, ?_⟩
      · intro hb
        cases hb
        exact ⟨rest, dropBlanks_eq_nil.mp hrest, rfl⟩
      · rintro ⟨blanks, -, heq⟩
        cases heq
        rfl
    | cons c cs =>
      refine ⟨nofun, ?_⟩
      rintro ⟨blanks, hblanks, heq⟩
      cases heq
      rw [dropBlanks_eq_nil.mpr hblanks] at hrest
      cases hrest

end

/-! ## reading in front of a rest -/

/-- `value` reads `b` from the text `cs`, up to blanks -/
def Reads (value : Reader β) (cs : List Char) (b : β) : Prop :=
  ∀ rest, Ends rest → ∃ blanks, Blank blanks ∧ value (cs ++ rest) = .ok (b, blanks ++ rest)

def Refuses (value : Reader β) (cs : List Char) (fault : JsonFault) : Prop :=
  ∀ rest, Ends rest → value (cs ++ rest) = .error fault

section
variable {value : Reader β} {cs : List Char} {b : β} {fault : JsonFault}

theorem Reads.map (h : Reads value cs b) (f : β → γ) :
    Reads (value >>= fun b => pure (f b)) cs (f b) := by
  intro rest hrest
  obtain ⟨blanks, hblanks, hvalue⟩ := h rest hrest
  exact ⟨blanks, hblanks, bind_of_ok hvalue⟩

theorem Refuses.bind (h : Refuses value cs fault) (f : β → Reader γ) :
    Refuses (value >>= f) cs fault := by
  intro rest hrest
  exact bind_of_error (h rest hrest)

end

/-- blanks in front of a value make no difference -/
def SkipsBlanks (value : Reader β) : Prop :=
  ∀ blanks cs, Blank blanks → value (blanks ++ cs) = value cs

section
variable {value : Reader β} {blanks cs : List Char}

theorem Reads.behind_blanks {b : β} (h : Reads value cs b) (hskips : SkipsBlanks value)
    (hb : Blank blanks) : Reads value (blanks ++ cs) b := by
  intro rest hrest
  rw [List.append_assoc, hskips blanks _ hb]
  exact h rest hrest

theorem Refuses.behind_blanks {fault : JsonFault} (h : Refuses value cs fault)
    (hskips : SkipsBlanks value) (hb : Blank blanks) : Refuses value (blanks ++ cs) fault := by
  intro rest hrest
  rw [List.append_assoc, hskips blanks _ hb]
  exact h rest hrest

end

/-! ## readers that more text does not disturb -/

/-- what `value` reads from the text `cs` it also reads if there is more text -/
structure LocalAt (value : Reader β) (cs : List Char) : Prop where
  suffix : ∀ {rest : List Char} {b : β}, value cs = .ok (b, rest) → rest <:+ cs
  append : ∀ {rest more : List Char} {b : β}, value cs = .ok (b, rest) →
    (rest = [] → Ends more) → value (cs ++ more) = .ok (b, rest ++ more)

def Local (value : Reader β) : Prop := ∀ cs, LocalAt value cs

theorem Local.pure (b : β) : Local (pure b : Reader β) := by
  intro cs
  constructor
  case suffix =>
    intro rest b h
    cases h
    exact List.suffix_rfl
  case append =>
    intro rest more b h _
    cases h
    rfl

theorem Local.throw (fault : JsonFault) : Local (throw fault : Reader β) :=
  fun _ => ⟨nofun, nofun⟩

theorem Local.bind {value : Reader β} {f : β → Reader γ} (h : Local value)
    (hf : ∀ b, Local (f b)) : Local (value >>= f) := by
  intro cs
  constructor
  case suffix =>
    intro rest c hc
    obtain ⟨b, mid, hb, hc⟩ := bind_eq_ok.mp hc
    exact ((hf b mid).suffix hc).trans ((h cs).suffix hb)
  case append =>
    intro rest more c hc hmore
    obtain ⟨b, mid, hb, hc⟩ := bind_eq_ok.mp hc
    refine (bind_of_ok ((h cs).append hb ?_)).trans ((hf b mid).append hc hmore)
    rintro rfl
    exact hmore (List.suffix_nil.mp ((hf b []).suffix hc))

section
variable {value value' : Reader β} {cs : List Char}

theorem LocalAt.of_error {fault : JsonFault} (h : value cs = .error fault) : LocalAt value cs := by
  constructor
  case suffix =>
    intro rest b hb
    rw [h] at hb
    cases hb
  case append =>
    intro rest more b hb _
    rw [h] at hb
    cases hb

/-- a reader that goes on like another one behind a first part of its text -/
theorem LocalAt.of_append (front : List Char) (h : LocalAt value' cs)
    (heq : ∀ more, value (front ++ (cs ++ more)) = value' (cs ++ more)) :
    LocalAt value (front ++ cs) := by
  have hnil : value (front ++ cs) = value' cs := by simpa using heq []
  constructor
  case suffix =>
    intro rest b hb
    exact (h.suffix (hnil ▸ hb)).trans (List.suffix_append _ _)
  case append =>
    intro rest more b hb hmore
    rw [List.append_assoc, heq]
    exact h.append (hnil ▸ hb) hmore

/-- behind the whole text only a rest that ends a number matters -/
theorem LocalAt.of_ends (h : LocalAt value' [])
    (heq : ∀ more, Ends more → value more = value' more) : LocalAt value [] := by
  constructor
  case suffix =>
    intro rest b hb
    rw [heq [] ends_nil] at hb
    exact h.suffix hb
  case append =>
    intro rest more b hb hmore
    rw [heq [] ends_nil] at hb
    have hrest := List.suffix_nil.mp (h.suffix hb)
    rw [List.nil_append, heq more (hmore hrest)]
    exact h.append hb hmore

/-- what can be read alone can be read in front of a rest -/
theorem Local.reads (h : Local value) {b : β}
    (hall : value.readAll (String.ofList cs) = .ok b) : Reads value cs b := by
  intro rest hrest
  obtain ⟨blanks, hblanks, hvalue⟩ := readAll_eq_ok.mp hall
  rw [String.toList_ofList] at hvalue
  exact ⟨blanks, hblanks, (h cs).append hvalue fun _ => hrest⟩

end

end LeastSquares.Json
