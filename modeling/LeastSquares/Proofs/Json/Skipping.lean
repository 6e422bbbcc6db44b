import LeastSquares.Json.Skip
import LeastSquares.Proofs.Json.Grammar

/-!
# Skipping well-formed values

The machine that passes over a value goes through every text that the grammar derives.  Each rule of
the grammar is one stretch of its way: from the place where a part starts to the place behind it,
with the same brackets open as before (`Part.Passed`).  A value may be nested to any depth, and no
number in it is too large.
-/

namespace LeastSquares.Json
namespace Skip
variable {stack : List Bracket} {cs rest : List Char} {c : Char}

/-! ## blanks -/

theorem run_blanks {s : Skip} (h : ∀ c rest, isBlank c = true →
    s.isDone c = false ∧ s.step c rest = .ok s) {blanks : List Char} (hb : Blank blanks)
    (rest : List Char) : s.run (blanks ++ rest) = s.run rest := by
  induction blanks with
  | nil => rfl
  | cons c blanks ih =>
    obtain ⟨hdone, hstep⟩ := h c (blanks ++ rest) (hb c List.mem_cons_self)
    rw [List.cons_append, run_of_step (by simp [hdone]) hstep,
      ih fun d hd => hb d (List.mem_cons_of_mem c hd)]

/-- the places between the tokens -/
def isBetween : Place → Bool
  | .value | .firstItem | .firstKey | .key | .colon | .after => true
  | .word _ | .number _ | .quote _ _ => false

/-- blanks may stand between any two tokens inside a bracket -/
theorem run_blanks_between {place : Place} (hplace : isBetween place = true) {bracket : Bracket}
    {blanks : List Char} (hb : Blank blanks) (rest : List Char) :
    run ⟨place, bracket :: stack⟩ (blanks ++ rest) = run ⟨place, bracket :: stack⟩ rest := by
  refine run_blanks ?_ hb rest
  intro c rest hc
  refine ⟨rfl, ?_⟩
  cases place with
  | value => simp [step, hc]
  | firstItem => simp [step, hc]
  | firstKey => simp [step, hc]
  | key => simp [step, hc]
  | colon => simp [step, hc]
  | after => simp [step, hc]
  | word _ => cases hplace
  | number _ => cases hplace
  | quote _ _ => cases hplace

/-! ## the start of a value -/

def startsValue : Place → Bool
  | .value | .firstItem => true
  | _ => false

theorem run_start {place : Place} (hplace : startsValue place = true) {blanks : List Char}
    (hb : Blank blanks) (rest : List Char) :
    run ⟨place, stack⟩ (blanks ++ rest) = run ⟨place, stack⟩ rest := by
  refine run_blanks ?_ hb rest
  intro c rest hc
  cases place with
  | value => simp [step, isDone, hc]
  | firstItem => simp [step, isDone, hc]
  | _ => cases hplace

theorem run_enter {place : Place} (hplace : startsValue place = true) (hc : isBlank c = false)
    (hclosing : c ≠ ']') {next : Skip} (h : enter stack c = .ok next) (rest : List Char) :
    run ⟨place, stack⟩ (c :: rest) = run next rest := by
  cases place with
  | value => exact run_of_step (by simp [isDone]) (by simp [step, hc, h])
  | firstItem => exact run_of_step (by simp [isDone]) (by simp [step, hc, hclosing, h])
  | _ => cases hplace

/-! ## words -/

theorem run_word {ws : List Char} (h : ws ≠ []) (rest : List Char) :
    run ⟨.word ws, stack⟩ (ws ++ rest) = run ⟨.after, stack⟩ rest := by
  induction ws with
  | nil => exact absurd rfl h
  | cons w ws ih =>
    have hstep : step ⟨.word (w :: ws), stack⟩ w (ws ++ rest) =
        .ok ⟨if ws.isEmpty then .after else .word ws, stack⟩ := by
      simp [step]
    rw [List.cons_append, run_of_step (by simp [isDone]) hstep]
    cases ws with
    | nil => rfl
    | cons w' ws => exact ih (List.cons_ne_nil _ _)

theorem run_words {place : Place} (hplace : startsValue place = true) {w : List Char}
    (h : w ∈ words) (rest : List Char) :
    run ⟨place, stack⟩ (w ++ rest) = run ⟨.after, stack⟩ rest := by
  simp only [words, List.mem_cons, List.not_mem_nil, or_false] at h
  rcases h with rfl | rfl | rfl
  · exact (run_enter hplace rfl (by decide) rfl _).trans (run_word (List.cons_ne_nil _ _) rest)
  · exact (run_enter hplace rfl (by decide) rfl _).trans (run_word (List.cons_ne_nil _ _) rest)
  · exact (run_enter hplace rfl (by decide) rfl _).trans (run_word (List.cons_ne_nil _ _) rest)

/-! ## numbers -/

section
variable {place next : NumberPlace}

theorem run_number (h : place.next? c = some next) (rest : List Char) :
    run ⟨.number place, stack⟩ (c :: rest) = run ⟨.number next, stack⟩ rest := by
  refine run_of_step ?_ ?_
  · simp [isDone, h]
  · simp [step, h]

/-- characters that do not lead to another place -/
theorem run_stay (h : ∀ c ∈ cs, place.next? c = some place) (rest : List Char) :
    run ⟨.number place, stack⟩ (cs ++ rest) = run ⟨.number place, stack⟩ rest := by
  induction cs with
  | nil => rfl
  | cons c cs ih =>
    rw [List.cons_append, run_number (h c List.mem_cons_self),
      ih fun d hd => h d (List.mem_cons_of_mem c hd)]

/-- digits lead to a place that further digits do not leave -/
theorem run_digits (h : Digits cs) (hfirst : ∀ c, isDigit c = true → place.next? c = some next)
    (hnext : ∀ c, isDigit c = true → next.next? c = some next) (rest : List Char) :
    run ⟨.number place, stack⟩ (cs ++ rest) = run ⟨.number next, stack⟩ rest := by
  obtain ⟨hne, hdigits⟩ := h
  cases cs with
  | nil => exact absurd rfl hne
  | cons c cs =>
    rw [List.cons_append, run_number (hfirst c (hdigits c List.mem_cons_self)),
      run_stay fun d hd => hnext d (hdigits d (List.mem_cons_of_mem c hd))]

/-- in front of a text that it does not go on in, a complete number is a value that has ended -/
theorem run_complete (hcomplete : place.isComplete = true) (h : Ends rest) :
    run ⟨.number place, stack⟩ rest = run ⟨.after, stack⟩ rest := by
  cases rest with
  | nil => simp [run, atEnd, hcomplete]
  | cons c rest =>
    have hnext : place.next? c = none := by
      have hc := h c rfl
      cases place <;> simp_all [continues, NumberPlace.isComplete, NumberPlace.next?]
    -- the number cannot take `c`, so the machine does what it would do behind any value
    have hdone : isDone ⟨.number place, stack⟩ c = isDone ⟨.after, stack⟩ c := by
      simp [isDone, hcomplete, hnext]
    have hstep : step ⟨.number place, stack⟩ c rest = step ⟨.after, stack⟩ c rest := by
      simp [step, hcomplete, hnext]
    rw [run, run, hdone, hstep]

end

theorem next?_digit {place : NumberPlace} (hplace : place = .point ∨ place = .fraction)
    (hc : isDigit c = true) : place.next? c = some .fraction := by
  rcases hplace with rfl | rfl
  · simp [NumberPlace.next?, hc]
  · simp [NumberPlace.next?, hc]

theorem next?_exponent {place : NumberPlace}
    (hplace : place = .mark ∨ place = .exponentSign ∨ place = .exponent) (hc : isDigit c = true) :
    place.next? c = some .exponent := by
  have hsign : c ≠ '+' ∧ c ≠ '-' := by
    constructor
    · rintro rfl
      cases hc
    · rintro rfl
      cases hc
  rcases hplace with rfl | rfl | rfl
  · simp [NumberPlace.next?, hc, hsign]
  · simp [NumberPlace.next?, hc]
  · simp [NumberPlace.next?, hc]

theorem next?_mark {place : NumberPlace}
    (hplace : place = .zero ∨ place = .whole ∨ place = .fraction) (hc : isExponentMark c = true) :
    place.next? c = some .mark := by
  have hmark : c = 'e' ∨ c = 'E' := by simpa [isExponentMark] using hc
  rcases hplace with rfl | rfl | rfl
  · rcases hmark with rfl | rfl <;> rfl
  · rcases hmark with rfl | rfl <;> rfl
  · rcases hmark with rfl | rfl <;> rfl

theorem run_exponent {place : NumberPlace}
    (hplace : place = .zero ∨ place = .whole ∨ place = .fraction) (h : Exponent cs)
    (hrest : Ends rest) :
    run ⟨.number place, stack⟩ (cs ++ rest) = run ⟨.after, stack⟩ rest := by
  cases h with
  | absent =>
    have hcomplete : place.isComplete = true := by rcases hplace with rfl | rfl | rfl <;> rfl
    exact run_complete hcomplete hrest
  | @present mark sign ds hmark hsign digits =>
    have hdigits {place : NumberPlace}
        (hfirst : ∀ c, isDigit c = true → place.next? c = some .exponent) :
        run ⟨.number place, stack⟩ (ds ++ rest) = run ⟨.after, stack⟩ rest := by
      rw [run_digits digits hfirst fun c hc => next?_exponent (.inr (.inr rfl)) hc]
      exact run_complete rfl hrest
    rw [List.cons_append, run_number (next?_mark hplace hmark), List.append_assoc]
    simp only [List.mem_cons, List.not_mem_nil, or_false] at hsign
    rcases hsign with rfl | rfl | rfl
    · exact hdigits fun c hc => next?_exponent (.inl rfl) hc
    · exact (run_number rfl _).trans (hdigits fun c hc => next?_exponent (.inr (.inl rfl)) hc)
    · exact (run_number rfl _).trans (hdigits fun c hc => next?_exponent (.inr (.inl rfl)) hc)

theorem run_fraction {place : NumberPlace} (hplace : place = .zero ∨ place = .whole)
    {exponent : List Char} (h : Fraction cs) (hexponent : Exponent exponent) (hrest : Ends rest) :
    run ⟨.number place, stack⟩ (cs ++ (exponent ++ rest)) = run ⟨.after, stack⟩ rest := by
  cases h with
  | absent => exact run_exponent (hplace.imp_right .inl) hexponent hrest
  | @present ds digits =>
    have hpoint : place.next? '.' = some .point := by rcases hplace with rfl | rfl <;> rfl
    rw [List.cons_append, run_number hpoint, run_digits digits
      (fun c hc => next?_digit (.inl rfl) hc) fun c hc => next?_digit (.inr rfl) hc]
    exact run_exponent (.inr (.inr rfl)) hexponent hrest

/-- a number behind its sign, or without one -/
theorem run_unsigned {ds fraction exponent : List Char} (h : Whole ds)
    (hfraction : Fraction fraction) (hexponent : Exponent exponent) (hrest : Ends rest) :
    run ⟨.number .sign, stack⟩ (ds ++ (fraction ++ (exponent ++ rest))) =
      run ⟨.after, stack⟩ rest := by
  obtain ⟨⟨hne, hdigits⟩, hzero⟩ := h
  cases ds with
  | nil => exact absurd rfl hne
  | cons c ds =>
    by_cases hc : c = '0'
    · subst hc
      obtain rfl : ds = [] := by simpa using hzero rfl
      exact (run_number rfl _).trans (run_fraction (.inl rfl) hfraction hexponent hrest)
    · have hfirst : NumberPlace.sign.next? c = some .whole := by
        simp [NumberPlace.next?, hc, hdigits c List.mem_cons_self]
      have hstay : ∀ d ∈ ds, NumberPlace.whole.next? d = some .whole := by
        intro d hd
        simp [NumberPlace.next?, hdigits d (List.mem_cons_of_mem c hd)]
      rw [List.cons_append, run_number hfirst, run_stay hstay]
      exact run_fraction (.inr rfl) hfraction hexponent hrest

/-- without a sign a number starts as it would behind one -/
theorem enter_digit (stack : List Bracket) (hc : isDigit c = true) : ∃ next,
    enter stack c = .ok ⟨.number next, stack⟩ ∧ NumberPlace.sign.next? c = some next := by
  by_cases hzero : c = '0'
  · subst hzero
    exact ⟨.zero, rfl, rfl⟩
  · refine ⟨.whole, ?_, by simp [NumberPlace.next?, hzero, hc]⟩
    unfold enter
    -- no character that starts another kind of value is a digit
    split
    all_goals first | rw [if_pos hc] | exact absurd rfl hzero | cases hc

theorem run_numeral {place : Place} (hplace : startsValue place = true) (h : Numeral cs)
    (hrest : Ends rest) :
    run ⟨place, stack⟩ (cs ++ rest) = run ⟨.after, stack⟩ rest := by
  obtain ⟨hsign, whole, hfraction, hexponent⟩ := h
  rename_i sign ds fraction exponent
  have hunsigned : run ⟨.number .sign, stack⟩ (ds ++ (fraction ++ (exponent ++ rest))) =
      run ⟨.after, stack⟩ rest := run_unsigned whole hfraction hexponent hrest
  simp only [List.append_assoc]
  simp only [List.mem_cons, List.not_mem_nil, or_false] at hsign
  rcases hsign with rfl | rfl
  · cases hds : ds with
    | nil => exact absurd hds whole.1.1
    | cons c ds' =>
      have hdigit : isDigit c = true := whole.1.2 c (hds ▸ List.mem_cons_self)
      have hother : continues c = true := by simp [continues, hdigit]
      have hblank : isBlank c = false := by
        by_contra hblank
        rw [not_continues_of_isBlank (by simpa using hblank)] at hother
        cases hother
      have hclosing : c ≠ ']' := by
        rintro rfl
        cases hdigit
      obtain ⟨next, henter, hnext⟩ := enter_digit stack hdigit
      rw [hds, List.cons_append, run_number hnext] at hunsigned
      exact (run_enter hplace hblank hclosing henter _).trans hunsigned
  · exact (run_enter hplace rfl (by decide) rfl _).trans hunsigned

/-! ## quoted texts -/

section
variable {isKey : Bool}

theorem run_quote {place : QuotePlace} {next : Skip}
    (h : quoteStep isKey place stack c rest = .ok next) :
    run ⟨.quote isKey place, stack⟩ (c :: rest) = run next rest :=
  run_of_step (by simp [isDone]) h

theorem run_hex {missing : Nat} (hc : (hexDigit? c).isSome = true) (rest : List Char) :
    run ⟨.quote isKey (.hex missing), stack⟩ (c :: rest) =
      run ⟨.quote isKey (if missing ≤ 1 then .plain else .hex (missing - 1)), stack⟩ rest :=
  run_quote (if_pos hc)

theorem utf8Size_hexDigit {n : Nat} (hc : hexDigit? c = some n) : c.utf8Size = 1 := by
  rw [Char.utf8Size_eq_one_iff]
  unfold hexDigit? at hc
  simp only [Char.le_def, UInt32.le_iff_toNat_le] at hc ⊢
  split at hc
  · rename_i h
    exact h.2.trans (by decide)
  · split at hc
    · rename_i h
      exact h.2.trans (by decide)
    · split at hc
      · rename_i h
        exact h.2.trans (by decide)
      · cases hc

/-- four digits are four bytes, so they are not cut off -/
theorem run_code {q : List Char} {n : Nat} (hq : Quad q n) (rest : List Char) :
    run ⟨.quote isKey .escape, stack⟩ ('u' :: (q ++ rest)) =
      run ⟨.quote isKey .plain, stack⟩ rest := by
  obtain ⟨ha, hb, hc, hd⟩ := hq
  rename_i a b c d i j k l
  have hbytes : byteLength (([a, b, c, d] ++ rest).take 4) = 4 := by
    simp [byteLength, utf8Size_hexDigit ha, utf8Size_hexDigit hb, utf8Size_hexDigit hc,
      utf8Size_hexDigit hd]
  have hcode : quoteStep isKey .escape stack 'u' ([a, b, c, d] ++ rest) =
      .ok ⟨.quote isKey (.hex 4), stack⟩ := by
    simp only [quoteStep, hbytes]
    rfl
  refine (run_quote hcode).trans ?_
  exact (run_hex (Option.isSome_of_eq_some ha) _).trans
    ((run_hex (Option.isSome_of_eq_some hb) _).trans
      ((run_hex (Option.isSome_of_eq_some hc) _).trans
        (run_hex (Option.isSome_of_eq_some hd) _)))

theorem run_escaped (h : Escaped cs) (rest : List Char) :
    run ⟨.quote isKey .plain, stack⟩ (cs ++ '"' :: rest) =
      run ⟨if isKey then .colon else .after, stack⟩ rest := by
  induction h with
  | nil => exact run_quote rfl
  | @plain c cs hc _ ih =>
    obtain ⟨⟨hquote, hescape⟩, hcontrol⟩ := isPlain_iff.mp hc
    refine (run_quote ?_).trans ih
    simp [quoteStep, hquote, hescape, hcontrol]
  | @simple c d cs hc _ ih =>
    have hu : c ≠ 'u' := by
      rintro rfl
      cases hc
    have hescape : quoteStep isKey .escape stack c (cs ++ '"' :: rest) =
        .ok ⟨.quote isKey .plain, stack⟩ := by
      simp [quoteStep, hu, hc]
    exact (run_quote rfl).trans ((run_quote hescape).trans ih)
  | @code q cs n hq _ ih =>
    rw [List.cons_append, List.cons_append, List.append_assoc]
    exact (run_quote rfl).trans ((run_code hq _).trans ih)

end

end Skip

/-! ## the parts of a text -/

open Skip

theorem ends_of_itemsRest {cs : List Char} (h : Derives (.items false) cs) (rest : List Char) :
    Ends (cs ++ rest) := by
  cases h with
  | @itemsEnd first blanks h =>
    rw [List.append_assoc]
    exact (ends_cons (by decide) _).append h
  | @item first e cs h hrest => exact ends_cons (by decide) _

theorem ends_of_membersRest {cs : List Char} (h : Derives (.members false) cs) (rest : List Char) :
    Ends (cs ++ rest) := by
  cases h with
  | @membersEnd first blanks h =>
    rw [List.append_assoc]
    exact (ends_cons (by decide) _).append h
  | member _ _ _ _ _ => exact ends_cons (by decide) _

/-- the machine gets from the place where the part starts to the place behind it -/
def Part.Passed : Part → List Char → Prop
  | .value, cs => ∀ place stack rest, startsValue place = true → Ends rest →
      run ⟨place, stack⟩ (cs ++ rest) = run ⟨.after, stack⟩ rest
  | .element, cs => ∀ place bracket stack rest, startsValue place = true → Ends rest →
      run ⟨place, bracket :: stack⟩ (cs ++ rest) = run ⟨.after, bracket :: stack⟩ rest
  | .items first, cs => ∀ stack rest,
      run ⟨if first then .firstItem else .after, .array :: stack⟩ (cs ++ rest) =
        run ⟨.after, stack⟩ rest
  | .members first, cs => ∀ stack rest,
      run ⟨if first then .firstKey else .after, .object :: stack⟩ (cs ++ rest) =
        run ⟨.after, stack⟩ rest

section
variable {stack : List Bracket} {cs rest : List Char}

theorem passed_itemsEnd (first : Bool) {blanks : List Char} (h : Blank blanks) :
    (Part.items first).Passed (blanks ++ [']']) := by
  intro stack rest
  rw [List.append_assoc]
  cases first with
  | true => exact (run_blanks_between rfl h _).trans (run_of_step nofun rfl)
  | false => exact (run_blanks_between rfl h _).trans (run_of_step nofun rfl)

theorem passed_item (first : Bool) {e cs : List Char} (he : Part.element.Passed e)
    (hends : ∀ rest, Ends (cs ++ rest)) (hrest : (Part.items false).Passed cs) :
    (Part.items first).Passed (separated first e ++ cs) := by
  intro stack rest
  have hitem (place : Place) (hplace : startsValue place = true) :
      run ⟨place, .array :: stack⟩ (e ++ (cs ++ rest)) = run ⟨.after, stack⟩ rest :=
    (he place .array stack _ hplace (hends rest)).trans (hrest stack rest)
  rw [List.append_assoc]
  cases first with
  | true => exact hitem .firstItem rfl
  | false =>
    show run ⟨.after, .array :: stack⟩ (',' :: (e ++ (cs ++ rest))) = _
    exact Eq.trans (run_of_step nofun rfl) (hitem .value rfl)

theorem passed_membersEnd (first : Bool) {blanks : List Char} (h : Blank blanks) :
    (Part.members first).Passed (blanks ++ ['}']) := by
  intro stack rest
  rw [List.append_assoc]
  cases first with
  | true => exact (run_blanks_between rfl h _).trans (run_of_step nofun rfl)
  | false => exact (run_blanks_between rfl h _).trans (run_of_step nofun rfl)

theorem passed_member (first : Bool) {lead key gap e cs : List Char} (hlead : Blank lead)
    (hkey : Escaped key) (hgap : Blank gap) (he : Part.element.Passed e)
    (hends : ∀ rest, Ends (cs ++ rest)) (hrest : (Part.members false).Passed cs) :
    (Part.members first).Passed (separated first (memberText lead key gap e) ++ cs) := by
  intro stack rest
  have hcolon : run ⟨.colon, .object :: stack⟩ (gap ++ ':' :: (e ++ (cs ++ rest))) =
      run ⟨.after, stack⟩ rest :=
    calc run ⟨.colon, .object :: stack⟩ (gap ++ ':' :: (e ++ (cs ++ rest)))
      _ = run ⟨.colon, .object :: stack⟩ (':' :: (e ++ (cs ++ rest))) :=
        run_blanks_between rfl hgap _
      _ = run ⟨.value, .object :: stack⟩ (e ++ (cs ++ rest)) := run_of_step nofun rfl
      _ = run ⟨.after, .object :: stack⟩ (cs ++ rest) := he _ _ _ _ rfl (hends rest)
      _ = run ⟨.after, stack⟩ rest := hrest stack rest
  have hmember {place : Place} (hplace : place = .firstKey ∨ place = .key) :
      run ⟨place, .object :: stack⟩ (memberText lead key gap (e ++ (cs ++ rest))) =
        run ⟨.after, stack⟩ rest := by
    have hquote (more : List Char) : run ⟨place, .object :: stack⟩ (lead ++ '"' :: more) =
        run ⟨.quote true .plain, .object :: stack⟩ more := by
      rcases hplace with rfl | rfl
      · exact (run_blanks_between rfl hlead _).trans (run_of_step nofun rfl)
      · exact (run_blanks_between rfl hlead _).trans (run_of_step nofun rfl)
    exact (hquote _).trans ((run_escaped hkey _).trans hcolon)
  have htext : memberText lead key gap e ++ (cs ++ rest) =
      memberText lead key gap (e ++ (cs ++ rest)) := by
    simp [memberText]
  rw [List.append_assoc]
  cases first with
  | true =>
    show run ⟨.firstKey, .object :: stack⟩ (memberText lead key gap e ++ (cs ++ rest)) = _
    rw [htext]
    exact hmember (.inl rfl)
  | false =>
    show run ⟨.after, .object :: stack⟩ (',' :: (memberText lead key gap e ++ (cs ++ rest))) = _
    rw [htext]
    exact Eq.trans (run_of_step nofun rfl) (hmember (.inr rfl))

/-- **The machine passes over everything that the grammar derives**, by induction on the
derivation. -/
theorem Derives.passed {part : Part} (h : Derives part cs) : part.Passed cs := by
  induction h with
  | word h => exact fun place stack rest hplace _ => run_words hplace h rest
  | numeral h => exact fun place stack rest hplace hrest => run_numeral hplace h hrest
  | @quoted cs h =>
    intro place stack rest hplace _
    rw [List.cons_append, List.append_assoc]
    exact (run_enter hplace rfl (by decide) rfl _).trans (run_escaped h rest)
  | array _ ih =>
    exact fun place stack rest hplace _ =>
      (run_enter hplace rfl (by decide) rfl _).trans (ih stack rest)
  | object _ ih =>
    exact fun place stack rest hplace _ =>
      (run_enter hplace rfl (by decide) rfl _).trans (ih stack rest)
  | @element lead v trail hlead _ htrail ih =>
    intro place bracket stack rest hplace hrest
    rw [List.append_assoc, List.append_assoc, run_start hplace hlead,
      ih place _ _ hplace (hrest.append htrail), run_blanks_between rfl htrail]
  | itemsEnd h => exact passed_itemsEnd _ h
  | item _ hrest ih ihrest => exact passed_item _ ih (ends_of_itemsRest hrest) ihrest
  | membersEnd h => exact passed_membersEnd _ h
  | member hlead hkey hgap _ hrest ih ihrest =>
    exact passed_member _ hlead hkey hgap ih (ends_of_membersRest hrest) ihrest

/-- outside all brackets the machine stops right behind the value -/
theorem reads_skipValue {e : List Char} (h : Derives .element e) : Reads skipValue e () := by
  cases h with
  | @element lead v trail hlead h htrail =>
    intro rest hrest
    refine ⟨trail, htrail, ?_⟩
    have hrun : Skip.start.run (lead ++ (v ++ trail) ++ rest) = .ok (trail ++ rest) := by
      rw [List.append_assoc, List.append_assoc, Skip.start, run_start rfl hlead,
        h.passed _ _ _ rfl (hrest.append htrail)]
      cases trail ++ rest with
      | nil => rfl
      | cons c rest => exact run_of_isDone rfl rest
    unfold skipValue
    rw [hrun]
    rfl

end

end LeastSquares.Json
