import LeastSquares.Json.Fields
import LeastSquares.Proofs.Json.Reading

/-!
# Reading numbers

Every part of a number ends at the first character that cannot go on with it, so a number is read
the same in front of any text that it does not go on in (`local_anyNumber`).  A natural number below
`2 ^ 64` is read back from its digits (`reads_natural`).
-/

namespace LeastSquares.Json

/-! ## the parts of a number -/

theorem Ends.of_cons {c : Char} {cs : List Char} (h : Ends (c :: cs)) :
    isDigit c = false ∧ c ≠ '.' ∧ isExponentMark c = false := by
  have hcontinues := h c rfl
  simpa [continues, and_assoc] using hcontinues

/-- digits end in front of the same character -/
theorem spanDigits_append {cs more : List Char} (h : cs.dropWhile isDigit = [] → Ends more) :
    spanDigits (cs ++ more) = (cs.takeWhile isDigit, cs.dropWhile isDigit ++ more) := by
  unfold spanDigits
  induction cs with
  | nil =>
    cases more with
    | nil => rfl
    | cons c more =>
      have hc : ¬ isDigit c = true := by simp [(h rfl).of_cons.1]
      rw [List.nil_append, List.takeWhile_cons_of_neg hc, List.dropWhile_cons_of_neg hc]
      rfl
  | cons c cs ih =>
    by_cases hc : isDigit c = true
    · rw [List.dropWhile_cons_of_pos hc] at h ⊢
      obtain ⟨htake, hdrop⟩ := Prod.mk.inj (ih h)
      rw [List.cons_append, List.takeWhile_cons_of_pos hc, List.takeWhile_cons_of_pos hc,
        List.dropWhile_cons_of_pos hc, htake, hdrop]
    · rw [List.cons_append, List.takeWhile_cons_of_neg hc, List.takeWhile_cons_of_neg hc,
        List.dropWhile_cons_of_neg hc, List.dropWhile_cons_of_neg hc]
      rfl

theorem digits_eq_ok {cs ds rest : List Char} : digits cs = .ok (ds, rest) ↔
    ds ≠ [] ∧ cs.takeWhile isDigit = ds ∧ cs.dropWhile isDigit = rest := by
  unfold digits spanDigits
  cases hds : cs.takeWhile isDigit with
  | nil =>
    refine ⟨nofun, ?_⟩
    rintro ⟨hne, rfl, -⟩
    exact absurd rfl hne
  | cons d ds' =>
    refine ⟨?_, ?_⟩
    · intro h
      cases h
      exact ⟨nofun, rfl, rfl⟩
    · rintro ⟨-, rfl, rfl⟩
      rfl

theorem local_digits : Local digits := by
  intro cs
  constructor
  case suffix =>
    intro rest ds h
    obtain ⟨-, -, rfl⟩ := digits_eq_ok.mp h
    exact List.dropWhile_suffix _
  case append =>
    intro rest more ds h hmore
    obtain ⟨hne, rfl, rfl⟩ := digits_eq_ok.mp h
    obtain ⟨htake, hdrop⟩ := Prod.mk.inj (spanDigits_append hmore)
    exact digits_eq_ok.mpr ⟨hne, htake, hdrop⟩

theorem local_wholeDigits : Local wholeDigits := by
  refine local_digits.bind ?_
  intro ds
  split
  · exact .throw _
  · exact .pure _

/-- the exponent behind a sign -/
def signedExponent (negative : Bool) : Reader Int :=
  digits >>= fun ds => pure (if negative then -(ofDigits ds : Int) else ofDigits ds)

theorem local_signedExponent (negative : Bool) : Local (signedExponent negative) :=
  local_digits.bind fun _ => .pure _

theorem exponentPart_eq (c : Char) (cs : List Char) : exponentPart (c :: cs) =
    if c = '+' then signedExponent false cs
    else if c = '-' then signedExponent true cs
    else signedExponent false (c :: cs) := by
  by_cases hplus : c = '+'
  · subst hplus
    rfl
  · by_cases hminus : c = '-'
    · subst hminus
      rfl
    · rw [if_neg hplus, if_neg hminus]
      unfold exponentPart
      split
      rename_i h
      split at h
      · rename_i heq
        exact absurd (List.cons.inj heq).1 hplus
      · rename_i heq
        exact absurd (List.cons.inj heq).1 hminus
      · cases h
        rfl

theorem local_exponentPart : Local exponentPart := by
  intro cs
  cases cs with
  | nil => exact .of_error rfl
  | cons c cs =>
    by_cases hplus : c = '+'
    · refine .of_append [c] (local_signedExponent false cs) ?_
      intro more
      exact (exponentPart_eq c _).trans (if_pos hplus)
    · by_cases hminus : c = '-'
      · refine .of_append [c] (local_signedExponent true cs) ?_
        intro more
        exact (exponentPart_eq c _).trans ((if_neg hplus).trans (if_pos hminus))
      · refine .of_append [] (local_signedExponent false (c :: cs)) ?_
        intro more
        exact (exponentPart_eq c _).trans ((if_neg hplus).trans (if_neg hminus))

/-- a number that ends here -/
def ended (result : Except JsonFault Number) : Reader Number := fun cs => do
  return (← result, cs)

theorem local_ended (result : Except JsonFault Number) : Local (ended result) := by
  cases result with
  | error fault => exact .throw fault
  | ok n => exact .pure n

/-! ## a number -/

section
variable (negative : Bool) (m : Mantissa)

/-- the exponent of a number, behind its mark -/
def markedExponent : Reader Number := exponentPart >>= fun e => ended (m.value negative e)

theorem local_markedExponent : Local (markedExponent negative m) :=
  local_exponentPart.bind fun e => local_ended (m.value negative e)

/-- a number goes on behind an exponent mark, and ends at any other character -/
theorem afterFraction_eq (c : Char) (cs : List Char) : afterFraction negative m (c :: cs) =
    if isExponentMark c then markedExponent negative m cs
    else ended (m.value negative 0) (c :: cs) := rfl

theorem afterFraction_of_ends {cs : List Char} (h : Ends cs) :
    afterFraction negative m cs = ended (m.value negative 0) cs := by
  cases cs with
  | nil => rfl
  | cons c cs =>
    rw [afterFraction_eq, if_neg (by simp [h.of_cons.2.2])]

theorem local_afterFraction : Local (afterFraction negative m) := by
  intro cs
  cases cs with
  | nil => exact .of_ends (local_ended _ []) fun more => afterFraction_of_ends negative m
  | cons c cs =>
    by_cases hmark : isExponentMark c = true
    · refine .of_append [c] (local_markedExponent negative m cs) ?_
      intro more
      exact (afterFraction_eq negative m c _).trans (if_pos hmark)
    · refine .of_append [] (local_ended (m.value negative 0) (c :: cs)) ?_
      intro more
      exact (afterFraction_eq negative m c _).trans (if_neg hmark)

/-- what follows the point -/
def fractionPart : Reader Number :=
  digits >>= fun ds =>
    afterFraction negative (ds.foldl (fun m c => m.pushFraction (digitValue c)) m.atPoint)

theorem local_fractionPart : Local (fractionPart negative m) :=
  local_digits.bind fun ds =>
    local_afterFraction negative (ds.foldl (fun m c => m.pushFraction (digitValue c)) m.atPoint)

/-- the rest of a number behind its whole digits -/
def behindWhole : Reader Number := fun cs =>
  match cs with
  | '.' :: more => fractionPart negative m more
  | c :: _ => if isExponentMark c then afterFraction negative m cs else ended (m.whole negative) cs
  | [] => ended (m.whole negative) cs

theorem behindWhole_eq (c : Char) (cs : List Char) : behindWhole negative m (c :: cs) =
    if c = '.' then fractionPart negative m cs
    else if isExponentMark c then afterFraction negative m (c :: cs)
    else ended (m.whole negative) (c :: cs) := by
  by_cases hpoint : c = '.'
  · subst hpoint
    rfl
  · rw [if_neg hpoint]
    unfold behindWhole
    split
    · rename_i heq
      exact absurd (List.cons.inj heq).1 hpoint
    · rename_i heq
      cases heq
      rfl
    · rename_i heq
      cases heq

theorem behindWhole_of_ends {cs : List Char} (h : Ends cs) :
    behindWhole negative m cs = ended (m.whole negative) cs := by
  cases cs with
  | nil => rfl
  | cons c cs =>
    obtain ⟨-, hpoint, hmark⟩ := h.of_cons
    rw [behindWhole_eq, if_neg hpoint, if_neg (by simp [hmark])]

theorem local_behindWhole : Local (behindWhole negative m) := by
  intro cs
  cases cs with
  | nil => exact .of_ends (local_ended _ []) fun more => behindWhole_of_ends negative m
  | cons c cs =>
    by_cases hpoint : c = '.'
    · refine .of_append [c] (local_fractionPart negative m cs) ?_
      intro more
      exact (behindWhole_eq negative m c _).trans (if_pos hpoint)
    · by_cases hmark : isExponentMark c = true
      · refine .of_append [] (local_afterFraction negative m (c :: cs)) ?_
        intro more
        exact (behindWhole_eq negative m c _).trans ((if_neg hpoint).trans (if_pos hmark))
      · refine .of_append [] (local_ended (m.whole negative) (c :: cs)) ?_
        intro more
        exact (behindWhole_eq negative m c _).trans ((if_neg hpoint).trans (if_neg hmark))

theorem number_eq : number negative = wholeDigits >>= fun ds =>
    behindWhole negative (ds.foldl (fun m c => m.pushWhole (digitValue c)) .zero) := by
  funext cs
  show (wholeDigits cs >>= _) = (wholeDigits cs >>= _)
  refine bind_congr fun p => ?_
  obtain ⟨ds, rest⟩ := p
  dsimp only
  split
  · rfl
  · rename_i hpoint
    rw [behindWhole_eq, if_neg hpoint]
    rfl
  · rfl

theorem local_number : Local (number negative) := by
  rw [number_eq]
  exact local_wholeDigits.bind fun ds => local_behindWhole negative _

end

/-! ## a value that is a number -/

theorem anyNumber_append {blanks : List Char} (h : Blank blanks) (cs : List Char) :
    anyNumber (blanks ++ cs) = anyNumber cs := by
  unfold anyNumber
  rw [dropBlanks_append h]

theorem anyNumber_eq {c : Char} (h : ¬ isBlank c = true) (cs : List Char) :
    anyNumber (c :: cs) =
      if c = '-' then number true cs
      else if isDigit c then number false (c :: cs)
      else .error (wrongKind (c :: cs)) := by
  unfold anyNumber
  rw [dropBlanks_other h]
  by_cases hminus : c = '-'
  · subst hminus
    rfl
  · have hnumber : number? (c :: cs) =
        if isDigit c then some (number false (c :: cs)) else none := by
      unfold number?
      split
      · rename_i heq
        exact absurd (List.cons.inj heq).1 hminus
      · rename_i heq
        cases heq
        rfl
      · rename_i heq
        cases heq
    rw [if_neg hminus]
    dsimp only
    rw [hnumber]
    cases isDigit c <;> rfl

theorem local_anyNumber : Local anyNumber := by
  intro cs
  obtain ⟨blanks, cs, rfl, hblanks, hother⟩ := exists_blanks cs
  suffices h : LocalAt anyNumber cs from
    .of_append blanks h fun more => anyNumber_append hblanks (cs ++ more)
  cases cs with
  | nil => exact .of_error rfl
  | cons c cs =>
    have heq := anyNumber_eq (hother c rfl)
    by_cases hminus : c = '-'
    · refine .of_append [c] (local_number true cs) ?_
      intro more
      exact (heq _).trans (if_pos hminus)
    · by_cases hdigit : isDigit c = true
      · refine .of_append [] (local_number false (c :: cs)) ?_
        intro more
        exact (heq _).trans ((if_neg hminus).trans (if_pos hdigit))
      · exact .of_error ((heq cs).trans ((if_neg hminus).trans (if_neg hdigit)))

theorem float_eq : float = anyNumber >>= fun n => pure n.toFloat := rfl

theorem local_float : Local float := float_eq ▸ local_anyNumber.bind fun n => .pure n.toFloat

theorem skipsBlanks_float : SkipsBlanks float := fun blanks cs h => by
  rw [float_eq]
  show (anyNumber (blanks ++ cs) >>= _) = (anyNumber cs >>= _)
  rw [anyNumber_append h]

theorem skipsBlanks_natural : SkipsBlanks natural := fun blanks cs h => by
  show (anyNumber (blanks ++ cs) >>= _) = (anyNumber cs >>= _)
  rw [anyNumber_append h]

/-- what a number that is not finite is written as is no number -/
theorem refuses_null : Refuses float ['n', 'u', 'l', 'l'] .mismatch := fun _ _ => rfl

theorem local_natural : Local natural := by
  refine local_anyNumber.bind ?_
  intro n
  cases n with
  | natural n => exact .pure n
  | real x => exact .throw _

/-! ## natural numbers -/

theorem isDigit_of_mem_toDigits {n : Nat} {c : Char} (h : c ∈ Nat.toDigits 10 n) :
    isDigit c = true := by
  have hdigit := Nat.isDigit_of_mem_toDigits (by decide) (by decide) h
  unfold Char.isDigit at hdigit
  simpa [isDigit, Char.le_def] using hdigit

theorem digitValue_digitChar {d : Nat} (h : d < 10) : digitValue d.digitChar = d := by
  unfold digitValue
  exact Nat.toNat_digitChar_sub_48_of_lt_ten h

/-- only zero starts with a zero -/
theorem head_toDigits_ne {n : Nat} (h : 0 < n) : ∀ c ∈ (Nat.toDigits 10 n).head?, c ≠ '0' := by
  induction n using Nat.strongRecOn with
  | ind n ih =>
    by_cases hsmall : n < 10
    · rw [Nat.toDigits_of_lt_base hsmall]
      rintro c hc rfl
      have hvalue : digitValue n.digitChar = digitValue '0' :=
        congrArg digitValue (Option.some.inj hc)
      rw [digitValue_digitChar hsmall] at hvalue
      exact absurd hvalue h.ne'
    · have hhead := ih (n / 10) (by omega) (by omega)
      obtain ⟨d, ds, hds⟩ :=
        List.exists_cons_of_ne_nil (Nat.toDigits_ne_nil (n := n / 10) (b := 10))
      rw [Nat.toDigits_of_base_le (by decide) (Nat.le_of_not_lt hsmall), hds]
      rw [hds] at hhead
      exact hhead

/-- the digits of a number fill a mantissa one by one, and all of them fit -/
theorem foldl_pushWhole {n : Nat} (h : n < significandBound) :
    (Nat.toDigits 10 n).foldl (fun m c => Mantissa.pushWhole m (digitValue c)) .zero =
      ⟨n, 0, false⟩ := by
  induction n using Nat.strongRecOn with
  | ind n ih =>
    have hpush (k d : Nat) (hd : d < 10) (hk : k * 10 + d < significandBound) :
        (⟨k, 0, false⟩ : Mantissa).pushWhole (digitValue d.digitChar) = ⟨k * 10 + d, 0, false⟩ := by
      rw [digitValue_digitChar hd]
      exact (if_neg Bool.false_ne_true).trans (if_pos hk)
    by_cases hsmall : n < 10
    · rw [Nat.toDigits_of_lt_base hsmall]
      have hfirst := hpush 0 n hsmall (by omega)
      rw [Nat.zero_mul, Nat.zero_add] at hfirst
      exact hfirst
    · rw [Nat.toDigits_of_base_le (by decide) (Nat.le_of_not_lt hsmall), List.foldl_append,
        ih (n / 10) (by omega) (by omega)]
      have hnext := hpush (n / 10) (n % 10) (by omega) (by omega)
      rw [show n / 10 * 10 + n % 10 = n by omega] at hnext
      exact hnext

theorem wholeDigits_toDigits (n : Nat) :
    wholeDigits (Nat.toDigits 10 n) = .ok (Nat.toDigits 10 n, []) := by
  have hall : ∀ c ∈ Nat.toDigits 10 n, isDigit c = true := fun c => isDigit_of_mem_toDigits
  have hdigits : digits (Nat.toDigits 10 n) = .ok (Nat.toDigits 10 n, []) :=
    digits_eq_ok.mpr ⟨Nat.toDigits_ne_nil, List.takeWhile_eq_self_iff.mpr hall,
      List.dropWhile_eq_nil_iff.mpr hall⟩
  refine (bind_of_ok hdigits).trans ?_
  show _ = (pure (Nat.toDigits 10 n) : Reader (List Char)) []
  refine congrFun ?_ []
  split
  · rename_i hzero
    rcases Nat.eq_zero_or_pos n with rfl | hpos
    · cases hzero
    · exact absurd rfl (head_toDigits_ne hpos '0' (by rw [hzero]; rfl))
  · rfl

theorem reads_natural {n : Nat} (h : n < significandBound) :
    Reads natural (Nat.toDigits 10 n) n := by
  have hnumber : number false (Nat.toDigits 10 n) = .ok (.natural n, []) := by
    rw [number_eq, bind_of_ok (wholeDigits_toDigits n), foldl_pushWhole h]
    rfl
  have hany : anyNumber (Nat.toDigits 10 n) = .ok (.natural n, []) := by
    cases hds : Nat.toDigits 10 n with
    | nil => exact absurd hds Nat.toDigits_ne_nil
    | cons c ds =>
      have hdigit : isDigit c = true :=
        isDigit_of_mem_toDigits (hds ▸ List.mem_cons_self)
      have hblank : ¬ isBlank c = true := by
        intro hblank
        have hends := not_continues_of_isBlank hblank
        simp [continues, hdigit] at hends
      have hminus : c ≠ '-' := by
        rintro rfl
        cases hdigit
      rw [anyNumber_eq hblank, if_neg hminus, if_pos hdigit, ← hds, hnumber]
  refine local_natural.reads (readAll_eq_ok.mpr ⟨[], blank_nil, ?_⟩)
  rw [String.toList_ofList]
  exact bind_of_ok hany

end LeastSquares.Json
