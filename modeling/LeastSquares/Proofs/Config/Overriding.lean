import Mathlib.Data.List.Forall2
import Mathlib.Data.List.Nodup
import LeastSquares.Config.Storage
import LeastSquares.Failure.Message
import LeastSquares.Proofs.Json.Number
import LeastSquares.Proofs.Json.Object
import LeastSquares.Proofs.Json.Skipping

/-!
# Documents that name some options

Every member of a document makes a `Setting`: it gives one of the options a value, or it has a key
that no option has, and then its value may be anything.  Reading the members one after the other
fills the partial options with what the settings so far say (`fills_of_settings`), until an option
is named again.  The order of the members leaves no trace, nor do members without an option, and
the options are validated only once everything has been read (`ofJson_document`).
-/

namespace LeastSquares.Config
open Json

/-! ## settings -/

/-- what one member of a document says -/
inductive Setting where
  | maxIterations (n : Nat)
  | tolerance (x : Float)
  | initialDamping (x : Float)
  | differenceStep (x : Float)
  /-- nothing about an option -/
  | other

namespace Setting

/-- the key of the option -/
@[simp] def key? : Setting → Option String
  | maxIterations _ => some "max_iterations"
  | tolerance _ => some "tolerance"
  | initialDamping _ => some "initial_lambda"
  | differenceStep _ => some "epsilon"
  | other => none

def isOption (s : Setting) : Bool := s.key?.isSome

@[simp] def maxIterations? : Setting → Option Nat
  | maxIterations n => some n
  | _ => none

@[simp] def tolerance? : Setting → Option Float
  | tolerance x => some x
  | _ => none

@[simp] def initialDamping? : Setting → Option Float
  | initialDamping x => some x
  | _ => none

@[simp] def differenceStep? : Setting → Option Float
  | differenceStep x => some x
  | _ => none

/-- the text is a value for the option -/
def Decodes : Setting → List Char → Prop
  | maxIterations n, v => natural.readAll (String.ofList v) = .ok n
  | tolerance x, v => float.readAll (String.ofList v) = .ok x
  | initialDamping x, v => float.readAll (String.ofList v) = .ok x
  | differenceStep x, v => float.readAll (String.ofList v) = .ok x
  | other, _ => False

end Setting

def optionKeys : List String := ["max_iterations", "tolerance", "initial_lambda", "epsilon"]

/-- the setting that a member makes, given its key as it is written and the text behind its colon -/
inductive Makes : List Char × List Char → Setting → Prop where
  | option {key v : List Char} {name : String} {s : Setting} (spells : Spells key name.toList)
      (hname : s.key? = some name) (decodes : s.Decodes v) : Makes (key, v) s
  | other {key v : List Char} {name : String} (spells : Spells key name.toList)
      (hname : name ∉ optionKeys) (value : Derives .element v) : Makes (key, v) .other

/-- an object whose members make these settings, between blanks -/
inductive Document : List Setting → String → Prop where
  | intro {settings : List Setting} {text : String} {ms : List (List Char × List Char)}
      {lead cs trail : List Char} (htext : text.toList = lead ++ '{' :: (cs ++ trail))
      (hlead : Blank lead) (hmembers : MembersText true ms cs)
      (hsettings : List.Forall₂ Makes ms settings) (htrail : Blank trail) :
      Document settings text

/-- no option is named twice -/
def NamedOnce (settings : List Setting) : Prop := (settings.filterMap Setting.key?).Nodup

instance (settings : List Setting) : Decidable (NamedOnce settings) :=
  inferInstanceAs (Decidable (List.Nodup _))

/-- the options with the values that the settings give them, and the defaults of all others -/
def overriding (settings : List Setting) : Config Float where
  maxIterations := (settings.findSome? Setting.maxIterations?).getD Config.default.maxIterations
  tolerance := (settings.findSome? Setting.tolerance?).getD Config.default.tolerance
  initialDamping := (settings.findSome? Setting.initialDamping?).getD Config.default.initialDamping
  differenceStep := (settings.findSome? Setting.differenceStep?).getD Config.default.differenceStep

/-! ## one setting after the others -/

/-- what has been read once these settings have been made -/
def Partial.of (settings : List Setting) : Partial where
  maxIterations := settings.findSome? Setting.maxIterations?
  tolerance := settings.findSome? Setting.tolerance?
  initialDamping := settings.findSome? Setting.initialDamping?
  differenceStep := settings.findSome? Setting.differenceStep?

theorem complete_of (settings : List Setting) :
    (Partial.of settings).complete = overriding settings := rfl

/-- `select` takes the value of the option with the key `name` -/
def Selects {β : Type} (select : Setting → Option β) (name : String) : Prop :=
  ∀ s, (select s).isSome = true ↔ s.key? = some name

theorem selects_maxIterations : Selects Setting.maxIterations? "max_iterations" := by
  intro s
  cases s <;> simp

theorem selects_tolerance : Selects Setting.tolerance? "tolerance" := by
  intro s
  cases s <;> simp

theorem selects_initialDamping : Selects Setting.initialDamping? "initial_lambda" := by
  intro s
  cases s <;> simp

theorem selects_differenceStep : Selects Setting.differenceStep? "epsilon" := by
  intro s
  cases s <;> simp

section
variable {β : Type} {select : Setting → Option β} {name : String} {done : List Setting}

/-- an option has been read if its key has occurred -/
theorem isSome_findSome? (h : Selects select name) (done : List Setting) :
    (done.findSome? select).isSome = decide (name ∈ done.filterMap Setting.key?) := by
  rw [Bool.eq_iff_iff]
  simp [h _]

theorem findSome?_of_fresh (h : Selects select name)
    (hfresh : name ∉ done.filterMap Setting.key?) : done.findSome? select = none := by
  rw [← Option.isNone_iff_eq_none, ← Option.not_isSome, isSome_findSome? h done]
  simp only [hfresh, decide_false, Bool.not_false]

/-- the value of an option is read and kept with those read before -/
theorem reads_of_fresh {value : Reader β} {put : β → Partial} {b : β} {s : Setting}
    {v : List Char} (h : Selects select name) (hlocal : Local value)
    (hfresh : name ∉ done.filterMap Setting.key?)
    (hput : done.findSome? select = none → Partial.of (done ++ [s]) = put b)
    (hv : value.readAll (String.ofList v) = .ok b) :
    Reads (value >>= fun b => pure (put b)) v (.of (done ++ [s])) := by
  rw [hput (findSome?_of_fresh h hfresh)]
  exact (hlocal.reads hv).map put

end

theorem of_append_other (done : List Setting) :
    Partial.of (done ++ [.other]) = Partial.of done := by
  simp [Partial.of]

/-- every option has a field, which is read if the key of the option has occurred -/
theorem exists_field {s : Setting} {name : String} (hname : s.key? = some name) :
    ∃ field, fields.find? (fun f => f.name = name) = some field ∧ ∀ done,
      field.isRead (.of done) = decide (name ∈ done.filterMap Setting.key?) ∧
      ∀ v, s.Decodes v → name ∉ done.filterMap Setting.key? →
        Reads (field.read (.of done)) v (.of (done ++ [s])) := by
  cases s with
  | maxIterations n =>
    cases hname
    refine ⟨_, rfl, fun done => ⟨isSome_findSome? selects_maxIterations done, ?_⟩⟩
    intro v hv hfresh
    exact reads_of_fresh selects_maxIterations local_natural hfresh
      (fun hnone => by simp [Partial.of, hnone]) hv
  | tolerance x =>
    cases hname
    refine ⟨_, rfl, fun done => ⟨isSome_findSome? selects_tolerance done, ?_⟩⟩
    intro v hv hfresh
    exact reads_of_fresh selects_tolerance local_float hfresh
      (fun hnone => by simp [Partial.of, hnone]) hv
  | initialDamping x =>
    cases hname
    refine ⟨_, rfl, fun done => ⟨isSome_findSome? selects_initialDamping done, ?_⟩⟩
    intro v hv hfresh
    exact reads_of_fresh selects_initialDamping local_float hfresh
      (fun hnone => by simp [Partial.of, hnone]) hv
  | differenceStep x =>
    cases hname
    refine ⟨_, rfl, fun done => ⟨isSome_findSome? selects_differenceStep done, ?_⟩⟩
    intro v hv hfresh
    exact reads_of_fresh selects_differenceStep local_float hfresh
      (fun hnone => by simp [Partial.of, hnone]) hv
  | other => cases hname

/-! ## all settings -/

/-- what has been read when all settings have been made, if that is possible -/
def filled (settings : List Setting) : Except JsonFault Partial :=
  if NamedOnce settings then .ok (.of settings) else .error .mismatch

section
variable {settings done : List Setting} {s : Setting} {name : String}

theorem NamedOnce.append_other (h : NamedOnce done) : NamedOnce (done ++ [.other]) := by
  have hkeys : (done ++ [Setting.other]).filterMap Setting.key? = done.filterMap Setting.key? := by
    rw [List.filterMap_append, List.filterMap_cons_none rfl, List.filterMap_nil, List.append_nil]
  unfold NamedOnce
  rw [hkeys]
  exact h

theorem namedOnce_append (hname : s.key? = some name) :
    NamedOnce (done ++ [s]) ↔ NamedOnce done ∧ name ∉ done.filterMap Setting.key? := by
  have hkeys : (done ++ [s]).filterMap Setting.key? =
      (done.filterMap Setting.key?).concat name := by
    rw [List.filterMap_append, List.filterMap_cons_some hname, List.filterMap_nil,
      List.concat_eq_append]
  unfold NamedOnce
  rw [hkeys, List.nodup_concat]
  exact and_comm

theorem NamedOnce.of_append (h : NamedOnce (done ++ settings)) : NamedOnce done := by
  unfold NamedOnce at h
  rw [List.filterMap_append] at h
  exact List.Nodup.of_append_left h

theorem find?_of_unknown (h : name ∉ optionKeys) :
    fields.find? (fun f => f.name = name) = none := by
  rw [List.find?_eq_none]
  intro field hfield hname
  have hkey : field.name ∈ optionKeys := List.mem_map_of_mem hfield
  rw [of_decide_eq_true hname] at hkey
  exact h hkey

/-- a member whose option has been named before is not read; all others are, one by one -/
theorem fills_of_settings {ms : List (List Char × List Char)}
    (h : List.Forall₂ Makes ms settings) (hdone : NamedOnce done) :
    Fills fields (.of done) ms (filled (done ++ settings)) := by
  induction h generalizing done with
  | nil =>
    rw [List.append_nil, filled, if_pos hdone]
    exact .done
  | @cons m s ms settings hmakes _ ih =>
    rw [List.append_cons]
    cases hmakes with
    | other spells hname value =>
      have hrest := ih hdone.append_other
      rw [of_append_other] at hrest
      exact .member spells (reads_unknown (find?_of_unknown hname) (reads_skipValue value)) hrest
    | option spells hname decodes =>
      rename_i name
      obtain ⟨field, hfind, hfield⟩ := exists_field hname
      obtain ⟨hread, hreads⟩ := hfield done
      by_cases hmem : name ∈ done.filterMap Setting.key?
      -- the second key is refused, whatever is behind it
      · have htwice : ¬ NamedOnce (done ++ [s] ++ settings) := fun h =>
          ((namedOnce_append hname).mp h.of_append).2 hmem
        rw [filled, if_neg htwice]
        exact .fault spells (refuses_again hfind (by simp [hread, hmem]) _)
      · have honce : NamedOnce (done ++ [s]) := (namedOnce_append hname).mpr ⟨hdone, hmem⟩
        exact .member spells (reads_member hfind (by simp [hread, hmem]) (hreads _ decodes hmem))
          (ih honce)

theorem readAll_document {text : String} (h : Document settings text) :
    reader.readAll text = (filled settings).map Partial.complete := by
  obtain ⟨htext, hlead, hmembers, hsettings, htrail⟩ := h
  rename_i ms lead cs trail
  have hnone : NamedOnce [] := List.nodup_nil
  have hfills : Fills fields .none ms (filled settings) := fills_of_settings hsettings hnone
  have hreader : reader text.toList =
      (filled settings).bind fun part => .ok (part.complete, trail) := by
    rw [htext]
    exact (skipsBlanks_record _ _ lead _ hlead).trans
      (record_text hmembers hfills (fun part => some part.complete) trail)
  unfold Reader.readAll
  rw [hreader]
  cases filled settings with
  | error fault => rfl
  | ok part =>
    dsimp only [Except.bind, bind]
    rw [dropBlanks_eq_nil.mpr htrail]
    rfl

end

/-! ## members in another order, and other members -/

section
variable {settings settings' : List Setting}

/-- what does not look at members without an option -/
theorem filterMap_isOption {β : Type} {select : Setting → Option β}
    (h : ∀ s, (select s).isSome = true → s.isOption = true) (settings : List Setting) :
    (settings.filter Setting.isOption).filterMap select = settings.filterMap select := by
  rw [List.filterMap_filter]
  refine List.filterMap_congr fun s _ => ?_
  split
  · rfl
  · rename_i hs
    rw [eq_comm, ← Option.isNone_iff_eq_none, ← Option.not_isSome]
    simpa using fun hselect => hs (h s hselect)

theorem filterMap_perm {β : Type} {select : Setting → Option β}
    (h : ∀ s, (select s).isSome = true → s.isOption = true)
    (hperm : (settings'.filter Setting.isOption).Perm (settings.filter Setting.isOption)) :
    (settings'.filterMap select).Perm (settings.filterMap select) := by
  rw [← filterMap_isOption h settings', ← filterMap_isOption h settings]
  exact hperm.filterMap select

/-- of an option that is named once there is one value, and the order does not matter -/
theorem findSome?_of_perm {β : Type} {select : Setting → Option β} {name : String}
    (h : Selects select name) (honce : NamedOnce settings)
    (hperm : (settings'.filter Setting.isOption).Perm (settings.filter Setting.isOption)) :
    settings'.findSome? select = settings.findSome? select := by
  have hoption (s : Setting) (hs : (select s).isSome = true) : s.isOption = true := by
    unfold Setting.isOption
    rw [(h s).mp hs]
    rfl
  have hlength : (settings.filterMap select).length ≤ 1 :=
    calc (settings.filterMap select).length
      _ = (settings.filterMap Setting.key?).count name := by
        rw [List.length_filterMap_eq_countP, List.count_filterMap]
        exact List.countP_congr fun s _ => by rw [h s, beq_iff_eq]
      _ ≤ 1 := List.nodup_iff_count_le_one.mp honce name
  have hvalues := filterMap_perm hoption hperm
  rw [← List.head?_filterMap, ← List.head?_filterMap]
  cases hvalue : settings.filterMap select with
  | nil =>
    rw [hvalue] at hvalues
    rw [hvalues.eq_nil]
  | cons b bs =>
    rw [hvalue] at hvalues hlength
    obtain rfl : bs = [] := by simpa using hlength
    rw [List.perm_singleton.mp hvalues]

theorem filled_of_perm
    (hperm : (settings'.filter Setting.isOption).Perm (settings.filter Setting.isOption)) :
    filled settings' = filled settings := by
  have hkeys : (settings'.filterMap Setting.key?).Perm (settings.filterMap Setting.key?) :=
    filterMap_perm (fun _ h => h) hperm
  have honce : NamedOnce settings' ↔ NamedOnce settings := hkeys.nodup_iff
  unfold filled
  by_cases h : NamedOnce settings
  · have hof : Partial.of settings' = .of settings := by
      unfold Partial.of
      rw [findSome?_of_perm selects_maxIterations h hperm,
        findSome?_of_perm selects_tolerance h hperm,
        findSome?_of_perm selects_initialDamping h hperm,
        findSome?_of_perm selects_differenceStep h hperm]
    rw [if_pos h, if_pos (honce.mpr h), hof]
  · rw [if_neg h, if_neg (h ∘ honce.mp)]

end

theorem exists_fault {c : Config Float} {failure : Failure Float}
    (h : c.validate = .error failure) : ∃ fault, failure = .parameter fault := by
  unfold validate at h
  split at h
  · cases h
  · rename_i fault _
    cases h
    exact ⟨fault, rfl⟩

/-- **A document overrides the options that it names and no others.**  Options named once are
validated together with the defaults of the others; one that is named twice is refused.  Members in
another order, or with other keys that name no option, make no difference. -/
theorem ofJson_document {settings : List Setting} {text : String} (h : Document settings text) :
    (NamedOnce settings →
      ((overriding settings).validate = .ok () → ofJson text = .ok (overriding settings)) ∧
      ∀ failure, (overriding settings).validate = .error failure →
        ofJson text = .error failure ∧ ∃ fault, failure = .parameter fault) ∧
    (¬ NamedOnce settings →
      ∃ fault, ofJson text = .error (.json fault) ∧ fault.category = "data") ∧
    ∀ settings' text', Document settings' text' →
      (settings'.filter Setting.isOption).Perm (settings.filter Setting.isOption) →
      ofJson text' = ofJson text := by
  have hread := readAll_document h
  refine ⟨?named, ?twice, ?others⟩
  case named =>
    intro honce
    rw [filled, if_pos honce] at hread
    constructor
    · intro hvalid
      unfold ofJson
      rw [hread]
      dsimp only [Except.map]
      rw [complete_of, hvalid]
    · intro failure hfailure
      refine ⟨?_, exists_fault hfailure⟩
      unfold ofJson
      rw [hread]
      dsimp only [Except.map]
      rw [complete_of, hfailure]
  case twice =>
    intro htwice
    rw [filled, if_neg htwice] at hread
    refine ⟨.mismatch, ?_, rfl⟩
    unfold ofJson
    rw [hread]
    rfl
  case others =>
    intro settings' text' h' hperm
    unfold ofJson
    rw [hread, readAll_document h', filled_of_perm hperm]

/-- a key that no option has, and an option whose key is escaped -/
def nestedText : String := String.ofList
  ('{' :: "\"x\":[[], 1e999] ,\n\"epsilo\\u006e\" : 0.5".toList ++ ['}'])

theorem document_nested : Document [.other, .differenceStep 0.5] nestedText := by
  have hempty : Derives .element ['[', ']'] :=
    .element blank_nil (.array (.itemsEnd blank_nil)) blank_nil
  have hlarge : Derives .element ([' '] ++ (['1', 'e', '9', '9', '9'] ++ [])) := by
    have hexponent : Exponent ('e' :: ([] ++ ['9', '9', '9'])) :=
      .present rfl List.mem_cons_self (digits_of_all (List.cons_ne_nil _ _) rfl)
    have hwhole : Whole ['1'] := ⟨digits_of_all (List.cons_ne_nil _ _) rfl, nofun⟩
    exact .element blank_space (.numeral (.intro List.mem_cons_self hwhole .absent hexponent))
      blank_nil
  have hvalue : Derives .element "[[], 1e999] ".toList :=
    .element blank_nil (.array (.item hempty (.item hlarge (.itemsEnd blank_nil)))) blank_space
  have hkey : Spells "epsilo\\u006e".toList "epsilon".toList := by
    have hn : Quad ['0', '0', '6', 'e'] 110 :=
      @Quad.intro '0' '0' '6' 'e' 0 0 6 14 rfl rfl rfl rfl
    have hend : Spells ('\\' :: 'u' :: (['0', '0', '6', 'e'] ++ [])) ['n'] :=
      .code hn rfl rfl .nil
    exact .plain rfl (.plain rfl (.plain rfl (.plain rfl (.plain rfl (.plain rfl hend)))))
  have hline : Blank ['\n'] := List.all_eq_true.mp rfl
  have hmembers : MembersText true
      [("x".toList, "[[], 1e999] ".toList), ("epsilo\\u006e".toList, " 0.5".toList)]
      (separated true (memberText [] "x".toList [] "[[], 1e999] ".toList) ++
        (separated false (memberText ['\n'] "epsilo\\u006e".toList [' '] " 0.5".toList) ++
          ([] ++ ['}']))) :=
    .member blank_nil blank_nil (.member hline blank_space (.closing blank_nil))
  have hdecodes : float.readAll (String.ofList " 0.5".toList) = .ok 0.5 := by decide +kernel
  refine @Document.intro _ _ _ [] _ [] rfl blank_nil hmembers ?_ blank_nil
  refine .cons (.other (spells_of_plain (plain_of_all rfl)) (by decide) hvalue) ?_
  exact .cons (.option hkey rfl hdecodes) .nil

theorem ofJson_document_nested : Document [.other, .differenceStep 0.5] nestedText ∧
    ofJson nestedText = .ok (Config.default.withDifferenceStep 0.5) := by
  refine ⟨document_nested, ?_⟩
  have honce : NamedOnce [.other, .differenceStep 0.5] := by decide
  exact ((ofJson_document document_nested).1 honce).1 rfl

end LeastSquares.Config
