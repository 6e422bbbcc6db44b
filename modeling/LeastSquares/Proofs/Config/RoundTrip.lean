import LeastSquares.Config.Storage
import LeastSquares.Proofs.Json.Number
import LeastSquares.Proofs.Json.Record
import LeastSquares.Proofs.Solver.Control

/-!
# Options that are written and read again

The options are written with a line for each, in the order of the fields, so reading them fills the
partial record field by field (`filled_members`).  The number of passes is always read back.  A real
option is if it is finite and the digits it is written with are read back; one that is not finite
is written as `null`, which is no number.

Of the options that `validate` accepts only the tolerance need not be finite: an infinite one
passes, is written, and is refused when it is read (`infinite_tolerance_refused`).
-/

namespace LeastSquares.Config
open Json

/-- what a number is written as reads as the number again -/
def ReadsBack (x : Float) : Prop := float.readAll (String.ofList (Tree.writeReal x)) = .ok x

/-! ## the written members -/

/-- the keys and the texts behind the colons -/
def members (c : Config Float) : List (String × List Char) := [
  ("max_iterations", ' ' :: Nat.toDigits 10 c.maxIterations),
  ("tolerance", ' ' :: Tree.writeReal c.tolerance),
  ("initial_lambda", ' ' :: Tree.writeReal c.initialDamping),
  ("epsilon", ' ' :: Tree.writeReal c.differenceStep)]

theorem toList_toJson (c : Config Float) :
    c.toJson.toList = '{' :: inside (Tree.newLine 1) (Tree.newLine 0) true c.members := by
  have htext : c.toJson.toList = Tree.bracketed '{' '}' 0 (c.members.map piece) := by
    unfold toJson Tree.pretty
    rw [String.toList_ofList]
    rfl
  rw [htext]
  exact bracketed_pieces 0 _ _

/-- a real option, as it is written -/
theorem reads_real {x : Float} (h : ReadsBack x) : Reads float (' ' :: Tree.writeReal x) x :=
  (local_float.reads h).behind_blanks skipsBlanks_float blank_space

theorem writeReal_of_not_isFinite {x : Float} (h : x.isFinite = false) :
    Tree.writeReal x = ['n', 'u', 'l', 'l'] := by
  unfold Tree.writeReal
  rw [h]
  rfl

theorem refuses_real {x : Float} (h : x.isFinite = false) :
    Refuses float (' ' :: Tree.writeReal x) .mismatch := by
  rw [writeReal_of_not_isFinite h]
  exact refuses_null.behind_blanks skipsBlanks_float blank_space

section
variable {c : Config Float}

theorem reads_maxIterations (h : c.maxIterations < significandBound) :
    Reads (member fields "max_iterations" .none) (':' :: ' ' :: Nat.toDigits 10 c.maxIterations)
      ⟨c.maxIterations, none, none, none⟩ := by
  have hnatural : Reads natural (' ' :: Nat.toDigits 10 c.maxIterations) c.maxIterations :=
    (reads_natural h).behind_blanks skipsBlanks_natural blank_space
  exact reads_member rfl rfl (hnatural.map fun n => (⟨n, none, none, none⟩ : Partial))

theorem filled_members (hmax : c.maxIterations < significandBound)
    (htolerance : ReadsBack c.tolerance) (hdamping : ReadsBack c.initialDamping)
    (hstep : ReadsBack c.differenceStep) :
    Filled fields .none c.members
      (.ok ⟨c.maxIterations, c.tolerance, c.initialDamping, c.differenceStep⟩) := by
  refine .member (plain_of_all rfl) (reads_maxIterations hmax) ?_
  refine .member (plain_of_all rfl) (reads_member rfl rfl ((reads_real htolerance).map
    fun x => (⟨c.maxIterations, some x, none, none⟩ : Partial))) ?_
  refine .member (plain_of_all rfl) (reads_member rfl rfl ((reads_real hdamping).map
    fun x => (⟨c.maxIterations, c.tolerance, some x, none⟩ : Partial))) ?_
  refine .member (plain_of_all rfl) (reads_member rfl rfl ((reads_real hstep).map
    fun x => (⟨c.maxIterations, c.tolerance, c.initialDamping, some x⟩ : Partial))) ?_
  exact .done

theorem filled_members_of_infinite (hmax : c.maxIterations < significandBound)
    (htolerance : c.tolerance.isFinite = false) :
    Filled fields .none c.members (.error .mismatch) := by
  refine .member (plain_of_all rfl) (reads_maxIterations hmax) ?_
  exact .fault (plain_of_all rfl) (refuses_member rfl rfl ((refuses_real htolerance).bind _))

/-! ## the whole text -/

theorem readAll_toJson {result : Except JsonFault Partial}
    (h : Filled fields .none c.members result) :
    reader.readAll c.toJson = result.map Partial.complete := by
  have hrecord := record_inside (blank_newLine 1) (blank_newLine 0) h (fun p => some p.complete) []
  rw [List.append_nil, ← toList_toJson] at hrecord
  have hreader : reader c.toJson.toList =
      result.bind fun part => .ok (part.complete, []) := hrecord
  unfold Reader.readAll
  rw [hreader]
  cases result <;> rfl

/-- what becomes of options that are written and read again -/
def readBack (c : Config Float) : Except (Failure Float) (Config Float) :=
  if c.tolerance.isFinite then .ok c else .error (.json .mismatch)

theorem ofJson_toJson (hvalid : c.validate = .ok ()) (hmax : c.maxIterations < significandBound)
    (hreads : ∀ x ∈ [c.tolerance, c.initialDamping, c.differenceStep],
      x.isFinite = true → ReadsBack x) : ofJson c.toJson = c.readBack := by
  obtain ⟨hdamping, hstep, -⟩ := validate_eq_ok.mp hvalid
  rw [Damping.isPositiveFinite_iff] at hdamping hstep
  unfold ofJson readBack
  cases htolerance : c.tolerance.isFinite with
  | false =>
    rw [readAll_toJson (filled_members_of_infinite hmax htolerance)]
    rfl
  | true =>
    have hfilled := filled_members hmax (hreads _ (by simp) htolerance)
      (hreads _ (by simp) hdamping.2) (hreads _ (by simp) hstep.2)
    have hread : reader.readAll c.toJson = .ok c := readAll_toJson hfilled
    rw [hread]
    dsimp only
    rw [hvalid]
    rfl

/-- a saved file is read, whatever was there before -/
theorem load_of_save {s t : Storage} {path : Path} (h : c.save s path = .ok t) :
    load t path = ofJson c.toJson := by
  unfold save at h
  split at h
  · rename_i hwrite
    cases h
    unfold load
    rw [Storage.readText_of_write hwrite]
  · cases h

end

/-- **Options that are written and read again are the same**, provided that the tolerance is finite
and each finite number reads back; with an infinite tolerance they are refused. -/
theorem toJson_roundTrip {c : Config Float} (hvalid : c.validate = .ok ())
    (hmax : c.maxIterations < 2 ^ 64)
    (hreads : ∀ x ∈ [c.tolerance, c.initialDamping, c.differenceStep],
      x.isFinite = true → ReadsBack x) :
    ofJson c.toJson = c.readBack ∧
      ∀ s path t, c.save s path = .ok t → load t path = c.readBack := by
  have hread := ofJson_toJson hvalid hmax hreads
  refine ⟨hread, ?_⟩
  intro s path t hsave
  rw [load_of_save hsave, hread]

theorem readsBack_of_toBits {x : Float}
    (h : ((float.readAll (String.ofList (Tree.writeReal x))).toOption.any
      fun y => y.toBits = x.toBits) = true) : ReadsBack x := by
  unfold ReadsBack
  cases hread : float.readAll (String.ofList (Tree.writeReal x)) with
  | error fault =>
    rw [hread] at h
    cases h
  | ok y =>
    rw [hread] at h
    exact congrArg _ (Float.toBits_inj.mp (of_decide_eq_true h))

theorem default_validate : Config.default.validate = .ok () := rfl

theorem default_roundTrip : Config.default.validate = .ok () ∧
    (∀ x ∈ [Config.default.tolerance, Config.default.initialDamping,
      Config.default.differenceStep], ReadsBack x) ∧
    ofJson Config.default.toJson = .ok Config.default := by
  have hreads : ∀ x ∈ [Config.default.tolerance, Config.default.initialDamping,
      Config.default.differenceStep], ReadsBack x := by
    intro x hx
    simp only [List.mem_cons, List.not_mem_nil, or_false] at hx
    rcases hx with rfl | rfl | rfl
    · exact readsBack_of_toBits (by decide +kernel)
    · exact readsBack_of_toBits (by decide +kernel)
    · exact readsBack_of_toBits (by decide +kernel)
  have hfinite : Config.default.tolerance.isFinite = true := rfl
  refine ⟨default_validate, hreads, ?_⟩
  rw [(toJson_roundTrip default_validate (by decide) fun x hx _ => hreads x hx).1, readBack,
    hfinite]
  rfl

/-- an infinite tolerance is accepted, but not when it has been written -/
theorem infinite_tolerance_refused :
    (Config.default.withTolerance (1.0 / 0.0)).validate = .ok () ∧
      ofJson (Config.default.withTolerance (1.0 / 0.0)).toJson = .error (.json .mismatch) := by
  refine ⟨rfl, ?_⟩
  unfold ofJson
  rw [readAll_toJson (filled_members_of_infinite (by decide) rfl)]
  rfl

end LeastSquares.Config
