import LeastSquares.Proofs.Config.RoundTrip
import LeastSquares.Solver.Json

/-!
# Results that are written and read again

A snapshot is written on one line when it stands alone, and with a line for each member inside an
outcome, so its members are followed under any blanks (`Snapshot.decides_inside`).  Reading goes
level by level: the numbers of a vector, the members of a snapshot, the snapshots of a history, the
members of an outcome.  On each level a value is readable exactly if every real number in it is
finite; the first one that is not stands there as `null`, and the text is refused at it.
-/

namespace LeastSquares
open Json
open Config (ReadsBack)

/-! ## numbers and vectors -/

namespace Json

/-- a text that a number is read from starts like an item -/
theorem opens_of_anyNumber {cs rest : List Char} {n : Number} (h : anyNumber cs = .ok (n, rest)) :
    Opens cs := by
  obtain ⟨blanks, cs, rfl, hblanks, hother⟩ := exists_blanks cs
  rw [anyNumber_append hblanks] at h
  cases cs with
  | nil => cases h
  | cons c cs =>
    have hblank := hother c rfl
    refine ⟨blanks, c, cs, rfl, hblanks, ?_⟩
    rw [anyNumber_eq hblank] at h
    by_cases hminus : c = '-'
    · subst hminus
      rfl
    · by_cases hdigit : isDigit c = true
      · have hclosing : c ≠ ']' := by
          rintro rfl
          cases hdigit
        have hcomma : c ≠ ',' := by
          rintro rfl
          cases hdigit
        simp [startsItem, hblank, hclosing, hcomma]
      · rw [if_neg hminus, if_neg hdigit] at h
        cases h

section
variable {x : Float} (h : x.isFinite = true → ReadsBack x)
include h

theorem decides_real : Decides float (Tree.writeReal x) x.isFinite x where
  reads hfinite := local_float.reads (h hfinite)
  refuses hfinite := by
    rw [Config.writeReal_of_not_isFinite hfinite]
    exact refuses_null

theorem opens_real : Opens (Tree.writeReal x) := by
  cases hfinite : x.isFinite with
  | true =>
    obtain ⟨blanks, -, hread⟩ := readAll_eq_ok.mp (h hfinite)
    rw [String.toList_ofList, float_eq] at hread
    obtain ⟨n, rest, hnumber, -⟩ := bind_eq_ok.mp hread
    exact opens_of_anyNumber hnumber
  | false =>
    rw [Config.writeReal_of_not_isFinite hfinite]
    exact opens_cons rfl _

end

theorem compactItems_eq (items : List Tree) :
    Tree.compactItems items = items.map Tree.writeCompact := by
  induction items with
  | nil => rfl
  | cons t items ih => rw [Tree.compactItems, ih, List.map_cons]

theorem prettyItems_eq (items : List Tree) (depth : Nat) :
    Tree.prettyItems items depth = items.map fun t => t.writePretty depth := by
  induction items with
  | nil => rfl
  | cons t items ih => rw [Tree.prettyItems, ih, List.map_cons]

section
variable {xs : Array Float} (h : ∀ x ∈ xs.toList, x.isFinite = true → ReadsBack x)
include h

theorem decides_reals {lead trail : List Char} (hl : Blank lead) (ht : Blank trail) :
    Decides (array float) ('[' :: row ']' lead trail true (xs.toList.map Tree.writeReal))
      (xs.toList.all Float.isFinite) xs :=
  decides_array skipsBlanks_float hl ht fun x hx => ⟨opens_real (h x hx), decides_real (h x hx)⟩

theorem decides_compact_reals : Decides (array float) (Tree.reals xs).writeCompact
    (xs.toList.all Float.isFinite) xs := by
  have htext : (Tree.reals xs).writeCompact =
      '[' :: row ']' [] [] true (xs.toList.map Tree.writeReal) := by
    rw [← joined_row, Tree.reals, Tree.writeCompact, compactItems_eq, List.map_map]
    rfl
  rw [htext]
  exact decides_reals h blank_nil blank_nil

theorem decides_pretty_reals (depth : Nat) :
    Decides (array float) ((Tree.reals xs).writePretty depth) (xs.toList.all Float.isFinite)
      xs := by
  have htext : (Tree.reals xs).writePretty depth =
      Tree.bracketed '[' ']' depth (xs.toList.map Tree.writeReal) := by
    rw [Tree.reals, Tree.writePretty, prettyItems_eq, List.map_map]
    rfl
  obtain ⟨trail, htrail, hrow⟩ := exists_bracketed_row '[' ']' depth (xs.toList.map Tree.writeReal)
  rw [htext, hrow]
  exact decides_reals h (blank_newLine _) htrail

end
end Json

/-! ## statuses -/

namespace Status

theorem skipsBlanks_reader : SkipsBlanks reader := by
  intro blanks cs h
  have hname : (Json.text >>= ofName) (blanks ++ cs) = (Json.text >>= ofName) cs := by
    show (Json.text (blanks ++ cs) >>= _) = (Json.text cs >>= _)
    unfold Json.text
    rw [dropBlanks_append h]
  unfold reader
  rw [dropBlanks_append h, hname]

theorem reads_text (s : Status) : Reads reader (Tree.quote s.text) s := by
  intro rest _
  refine ⟨[], blank_nil, ?_⟩
  have hplain : Plain s.text.toList := by
    cases s
    · exact plain_of_all rfl
    · exact plain_of_all rfl
    · exact plain_of_all rfl
  have hname : Json.text ('"' :: (s.text.toList ++ '"' :: rest)) = .ok (s.text, rest) := by
    have hquoted := quoted_of_plain hplain rest
    show (quoted (s.text.toList ++ '"' :: rest) >>= _) = _
    rw [hquoted]
    show Except.ok (String.ofList s.text.toList, rest) = _
    rw [String.ofList_toList]
  have hquote : Tree.quote s.text ++ rest = '"' :: (s.text.toList ++ '"' :: rest) := by
    simp [Tree.quote]
  rw [hquote]
  refine (bind_of_ok hname).trans ?_
  unfold ofName
  rw [ofText?_text]
  rfl

end Status

/-! ## snapshots -/

namespace Snapshot

/-- the real numbers of a snapshot -/
def reals (a : Snapshot Float) : List Float := a.point.toList ++ [a.residualNorm, a.damping]

/-- the keys and the texts behind the colons, with the blanks `gap` in front of each value -/
def members (gap point : List Char) (a : Snapshot Float) : List (String × List Char) := [
  ("iter", gap ++ Nat.toDigits 10 a.iteration),
  ("x", gap ++ point),
  ("fNorm", gap ++ Tree.writeReal a.residualNorm),
  ("lambda", gap ++ Tree.writeReal a.damping)]

theorem writeCompact_tree (a : Snapshot Float) : a.tree.writeCompact =
    '{' :: inside [] [] true (a.members [] (Tree.reals a.point).writeCompact) := by
  rw [← joined_pieces]
  simp only [tree, Tree.writeCompact, Tree.compactMembers]
  rfl

theorem writePretty_tree (a : Snapshot Float) (depth : Nat) : a.tree.writePretty depth =
    '{' :: inside (Tree.newLine (depth + 1)) (Tree.newLine depth) true
      (a.members [' '] ((Tree.reals a.point).writePretty (depth + 1))) := by
  unfold members
  rw [← bracketed_pieces]
  simp only [tree, Tree.writePretty, Tree.prettyMembers]
  rfl

section
variable {a : Snapshot Float} (hiteration : a.iteration < significandBound)
  (hreads : ∀ x ∈ a.reals, x.isFinite = true → ReadsBack x)
include hiteration hreads

theorem filled_members {gap point : List Char} (hgap : Blank gap)
    (hpoint : Decides (array float) point (a.point.toList.all Float.isFinite) a.point) :
    Filled fields .none (a.members gap point) (verdict (a.reals.all Float.isFinite)
      ⟨a.iteration, a.point, a.residualNorm, a.damping⟩) := by
  have hnumber := Decides.of_reads (reads_natural hiteration)
  have hnorm := decides_real (hreads a.residualNorm (by simp [reals]))
  have hdamping := decides_real (hreads a.damping (by simp [reals]))
  -- the number of the pass is always readable
  have hall : a.reals.all Float.isFinite = (true && (a.point.toList.all Float.isFinite &&
      (a.residualNorm.isFinite && (a.damping.isFinite && true)))) := by
    simp [reals]
  rw [hall]
  refine filled_cons (plain_of_all rfl) (decides_member rfl rfl
    ((hnumber.behind_blanks skipsBlanks_natural hgap).map
      fun n => (⟨n, none, none, none⟩ : Partial))) ?_
  refine filled_cons (plain_of_all rfl) (decides_member rfl rfl
    ((hpoint.behind_blanks (skipsBlanks_array float) hgap).map
      fun x => (⟨a.iteration, some x, none, none⟩ : Partial))) ?_
  refine filled_cons (plain_of_all rfl) (decides_member rfl rfl
    ((hnorm.behind_blanks skipsBlanks_float hgap).map
      fun v => (⟨a.iteration, a.point, some v, none⟩ : Partial))) ?_
  refine filled_cons (plain_of_all rfl) (decides_member rfl rfl
    ((hdamping.behind_blanks skipsBlanks_float hgap).map
      fun v => (⟨a.iteration, a.point, a.residualNorm, some v⟩ : Partial))) ?_
  exact .done

/-- the members of a snapshot, under any blanks between them -/
theorem decides_inside {gap lead trail point : List Char} (hgap : Blank gap) (hl : Blank lead)
    (ht : Blank trail)
    (hpoint : Decides (array float) point (a.point.toList.all Float.isFinite) a.point) :
    Decides reader ('{' :: inside lead trail true (a.members gap point))
      (a.reals.all Float.isFinite) a :=
  decides_record hl ht (filled_members hiteration hreads hgap hpoint) rfl

theorem decides_compact :
    Decides reader a.tree.writeCompact (a.reals.all Float.isFinite) a := by
  rw [writeCompact_tree]
  refine decides_inside hiteration hreads blank_nil blank_nil blank_nil ?_
  exact decides_compact_reals fun x hx => hreads x (List.mem_append_left _ hx)

theorem decides_pretty (depth : Nat) :
    Decides reader (a.tree.writePretty depth) (a.reals.all Float.isFinite) a := by
  rw [writePretty_tree]
  refine decides_inside hiteration hreads blank_space (blank_newLine _) (blank_newLine _) ?_
  exact decides_pretty_reals (fun x hx => hreads x (List.mem_append_left _ hx)) _

end

/-- what becomes of a snapshot that is written and read again -/
def readBack (a : Snapshot Float) : Except (Failure Float) (Snapshot Float) :=
  if a.reals.all Float.isFinite then .ok a else .error (.json .mismatch)

theorem ofJson_toJson {a : Snapshot Float} (hiteration : a.iteration < significandBound)
    (hreads : ∀ x ∈ a.reals, x.isFinite = true → ReadsBack x) : ofJson a.toJson = a.readBack := by
  have hdecides := decides_compact hiteration hreads
  rw [← String.toList_ofList (l := a.tree.writeCompact)] at hdecides
  have hread : reader.readAll a.toJson = verdict (a.reals.all Float.isFinite) a := hdecides.readAll
  unfold ofJson readBack
  rw [hread]
  cases a.reals.all Float.isFinite <;> rfl

end Snapshot

/-! ## outcomes -/

namespace Outcome

/-- the real numbers of an outcome, those of its history included -/
def reals (o : Outcome Float) : List Float :=
  o.solution.toList ++ (o.history.toList.flatMap Snapshot.reals ++ [o.residualNorm, o.damping])

theorem decides_history {history : Array (Snapshot Float)}
    (hiterations : ∀ a ∈ history, a.iteration < significandBound)
    (hreads : ∀ a ∈ history, ∀ x ∈ a.reals, x.isFinite = true → ReadsBack x) (depth : Nat) :
    Decides (array Snapshot.reader)
      ((Tree.array (history.toList.map Snapshot.tree)).writePretty depth)
      (history.toList.all fun a => a.reals.all Float.isFinite) history := by
  have htext : (Tree.array (history.toList.map Snapshot.tree)).writePretty depth =
      Tree.bracketed '[' ']' depth
        (history.toList.map fun a => a.tree.writePretty (depth + 1)) := by
    rw [Tree.writePretty, prettyItems_eq, List.map_map]
    rfl
  obtain ⟨trail, htrail, hrow⟩ := exists_bracketed_row '[' ']' depth
    (history.toList.map fun a => a.tree.writePretty (depth + 1))
  rw [htext, hrow]
  refine decides_array (skipsBlanks_record _ _) (blank_newLine _) htrail ?_
  intro a ha
  have hmem : a ∈ history := Array.mem_toList_iff.mp ha
  refine ⟨?_, Snapshot.decides_pretty (hiterations a hmem) (hreads a hmem) (depth + 1)⟩
  rw [Snapshot.writePretty_tree]
  exact opens_cons rfl _

/-- the keys and the texts behind the colons -/
def members (o : Outcome Float) : List (String × List Char) := [
  ("solution", [' '] ++ (Tree.reals o.solution).writePretty 1),
  ("status", [' '] ++ Tree.quote o.status.text),
  ("iterationData", [' '] ++ (Tree.array (o.history.toList.map Snapshot.tree)).writePretty 1),
  ("fNorm", [' '] ++ Tree.writeReal o.residualNorm),
  ("funcEvals", [' '] ++ Nat.toDigits 10 o.evaluations),
  ("lambda", [' '] ++ Tree.writeReal o.damping)]

theorem toList_toJson (o : Outcome Float) :
    o.toJson.toList = '{' :: inside (Tree.newLine 1) (Tree.newLine 0) true o.members := by
  unfold toJson Tree.pretty members
  rw [String.toList_ofList, ← bracketed_pieces]
  simp only [tree, Tree.writePretty, Tree.prettyMembers]
  rfl

section
variable {o : Outcome Float} (hevaluations : o.evaluations < significandBound)
  (hiterations : ∀ a ∈ o.history, a.iteration < significandBound)
  (hreads : ∀ x ∈ o.reals, x.isFinite = true → ReadsBack x)
include hevaluations hiterations hreads

theorem filled_members : Filled fields .none o.members (verdict (o.reals.all Float.isFinite)
    ⟨o.solution, o.status, o.history, o.residualNorm, o.evaluations, o.damping⟩) := by
  have hsolution := decides_pretty_reals
    (fun x (hx : x ∈ o.solution.toList) => hreads x (List.mem_append_left _ hx)) 1
  have hstatus := Decides.of_reads o.status.reads_text
  have hhistory := decides_history hiterations (fun a ha x hx => hreads x (by
    simp only [reals, List.mem_append, List.mem_flatMap]
    exact .inr (.inl ⟨a, Array.mem_toList_iff.mpr ha, hx⟩))) 1
  have hnorm := decides_real (hreads o.residualNorm (by simp [reals]))
  have hnumber := Decides.of_reads (reads_natural hevaluations)
  have hdamping := decides_real (hreads o.damping (by simp [reals]))
  -- the status and the count are always readable
  have hall : o.reals.all Float.isFinite = (o.solution.toList.all Float.isFinite && (true &&
      ((o.history.toList.all fun a => a.reals.all Float.isFinite) &&
        (o.residualNorm.isFinite && (true && (o.damping.isFinite && true)))))) := by
    simp [reals, List.all_flatMap]
  rw [hall]
  refine filled_cons (plain_of_all rfl) (decides_member rfl rfl
    ((hsolution.behind_blanks (skipsBlanks_array float) blank_space).map
      fun x => (⟨some x, none, none, none, none, none⟩ : Partial))) ?_
  refine filled_cons (plain_of_all rfl) (decides_member rfl rfl
    ((hstatus.behind_blanks Status.skipsBlanks_reader blank_space).map
      fun s => (⟨o.solution, some s, none, none, none, none⟩ : Partial))) ?_
  refine filled_cons (plain_of_all rfl) (decides_member rfl rfl
    ((hhistory.behind_blanks (skipsBlanks_array _) blank_space).map
      fun h => (⟨o.solution, o.status, some h, none, none, none⟩ : Partial))) ?_
  refine filled_cons (plain_of_all rfl) (decides_member rfl rfl
    ((hnorm.behind_blanks skipsBlanks_float blank_space).map
      fun v => (⟨o.solution, o.status, o.history, some v, none, none⟩ : Partial))) ?_
  refine filled_cons (plain_of_all rfl) (decides_member rfl rfl
    ((hnumber.behind_blanks skipsBlanks_natural blank_space).map
      fun n => (⟨o.solution, o.status, o.history, o.residualNorm, some n, none⟩ : Partial))) ?_
  refine filled_cons (plain_of_all rfl) (decides_member rfl rfl
    ((hdamping.behind_blanks skipsBlanks_float blank_space).map
      fun v => (⟨o.solution, o.status, o.history, o.residualNorm, o.evaluations, some v⟩ :
        Partial))) ?_
  exact .done

theorem decides_toJson : Decides reader o.toJson.toList (o.reals.all Float.isFinite) o := by
  have hfilled := filled_members hevaluations hiterations hreads
  rw [toList_toJson]
  exact decides_record (blank_newLine 1) (blank_newLine 0) hfilled rfl

end

/-- what becomes of an outcome that is written and read again -/
def readBack (o : Outcome Float) : Except (Failure Float) (Outcome Float) :=
  if o.reals.all Float.isFinite then .ok o else .error (.json .mismatch)

/-- **Outcomes and snapshots that are written and read again are the same**, provided that every
number in them is finite and each of these reads back; with a number that is not finite they are
written all the same, and refused when they are read. -/
theorem roundTrip {o : Outcome Float} (hevaluations : o.evaluations < 2 ^ 64)
    (hiterations : ∀ a ∈ o.history, a.iteration < 2 ^ 64)
    (hreads : ∀ x ∈ o.reals, x.isFinite = true → ReadsBack x) :
    ofJson o.toJson = o.readBack ∧
      ∀ a ∈ o.history, Snapshot.ofJson a.toJson = a.readBack := by
  refine ⟨?_, ?_⟩
  · have hread := (decides_toJson hevaluations hiterations hreads).readAll
    unfold ofJson readBack
    rw [hread]
    cases o.reals.all Float.isFinite <;> rfl
  · intro a ha
    refine Snapshot.ofJson_toJson (hiterations a ha) fun x hx => hreads x ?_
    simp only [reals, List.mem_append, List.mem_flatMap]
    exact .inr (.inl ⟨a, Array.mem_toList_iff.mpr ha, hx⟩)

/-- an outcome with a long count, a negative zero and a point without coordinates -/
def written (residualNorm : Float) : Outcome Float where
  solution := #[1.5, -0.0]
  status := .maxIterations
  history := #[⟨0, #[1.0], 0.25, 1e-3⟩, ⟨18446744073709551615, #[], 0.5, 1e-3⟩]
  residualNorm
  evaluations := 7
  damping := 2e-3

theorem written_evaluations (v : Float) : (written v).evaluations < 2 ^ 64 :=
  show 7 < 2 ^ 64 by decide

theorem written_iterations (v : Float) : ∀ a ∈ (written v).history, a.iteration < 2 ^ 64 := by
  intro a ha
  simp only [written, List.mem_toArray, List.mem_cons, List.not_mem_nil, or_false] at ha
  rcases ha with rfl | rfl
  · decide
  · decide

/-- a finite norm is read back with the rest, an infinite one makes the text unreadable -/
theorem written_roundTrip :
    (∀ v ∈ [0.25, 1.0 / 0.0], (written v).evaluations < 2 ^ 64 ∧
      (∀ a ∈ (written v).history, a.iteration < 2 ^ 64) ∧
      ∀ x ∈ (written v).reals, x.isFinite = true → ReadsBack x) ∧
    ofJson (written 0.25).toJson = .ok (written 0.25) ∧
    (∀ a ∈ (written 0.25).history, Snapshot.ofJson a.toJson = .ok a) ∧
    ofJson (written (1.0 / 0.0)).toJson = .error (.json .mismatch) := by
  have hreads : ∀ v ∈ [0.25, 1.0 / 0.0], ∀ x ∈ (written v).reals,
      x.isFinite = true → ReadsBack x := by
    have hall : ([0.25, 1.0 / 0.0].all fun v => (written v).reals.all fun x => !x.isFinite ||
        (float.readAll (String.ofList (Tree.writeReal x))).toOption.any
          fun y => y.toBits = x.toBits) = true := by decide +kernel
    intro v hv x hx hfinite
    have hread := List.all_eq_true.mp (List.all_eq_true.mp hall v hv) x hx
    rw [hfinite] at hread
    exact Config.readsBack_of_toBits hread
  have hvalid (v : Float) (hv : v ∈ [0.25, 1.0 / 0.0]) := roundTrip (written_evaluations v)
    (written_iterations v) (hreads v hv)
  obtain ⟨hfinite, hhistory⟩ := hvalid 0.25 (by simp)
  obtain ⟨hinfinite, -⟩ := hvalid (1.0 / 0.0) (by simp)
  refine ⟨fun v hv => ⟨written_evaluations v, written_iterations v, hreads v hv⟩, hfinite, ?_,
    hinfinite⟩
  intro a ha
  rw [hhistory a ha]
  simp only [written, List.mem_toArray, List.mem_cons, List.not_mem_nil, or_false] at ha
  rcases ha with rfl | rfl
  · rfl
  · rfl

end Outcome
end LeastSquares
