import Mathlib.Data.List.FinRange
import LeastSquares.Proofs.Linear.System
import LeastSquares.Proofs.Problem.Differences
import LeastSquares.Proofs.Solver.Calls
import LeastSquares.Proofs.Solver.Ensures

/-!
# The evaluations of a central difference

Which points are evaluated for a finite-difference Jacobian, in which order, and what becomes of the
answers, for residuals that may fail, change their length or depend on all evaluations before.

`Sampled x m ε k v samples` says that `k` columns have been read off the samples, and `Spoils` how
the samples of one more column make the whole fail.  One column adds its two samples or spoils the
whole (`ensures_column`), all of them by induction on their number (`Ensures.ofFnM_steps`).
-/

namespace LeastSquares
variable {σ α β : Type}

/-! ## samples -/

/-- an evaluation of the residuals -/
structure Sample (α : Type) where
  point : Array α
  answer : Except (Failure α) (Array α)

namespace Sample

def call (s : Sample α) : Call α := .residuals s.point s.answer

def Succeeds (s : Sample α) : Prop := ∃ r, s.answer = .ok r

/-- the evaluation succeeds with `m` residuals -/
def Gives (s : Sample α) (m : Nat) : Prop := ∃ r, s.answer = .ok r ∧ r.size = m

/-- the number of residuals, if it is not `m` -/
def wrongLength? (m : Nat) (s : Sample α) : Option Nat :=
  match s.answer with
  | .ok r => if r.size = m then none else some r.size
  | .error _ => none

theorem Gives.succeeds {s : Sample α} {m : Nat} (h : s.Gives m) : s.Succeeds :=
  h.imp fun _ hr => hr.1

theorem Gives.wrongLength?_eq {s : Sample α} {m : Nat} (h : s.Gives m) :
    s.wrongLength? m = none := by
  obtain ⟨r, hr, hsize⟩ := h
  unfold wrongLength?
  rw [hr]
  exact if_pos hsize

end Sample

section
variable [Scalar α]

/-- the two points for a column -/
def differencePair (x : Array α) (ε : α) (j : Fin x.size) : List (Array α) :=
  [forwardPoint x ε j, backwardPoint x ε j]

/-- the points around `x`, in the order of the columns -/
def differencePoints (x : Array α) (ε : α) : List (Array α) :=
  (List.finRange x.size).flatMap (differencePair x ε)

def differenceQuotient (ε u w : α) : α := (u - w) / (Scalar.two * ε)

/-- the first `k` columns `v` are read off these samples, two for each of them -/
inductive Sampled (x : Array α) (m : Nat) (ε : α) :
    (k : Nat) → Vector (Vector α m) k → List (Sample α) → Prop where
  | start : Sampled x m ε 0 #v[] []
  | column {j : Fin x.size} {v : Vector (Vector α m) j} {samples : List (Sample α)}
      (before : Sampled x m ε j v samples) (u w : Vector α m) :
      Sampled x m ε (j + 1) (v.push (u.zipWith (differenceQuotient ε) w))
        (samples ++
          [⟨forwardPoint x ε j, .ok u.toArray⟩, ⟨backwardPoint x ε j, .ok w.toArray⟩])

/-- the samples for a column that cannot be read off them, and the failure that follows: both
lengths are looked at only when both evaluations have been made -/
inductive Spoils (m : Nat) (y z : Array α) : List (Sample α) → Failure α → Prop where
  | forward (e : Failure α) : Spoils m y z [⟨y, .error e⟩] e
  | backward (u : Array α) (e : Failure α) : Spoils m y z [⟨y, .ok u⟩, ⟨z, .error e⟩] e
  | forwardLength {u : Array α} (w : Array α) (h : u.size ≠ m) :
      Spoils m y z [⟨y, .ok u⟩, ⟨z, .ok w⟩] (.dimension (.perturbedLength m u.size))
  | backwardLength {u w : Array α} (hu : u.size = m) (h : w.size ≠ m) :
      Spoils m y z [⟨y, .ok u⟩, ⟨z, .ok w⟩] (.dimension (.perturbedLength m w.size))

/-- the samples of a central difference that one column spoils -/
def Spoilt (x : Array α) (m : Nat) (ε : α) (samples : List (Sample α)) (e : Failure α) : Prop :=
  ∃ (j : Fin x.size) (v : Vector (Vector α m) j) (before tail : List (Sample α)),
    Sampled x m ε j v before ∧ samples = before ++ tail ∧
      Spoils m (forwardPoint x ε j) (backwardPoint x ε j) tail e

end

/-! ## one column after the other -/

namespace Solve

/-- what a sequence ensures if each part adds one result to those before it -/
theorem Ensures.ofFnM_steps {n : Nat} {f : Fin n → Solve σ α β}
    {P : (k : Nat) → Vector β k → Session σ α → Prop} {E : Failure α → Session σ α → Prop}
    (h : ∀ (i : Fin n) (v : Vector β i), Ensures (P i v) (f i) (fun b => P (i + 1) (v.push b)) E) :
    Ensures (P 0 #v[]) (Vector.ofFnM f) (P n) E := by
  induction n with
  | zero =>
    rw [Vector.ofFnM_zero]
    exact .pure fun s hs => hs
  | succ n ih =>
    rw [Vector.ofFnM_succ]
    refine (ih fun i => h i.castSucc).bind fun init => ?_
    exact (h (Fin.last n) init).bind fun last => .pure fun s hs => hs

theorem run_call_of_run {act : Evaluation σ α β} {s : Session σ α} {result : Except (Failure α) β}
    {q : σ} (h : act.run s.problem = (result, q)) :
    (call act).run s = (result, { s with problem := q }) := by
  rw [run_call, h]

/-- the calls of the session are these samples -/
def Following (samples : List (Sample α)) (s : Session (σ × List (Call α)) α) : Prop :=
  s.calls = samples.map Sample.call

theorem ensures_sample (p : Problem σ α) (y : Array α) (samples : List (Sample α)) :
    Ensures (Following samples) (call (p.observed.residuals y))
      (fun u => Following (samples ++ [⟨y, .ok u⟩]))
      (fun e => Following (samples ++ [⟨y, .error e⟩])) := by
  intro s hs
  have hcalls (answer : Except (Failure α) (Array α)) :
      s.calls ++ [.residuals y answer] =
        (samples ++ [(⟨y, answer⟩ : Sample α)]).map Sample.call := by
    rw [hs, List.map_append]
    rfl
  rw [run_call_residuals]
  rcases (p.residuals y).run s.problem.1 with ⟨e | u, q⟩
  · exact hcalls _
  · exact hcalls _

variable [Scalar α]

theorem ensures_column (p : Problem σ α) (x : Array α) (m : Nat) (ε : α) (j : Fin x.size)
    (samples : List (Sample α)) :
    Ensures (Following samples) (call (differenceColumn p.observed.residuals x m ε j))
      (fun v s => ∃ u w : Vector α m, v = u.zipWith (differenceQuotient ε) w ∧
        Following (samples ++
          [⟨forwardPoint x ε j, .ok u.toArray⟩, ⟨backwardPoint x ε j, .ok w.toArray⟩]) s)
      (fun e s => ∃ tail, Following (samples ++ tail) s ∧
        Spoils m (forwardPoint x ε j) (backwardPoint x ε j) tail e) := by
  unfold differenceColumn
  simp only [call_bind, call_pure]
  refine ((ensures_sample p _ samples).imp (fun _ _ hs => hs)
    fun e s hs => ⟨_, hs, .forward e⟩).bind fun u => ?_
  have hbackward :=
    ensures_sample p (backwardPoint x ε j) (samples ++ [⟨forwardPoint x ε j, .ok u⟩])
  simp only [List.append_assoc, List.singleton_append] at hbackward
  refine (hbackward.imp (fun _ _ hs => hs) fun e s hs => ⟨_, hs, .backward u e⟩).bind fun w => ?_
  by_cases hu : u.size = m
  · by_cases hw : w.size = m
    · obtain ⟨u, rfl⟩ : ∃ v : Vector α m, u = v.toArray := ⟨⟨u, hu⟩, rfl⟩
      obtain ⟨w, rfl⟩ : ∃ v : Vector α m, w = v.toArray := ⟨⟨w, hw⟩, rfl⟩
      simp only [expectLength_toArray, call_pure, pure_bind]
      exact .pure fun s hs => ⟨u, w, rfl, hs⟩
    · obtain ⟨u, rfl⟩ : ∃ v : Vector α m, u = v.toArray := ⟨⟨u, hu⟩, rfl⟩
      have hthrow : (expectLength m w : Evaluation (σ × List (Call α)) α (Vector α m)) =
          throw (.dimension (.perturbedLength m w.size)) := dif_neg hw
      simp only [expectLength_toArray, call_pure, pure_bind, hthrow]
      exact .throw fun s hs => ⟨_, hs, .backwardLength hu hw⟩
  · have hthrow : (expectLength m u : Evaluation (σ × List (Call α)) α (Vector α m)) =
        throw (.dimension (.perturbedLength m u.size)) := dif_neg hu
    rw [hthrow]
    exact .throw fun s hs => ⟨_, hs, .forwardLength w hu⟩

theorem ensures_columns (p : Problem σ α) (x : Array α) (m : Nat) (ε : α) :
    Ensures (Following []) (call (Vector.ofFnM (differenceColumn p.observed.residuals x m ε)))
      (fun v s => ∃ samples, Sampled x m ε x.size v samples ∧ Following samples s)
      (fun e s => ∃ samples, Spoilt x m ε samples e ∧ Following samples s) := by
  rw [call_ofFnM]
  refine (Ensures.ofFnM_steps (P := fun k v s => ∃ samples, Sampled x m ε k v samples ∧
    Following samples s) ?_).weaken fun s hs => ⟨[], .start, hs⟩
  rintro j v s ⟨samples, hsampled, hs⟩
  refine (ensures_column p x m ε j samples).imp ?_ ?_ s hs
  · rintro b s' ⟨u, w, rfl, hs'⟩
    exact ⟨_, hsampled.column u w, hs'⟩
  · rintro e s' ⟨tail, hs', hspoils⟩
    exact ⟨_, ⟨j, v, samples, tail, hsampled, rfl, hspoils⟩, hs'⟩

theorem ensures_centralDifference (p : Problem σ α) (x r : Array α) (ε : α) :
    Ensures (Following []) (call (centralDifference p.observed.residuals x r ε))
      (fun J s => ∃ v samples, Sampled x r.size ε x.size v samples ∧ Following samples s ∧
        J = ⟨r.size, x.size, .ofFn .rowMajor fun i j => (v.get j).get i⟩)
      (fun e s => ∃ samples, Spoilt x r.size ε samples e ∧ Following samples s) := by
  unfold centralDifference
  rw [call_bind]
  refine (ensures_columns p x r.size ε).bind fun v => .pure ?_
  rintro s ⟨samples, hsampled, hs⟩
  exact ⟨v, samples, hsampled, hs, rfl⟩

end Solve

/-! ## a spoilt column -/

/-- only the last evaluation fails -/
def FailsLast (samples : List (Sample α)) (e : Failure α) : Prop :=
  ∃ before last, samples = before ++ [last] ∧ last.answer = .error e ∧ ∀ s ∈ before, s.Succeeds

/-- all evaluations succeed, and the first length that is not `m` is reported -/
def ReportsLength (m : Nat) (samples : List (Sample α)) (e : Failure α) : Prop :=
  (∀ s ∈ samples, s.Succeeds) ∧ ∃ length,
    samples.findSome? (Sample.wrongLength? m) = some length ∧
      e = .dimension (.perturbedLength m length)

section
variable {m : Nat} {before tail : List (Sample α)} {e : Failure α}

theorem FailsLast.behind (h : FailsLast tail e) (hbefore : ∀ s ∈ before, s.Gives m) :
    FailsLast (before ++ tail) e := by
  obtain ⟨front, last, rfl, hlast, hfront⟩ := h
  refine ⟨before ++ front, last, (List.append_assoc _ _ _).symm, hlast, ?_⟩
  intro s hs
  exact (List.mem_append.mp hs).elim (fun hs => (hbefore s hs).succeeds) (hfront s)

theorem FailsLast.not_gives (h : FailsLast tail e) : ¬ ∀ s ∈ tail, s.Gives m := by
  obtain ⟨front, last, rfl, hlast, -⟩ := h
  intro hall
  obtain ⟨r, hr, -⟩ := hall last (List.mem_append_right _ (List.mem_singleton_self _))
  rw [hlast] at hr
  cases hr

theorem ReportsLength.not_gives (h : ReportsLength m tail e) : ¬ ∀ s ∈ tail, s.Gives m := by
  obtain ⟨-, length, hlength, -⟩ := h
  intro hall
  obtain ⟨s, hs, hwrong⟩ := List.exists_of_findSome?_eq_some hlength
  rw [(hall s hs).wrongLength?_eq] at hwrong
  cases hwrong

theorem ReportsLength.behind (h : ReportsLength m tail e) (hbefore : ∀ s ∈ before, s.Gives m) :
    ReportsLength m (before ++ tail) e := by
  obtain ⟨hsucceeds, length, hlength, he⟩ := h
  refine ⟨?_, length, ?_, he⟩
  · intro s hs
    exact (List.mem_append.mp hs).elim (fun hs => (hbefore s hs).succeeds) (hsucceeds s)
  · have hnone : before.findSome? (Sample.wrongLength? m) = none :=
      List.findSome?_eq_none_iff.mpr fun s hs => (hbefore s hs).wrongLength?_eq
    rw [List.findSome?_append, hnone, hlength]
    rfl

namespace Spoils
variable {y z : Array α}

theorem points_isPrefix (h : Spoils m y z tail e) : tail.map Sample.point <+: [y, z] := by
  cases h with
  | forward => exact ⟨[z], rfl⟩
  | backward | forwardLength | backwardLength => exact List.prefix_rfl

theorem length_le (h : Spoils m y z tail e) : 0 < tail.length ∧ tail.length ≤ 2 := by
  cases h with
  | forward | backward | forwardLength | backwardLength => simp

theorem fails_or_reports (h : Spoils m y z tail e) :
    FailsLast tail e ∨ tail.length = 2 ∧ ReportsLength m tail e := by
  have hsucceeds (u w : Array α) :
      ∀ s ∈ [(⟨y, .ok u⟩ : Sample α), ⟨z, .ok w⟩], s.Succeeds := by
    intro s hs
    simp only [List.mem_cons, List.not_mem_nil, or_false] at hs
    rcases hs with rfl | rfl
    · exact ⟨u, rfl⟩
    · exact ⟨w, rfl⟩
  cases h with
  | forward e => exact .inl ⟨[], _, rfl, rfl, nofun⟩
  | backward u e =>
    refine .inl ⟨[⟨y, .ok u⟩], _, rfl, rfl, ?_⟩
    intro s hs
    obtain rfl := List.mem_singleton.mp hs
    exact ⟨u, rfl⟩
  | @forwardLength u w hu =>
    refine .inr ⟨rfl, hsucceeds u w, u.size, ?_, rfl⟩
    simp [Sample.wrongLength?, hu]
  | @backwardLength u w hu hw =>
    refine .inr ⟨rfl, hsucceeds u w, w.size, ?_, rfl⟩
    simp [Sample.wrongLength?, hu, hw]

end Spoils
end

/-! ## what the samples are -/

section
variable [Scalar α] {x : Array α} {m : Nat} {ε : α} {k : Nat} {v : Vector (Vector α m) k}
  {samples : List (Sample α)}

theorem flatMap_take_add_one (j : Fin x.size) (tail : List (Array α)) :
    ((List.finRange x.size).take j).flatMap (differencePair x ε) ++ (differencePair x ε j ++ tail) =
      ((List.finRange x.size).take (j + 1)).flatMap (differencePair x ε) ++ tail := by
  have hj : (j : Nat) < (List.finRange x.size).length := by simp
  have htake := List.take_append_getElem hj
  rw [← htake, List.flatMap_append, List.append_assoc]
  simp

namespace Sampled

theorem length_eq (h : Sampled x m ε k v samples) : samples.length = 2 * k := by
  induction h with
  | start => rfl
  | column _ u w ih =>
    rw [List.length_append, ih]
    rfl

theorem gives (h : Sampled x m ε k v samples) : ∀ s ∈ samples, s.Gives m := by
  induction h with
  | start => exact nofun
  | column _ u w ih =>
    intro s hs
    rcases List.mem_append.mp hs with hs | hs
    · exact ih s hs
    · simp only [List.mem_cons, List.not_mem_nil, or_false] at hs
      rcases hs with rfl | rfl
      · exact ⟨u.toArray, rfl, u.size_toArray⟩
      · exact ⟨w.toArray, rfl, w.size_toArray⟩

theorem points_eq (h : Sampled x m ε k v samples) :
    samples.map Sample.point = ((List.finRange x.size).take k).flatMap (differencePair x ε) := by
  induction h with
  | start => rfl
  | @column j v samples _ u w ih =>
    have hpair := flatMap_take_add_one (ε := ε) j []
    rw [List.append_nil, List.append_nil] at hpair
    rw [List.map_append, ih]
    exact hpair

theorem column_eq (h : Sampled x m ε k v samples) (j : Fin x.size) (hj : j < k) :
    ∃ u w : Vector α m, samples[2 * j.val]? = some ⟨forwardPoint x ε j, .ok u.toArray⟩ ∧
      samples[2 * j.val + 1]? = some ⟨backwardPoint x ε j, .ok w.toArray⟩ ∧
      v[j] = u.zipWith (differenceQuotient ε) w := by
  induction h with
  | start => exact absurd hj (Nat.not_lt_zero _)
  | @column i v samples before u w ih =>
    have hlength := before.length_eq
    by_cases hlt : j.val < i.val
    · obtain ⟨u', w', hu, hw, hv⟩ := ih hlt
      refine ⟨u', w', ?_, ?_, ?_⟩
      · rw [List.getElem?_append_left (by omega), hu]
      · rw [List.getElem?_append_left (by omega), hw]
      · rw [← hv]
        exact Vector.getElem_push_lt hlt
    · obtain rfl : j = i := Fin.ext (by omega)
      refine ⟨u, w, ?_, ?_, ?_⟩
      · rw [List.getElem?_append_right (by omega), hlength, Nat.sub_self]
        rfl
      · rw [List.getElem?_append_right (by omega), hlength, Nat.add_sub_cancel_left]
        rfl
      · exact Vector.getElem_push_eq

end Sampled

/-! ## the result -/

/-- how the evaluations for a central difference at `x`, where there are `m` residuals, go with its
result -/
structure Differenced (x : Array α) (m : Nat) (ε : α) (samples : List (Sample α))
    (result : Except (Failure α) (DenseMatrix α)) : Prop where
  points : samples.map Sample.point <+: differencePoints x ε
  isOk_iff : (∃ J, result = .ok J) ↔ samples.length = 2 * x.size ∧ ∀ s ∈ samples, s.Gives m
  matrix : ∀ J, result = .ok J → ∃ D : Mat α m x.size, J = ⟨m, x.size, D⟩ ∧
    ∀ j : Fin x.size, ∃ u w : Vector α m,
      samples[2 * j.val]? = some ⟨forwardPoint x ε j, .ok u.toArray⟩ ∧
      samples[2 * j.val + 1]? = some ⟨backwardPoint x ε j, .ok w.toArray⟩ ∧
      ∀ i, D.entry i j = (u.get i - w.get i) / (Scalar.two * ε)
  /-- the columns before column `j` have the right length; then an evaluation fails, or both
  succeed and the first wrong length is reported -/
  failure : ∀ e, result = .error e → ∃ j : Fin x.size,
    2 * j.val < samples.length ∧ samples.length ≤ 2 * (j.val + 1) ∧
    (∀ s ∈ samples.take (2 * j.val), s.Gives m) ∧
    (FailsLast samples e ∨ samples.length = 2 * (j.val + 1) ∧ ReportsLength m samples e)

theorem Differenced.of_sampled {v : Vector (Vector α m) x.size}
    (h : Sampled x m ε x.size v samples) :
    Differenced x m ε samples (.ok ⟨m, x.size, .ofFn .rowMajor fun i j => (v.get j).get i⟩) where
  points := by
    have htake : (List.finRange x.size).take x.size = List.finRange x.size :=
      List.take_of_length_le (List.length_finRange).le
    rw [h.points_eq, htake]
    exact List.prefix_rfl
  isOk_iff := ⟨fun _ => ⟨h.length_eq, h.gives⟩, fun _ => ⟨_, rfl⟩⟩
  matrix := by
    rintro _ ⟨⟩
    refine ⟨_, rfl, ?_⟩
    intro j
    obtain ⟨u, w, hu, hw, hv⟩ := h.column_eq j j.isLt
    refine ⟨u, w, hu, hw, ?_⟩
    intro i
    have hcolumn : v.get j = u.zipWith (differenceQuotient ε) w := hv
    rw [Mat.entry_ofFn, hcolumn]
    exact get_zipWith _ u w i
  failure := nofun

theorem Differenced.of_spoilt {e : Failure α} (h : Spoilt x m ε samples e) :
    Differenced x m ε samples (.error e) := by
  obtain ⟨j, v, before, tail, hbefore, rfl, hspoils⟩ := h
  have hlength := hbefore.length_eq
  have hgives := hbefore.gives
  have hpoints := hspoils.points_isPrefix
  have htail : 0 < tail.length ∧ tail.length ≤ 2 := hspoils.length_le
  have hends := hspoils.fails_or_reports
  constructor
  case points =>
    have hsplit := flatMap_take_add_one (ε := ε) j
      (((List.finRange x.size).drop (j + 1)).flatMap (differencePair x ε))
    rw [← List.flatMap_append, List.take_append_drop] at hsplit
    unfold differencePoints
    rw [List.map_append, hbefore.points_eq, ← hsplit]
    exact List.prefix_append_right_inj _ |>.mpr (hpoints.trans (List.prefix_append _ _))
  case isOk_iff =>
    refine ⟨nofun, ?_⟩
    rintro ⟨-, hall⟩
    have htail (s : Sample α) (hs : s ∈ tail) : s.Gives m := hall s (List.mem_append_right _ hs)
    rcases hends with hends | ⟨-, hends⟩
    · exact absurd htail hends.not_gives
    · exact absurd htail hends.not_gives
  case matrix => exact nofun
  case failure =>
    rintro _ ⟨⟩
    refine ⟨j, ?_, ?_, ?_, ?_⟩
    · rw [List.length_append]
      omega
    · rw [List.length_append]
      omega
    · rw [List.take_left' hlength]
      exact hgives
    · refine hends.imp (fun hends => hends.behind hgives) ?_
      rintro ⟨htwo, hends⟩
      refine ⟨?_, hends.behind hgives⟩
      rw [List.length_append]
      omega

/-- a list of the calls changes nothing -/
theorem centralDifference_observed (p : Problem σ α) (x r : Array α) (ε : α) (q : σ)
    (calls : List (Call α)) :
    (centralDifference p.residuals x r ε).run q =
      let (result, s) := (centralDifference p.observed.residuals x r ε).run (q, calls)
      (result, s.1) := by
  have hagree := Solve.agree_centralDifference p.sameAnswers_observed.residuals x r ε
  obtain ⟨hresult, hstate⟩ :=
    hagree.run (show Unobserved (.start (q, calls)) (.start q) from rfl)
  exact Prod.ext hresult.symm (congrArg Session.problem hstate).symm

/-- **The evaluations of a central difference.**  The points are a first part of the sequence
`x + ε e₀`, `x - ε e₀`, `x + ε e₁`, …; the Jacobian comes out exactly if all of them are evaluated,
each with as many residuals as there are at `x`; if not, the first evaluation that fails is the last
one and its failure is the result, or both lengths of a column are known when the first one that is
wrong is reported. -/
theorem centralDifference_sampled (p : Problem σ α) (x r : Array α) (ε : α) (q : σ) :
    (∀ j : Fin x.size,
      (forwardPoint x ε j)[j.val]? = x[j.val]?.map (· + ε) ∧
      (backwardPoint x ε j)[j.val]? = x[j.val]?.map (· - ε) ∧
      ∀ y ∈ differencePair x ε j, y.size = x.size ∧ ∀ i ≠ j.val, y[i]? = x[i]?) ∧
    ∃ samples result q',
      (centralDifference p.observed.residuals x r ε).run (q, []) =
        (result, q', samples.map Sample.call) ∧
      (centralDifference p.residuals x r ε).run q = (result, q') ∧
      Differenced x r.size ε samples result := by
  refine ⟨?_, ?_⟩
  · intro j
    have hmoved (t : α) : (x.set j t)[j.val]? = some t ∧ (x.set j t).size = x.size ∧
        ∀ i ≠ j.val, (x.set j t)[i]? = x[i]? :=
      ⟨Array.getElem?_set_self _, Array.size_set _, fun i hi => Array.getElem?_set_ne _ hi.symm⟩
    have hforward := hmoved (x[j] + ε)
    have hbackward := hmoved (x[j] - ε)
    rw [Array.getElem?_eq_getElem j.isLt]
    refine ⟨hforward.1, hbackward.1, ?_⟩
    intro y hy
    simp only [differencePair, List.mem_cons, List.not_mem_nil, or_false] at hy
    rcases hy with rfl | rfl
    · exact hforward.2
    · exact hbackward.2
  · have h := Solve.ensures_centralDifference p x r ε (.start (q, [])) rfl
    have hsame := centralDifference_observed p x r ε q []
    rcases hrun : (centralDifference p.observed.residuals x r ε).run (q, []) with
      ⟨result, q', calls⟩
    rw [hrun] at hsame
    rw [Solve.run_call_of_run hrun] at h
    cases result with
    | error e =>
      obtain ⟨samples, hspoilt, rfl⟩ := h
      exact ⟨samples, _, q', rfl, hsame, .of_spoilt hspoilt⟩
    | ok J =>
      obtain ⟨v, samples, hsampled, rfl, rfl⟩ := h
      exact ⟨samples, _, q', rfl, hsame, .of_sampled hsampled⟩

end
end LeastSquares
