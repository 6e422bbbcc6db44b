import Mathlib
import LeastSquares.Proofs.Solver.Control
import LeastSquares.Proofs.Solver.Run

/-!
# The decisions of a run

The log of a solve names what became of each step, and these decisions alone make the dampings of
the run: the passes of any problem are told by their decisions (`Notes.ofDecisions`), and
`Outcome.Follows` is what a whole solve shows of it.  So what is known of sequences of decisions
holds of all runs (`minimize_damping_controlled`, `minimize_damping_adjusted`).

A decision does not always move the damping as one would expect: the options allow a first damping
below `least`, and an accepted step raises that (`squareRoots_damping_raised`).
-/

namespace LeastSquares
open Binary64 (value value_two_pow le_iff_value)

variable {σ α : Type}

/-! ## the log -/

/-- what an event says about the step of its pass -/
def Event.accepted? : Event α → Option Bool
  | .candidate _ _ accepted => some accepted
  | .singular _ _ => some false
  | .pass .. | .disagreement .. | .finished .. => none

/-- the decisions of a log, the first one first -/
def decisions (log : Array (Event α)) : List Bool := log.toList.filterMap Event.accepted?

def Report.decisions (r : Report α) : List Bool := LeastSquares.decisions r.log

theorem decisions_push (log : Array (Event α)) (e : Event α) :
    decisions (log.push e) = decisions log ++ e.accepted?.toList := by
  unfold decisions
  rw [Array.toList_push, List.filterMap_append]
  cases he : e.accepted? <;> simp [he]

/-- the end of a solve decides nothing -/
theorem decisions_reported {s : Session σ α} (exit status : Status) (v : α) :
    decisions (Solve.reported s exit status v).log = decisions s.log := by
  have hdone : decisions (Solve.reported s exit status v).log =
      decisions (if status ≠ exit then s.log.push (.disagreement exit status) else s.log) :=
    (decisions_push _ _).trans (List.append_nil _)
  rw [hdone]
  split
  · exact (decisions_push _ _).trans (List.append_nil _)
  · rfl

/-! ## what a decision tells -/

variable [RealScalar α]

/-- what the decision of a pass from the state `a` to the point `y` and the damping `μ` tells; only
a pass below the tolerance has none -/
inductive Decides (tolerance : α) (a : Snapshot α) (y : Array α) (μ : α) : Option Bool → Prop where
  | stopped (below : a.residualNorm < tolerance) (damping : μ = a.damping) :
      Decides tolerance a y μ none
  | decided {accepted : Bool} (above : ¬ a.residualNorm < tolerance)
      (damping : μ = Damping.next accepted a.damping) (kept : accepted = false → y = a.point) :
      Decides tolerance a y μ (some accepted)

namespace Decides
variable {tolerance : α} {a : Snapshot α} {y : Array α} {μ : α} {decision : Option Bool}

theorem isSome_iff (h : Decides tolerance a y μ decision) :
    decision.isSome = true ↔ ¬ a.residualNorm < tolerance := by
  cases h with
  | stopped below _ => exact ⟨nofun, fun above => absurd below above⟩
  | decided above _ _ => exact ⟨fun _ => above, fun _ => rfl⟩

theorem damping_eq (h : Decides tolerance a y μ decision) :
    μ = Damping.after a.damping decision.toList := by
  cases h with
  | stopped _ hμ => exact hμ
  | decided _ hμ _ => exact hμ

theorem point_eq (h : Decides tolerance a y μ (some false)) : y = a.point := by
  cases h with
  | decided _ _ kept => exact kept rfl

end Decides

section
open Solve
variable {p : Problem σ α} {config : Config α} {n : Nat} {s s' : Session σ α}

theorem decisions_recorded {x r : Array α} (h : Returns (residuals p x) s r s') {i : Nat}
    {current : Iterate α n} :
    decisions (recorded s' i current (norm r)).log = decisions s.log := by
  obtain ⟨q, -, -, rfl⟩ := returns_residuals.mp h
  exact (decisions_push _ _).trans (List.append_nil _)

theorem decides_of_attempt {ε tolerance : α} {i : Nat} {current next : Iterate α n} {r : Array α}
    (above : ¬ norm r < tolerance) (h : Returns (attempt p ε i current r) s next s') :
    ∃ accepted, decisions s'.log = decisions s.log ++ [accepted] ∧
      Decides tolerance (current.snapshot i (norm r)) next.point.toArray next.damping
        (some accepted) := by
  obtain ⟨J, s₁, hJ, h⟩ := returns_attempt.mp h
  obtain ⟨q, -, rfl⟩ := returns_jacobian.mp hJ
  rcases h with ⟨-, rfl, rfl⟩ | ⟨step, c, s₂, -, hc, rfl, rfl⟩
  · exact ⟨false, decisions_push _ _, .decided above rfl fun _ => rfl⟩
  · obtain ⟨q', -, -, rfl⟩ := returns_residuals.mp hc
    refine ⟨_, decisions_push _ _, .decided above rfl ?_⟩
    intro hrejected
    rw [hrejected]
    rfl

/-- the decisions of a loop, which its log names -/
def Notes.ofDecisions (p : Problem σ α) (config : Config α) (n : Nat) :
    Notes p config n (Option Bool) where
  Adds s notes s' := decisions s'.log = decisions s.log ++ notes.reduceOption
  Tells := Decides config.tolerance
  nil s := (List.append_nil _).symm
  cons first rest := by
    rw [rest, first, List.append_assoc, ← List.reduceOption_append]
    rfl
  stop hr below :=
    ⟨none, (decisions_recorded hr).trans (List.append_nil _).symm, .stopped below rfl⟩
  pass hr above hn := by
    obtain ⟨accepted, hlog, hdecides⟩ := decides_of_attempt above hn
    rw [decisions_recorded hr] at hlog
    exact ⟨some accepted, hlog, hdecides⟩

end

/-! ## the states of a run -/

namespace Trace
variable {tolerance : α} {n budget i : Nat} {current last : Iterate α n}
  {records : List (Snapshot α)} {notes : List (Option Bool)} {exit : Status} {final : Snapshot α}

/-- only the last pass can be without a decision, so decision `k` is that of pass `k` -/
theorem getElem?_reduceOption
    (h : Trace tolerance (Decides tolerance) budget i current records notes last exit) (k : Nat) :
    notes.reduceOption[k]? = notes[k]?.join := by
  induction h generalizing k with
  | spent => rfl
  | stop below told =>
    obtain ⟨-, -⟩ | ⟨above, -, -⟩ := told
    · cases k <;> rfl
    · exact absurd below above
  | pass above told rest ih =>
    obtain ⟨below, -⟩ | ⟨-, -, -⟩ := told
    · exact absurd below above
    · cases k with
      | zero => rfl
      | succ k => exact ih k

/-- the first `k` decisions make the damping of state `k` -/
theorem getD_damping
    (h : Trace tolerance (Decides tolerance) budget i current records notes last exit)
    (hx : final.point = last.point.toArray) (hd : final.damping = last.damping) {k : Nat}
    (hk : k ≤ notes.length) : (records.getD k final).damping =
      Damping.after current.damping (notes.reduceOption.take k) := by
  induction k with
  | zero => exact (h.getD_zero hx hd).2
  | succ k ih =>
    have htake : notes.reduceOption.take (k + 1) =
        notes.reduceOption.take k ++ notes[k].toList := by
      rw [List.take_add_one, h.getElem?_reduceOption, List.getElem?_eq_getElem hk]
      rfl
    rw [(h.getD_told hx hd hk).damping_eq, ih (Nat.le_of_succ_le hk), htake,
      Damping.after_append]

end Trace

/-! ## a whole solve -/

/-- the states of the outcome `o` follow the decisions `ds` -/
structure Outcome.Follows (o : Outcome α) (config : Config α) (ds : List Bool) : Prop where
  length_le : ds.length ≤ o.history.size
  decided_iff : ∀ k < o.history.size,
    k < ds.length ↔ ¬ (o.state k).residualNorm < config.tolerance
  damping : ∀ k ≤ o.history.size,
    (o.state k).damping = Damping.after config.initialDamping (ds.take k)
  /-- a rejected pass keeps the point -/
  kept : ∀ k, ds[k]? = some false → (o.state (k + 1)).point = (o.state k).point

theorem Trace.follows {config : Config α} {n budget : Nat} {current last : Iterate α n}
    {notes : List (Option Bool)} {exit : Status} {o : Outcome α}
    (h : Trace config.tolerance (Decides config.tolerance) budget 0 current o.history.toList notes
      last exit) (hinitial : current.damping = config.initialDamping)
    (hx : o.final.point = last.point.toArray) (hd : o.final.damping = last.damping) :
    o.Follows config notes.reduceOption := by
  have hlength : notes.length = o.history.size := h.length_eq
  have hdecides (k : Nat) (hk : k < notes.length) : Decides config.tolerance (o.state k)
      (o.state (k + 1)).point (o.state (k + 1)).damping notes[k] := h.getD_told hx hd hk
  have hnote (k : Nat) (hk : k < notes.length) : notes.reduceOption[k]? = notes[k] := by
    rw [h.getElem?_reduceOption, List.getElem?_eq_getElem hk]
    rfl
  constructor
  case length_le =>
    rw [← hlength]
    exact List.reduceOption_length_le notes
  case decided_iff =>
    intro k hk
    rw [← hlength] at hk
    rw [← (hdecides k hk).isSome_iff, ← hnote k hk, Option.isSome_iff_ne_none, ne_eq,
      List.getElem?_eq_none_iff, Nat.not_le]
  case damping =>
    intro k hk
    rw [← hinitial]
    exact h.getD_damping hx hd (hlength ▸ hk)
  case kept =>
    intro k hk
    obtain ⟨hlt, -⟩ := List.getElem?_eq_some_iff.mp hk
    have hk' : k < notes.length := Nat.lt_of_lt_of_le hlt (List.reduceOption_length_le notes)
    have hdecided := hdecides k hk'
    rw [← hnote k hk', hk] at hdecided
    exact hdecided.point_eq

theorem Outcome.Follows.of_minimize {p : Problem σ α} {config : Config α} {x₀ : Array α} {q : σ}
    {o : Outcome α} (h : ((minimize config p x₀).run q).1.result = .ok o) :
    o.Follows config ((minimize config p x₀).run q).1.decisions := by
  obtain ⟨last, exit, s, r, s', hsolved⟩ := exists_solved h
  obtain ⟨notes, hadds, htrace⟩ :=
    (Notes.ofDecisions p config x₀.size).trace_of_solved hsolved
  have hlog : ((minimize config p x₀).run q).1.decisions = notes.reduceOption := by
    obtain ⟨q', -, -, hs'⟩ := Solve.returns_residuals.mp hsolved.evaluated
    rw [hsolved.run]
    show decisions (Solve.reported s' exit o.status o.residualNorm).log = _
    rw [decisions_reported, hs']
    exact hadds
  rw [hlog]
  exact htrace.follows rfl hsolved.point_final hsolved.damping_final

/-- **Control of the damping.**  Every initial damping that the options allow is controlled under
all sequences of decisions, so all dampings of all solves are positive and finite. -/
theorem minimize_damping_controlled {config : Config Float} (h : config.validate = .ok ()) :
    Damping.Controlled config.initialDamping ∧
      ∀ {σ : Type} (p : Problem σ Float) (x₀ : Array Float) (q : σ) (o : Outcome Float),
        ((minimize config p x₀).run q).1.result = .ok o →
          ∀ k ≤ o.history.size, Config.isPositiveFinite (o.state k).damping = true := by
  have hinitial := (Config.validate_eq_ok.mp h).1
  refine ⟨Damping.controlled hinitial, ?_⟩
  intro σ p x₀ q o ho k hk
  rw [(Outcome.Follows.of_minimize ho).damping k hk]
  exact Damping.isPositiveFinite_after hinitial _

theorem quarter_staysInRange (b : Bool) : Damping.StaysInRange 0.25 [b, !b] := by
  have heighth : value 0.125 = 1 / 8 := (value_two_pow (e := -55) rfl).trans (by norm_num)
  have hquarter : value 0.25 = 1 / 4 := (value_two_pow (e := -54) rfl).trans (by norm_num)
  have hhalf : value 0.5 = 1 / 2 := (value_two_pow (e := -53) rfl).trans (by norm_num)
  have hleast : value RealScalar.least ≤ 1 / 8 :=
    heighth ▸ (le_iff_value rfl rfl).mp (of_decide_eq_true rfl)
  have hgreatest : 1 / 2 ≤ value RealScalar.greatest :=
    hhalf ▸ (le_iff_value rfl rfl).mp (of_decide_eq_true rfl)
  intro ds hprefix hne
  have hcases : ds = [b] ∨ ds = [b, !b] := by
    simpa [List.prefix_cons_iff, hne, and_or_left, exists_or] using hprefix
  rw [hquarter]
  rcases hcases with rfl | rfl
  · cases b <;> norm_num [Damping.balance] <;> constructor <;> linarith
  · cases b <;> norm_num [Damping.balance] <;> constructor <;> linarith

/-- doubled and halved again, or the other way round, the damping of `twoPasses` is the same -/
theorem twoPasses_damping_controlled : twoPasses.validate = .ok () ∧
    Damping.after twoPasses.initialDamping [false, true] =
      Damping.after twoPasses.initialDamping [true, false] ∧
    ∃ o, (runSquareRoots #[0.25]).result = .ok o ∧
      ∀ k ≤ o.history.size, Config.isPositiveFinite (o.state k).damping = true := by
  have hvalid : twoPasses.validate = .ok () := rfl
  obtain ⟨o, ho⟩ := exists_quarter_outcome
  obtain ⟨hcontrolled, hrun⟩ := minimize_damping_controlled hvalid
  refine ⟨hvalid, ?_, o, ho, hrun squareRoots.toProblem #[0.25] () o ho⟩
  exact hcontrolled.eq_of_count_eq [false, true] [true, false] (quarter_staysInRange false)
    (quarter_staysInRange true) rfl rfl

/-- **What the decisions of a run make of the damping.**  A rejected pass raises it, unless it is
the greatest one, and an accepted pass lowers it, unless it is the least one or below.  Below the
least one there can only be an initial damping and what rejections have made of it, and from there
an accepted pass leads up to the least one. -/
theorem minimize_damping_adjusted {p : Problem σ Float} {config : Config Float} {x₀ : Array Float}
    {q : σ} {o : Outcome Float} (h : ((minimize config p x₀).run q).1.result = .ok o) :
    o.Follows config ((minimize config p x₀).run q).1.decisions ∧
      ∀ k accepted, ((minimize config p x₀).run q).1.decisions[k]? = some accepted →
        Damping.Adjusted accepted (o.state k).damping (o.state (k + 1)).damping ∧
          ((o.state k).damping < RealScalar.least → config.initialDamping < RealScalar.least ∧
            ∀ accepted ∈ ((minimize config p x₀).run q).1.decisions.take k, accepted = false) := by
  have hfollows := Outcome.Follows.of_minimize h
  have hinitial := (Config.validate_eq_ok.mp (validate_of_minimize h)).1
  refine ⟨hfollows, ?_⟩
  generalize ((minimize config p x₀).run q).1.decisions = ds at hfollows ⊢
  intro k accepted hk
  obtain ⟨hlt, hget⟩ := List.getElem?_eq_some_iff.mp hk
  have hsize := hfollows.length_le
  have htake : ds.take (k + 1) = ds.take k ++ [accepted] := by
    rw [List.take_add_one, hk]
    rfl
  rw [hfollows.damping k (by omega), hfollows.damping (k + 1) (by omega), htake,
    Damping.after_concat]
  exact ⟨Damping.adjusted_next (Damping.isPositiveFinite_after hinitial _) accepted,
    Damping.rejected_of_after_lt_least hinitial⟩

theorem squareRoots_damping_adjusted : ∃ o, (runSquareRoots #[0.25]).result = .ok o ∧
    o.Follows twoPasses [false, true] ∧
    Damping.Adjusted false (o.state 0).damping (o.state 1).damping ∧
    Damping.Adjusted true (o.state 1).damping (o.state 2).damping := by
  have hdecisions : (runSquareRoots #[0.25]).decisions = [false, true] := by decide +kernel
  obtain ⟨o, ho⟩ := exists_quarter_outcome
  obtain ⟨hfollows, hadjusted⟩ := minimize_damping_adjusted ho
  refine ⟨o, ho, hdecisions ▸ hfollows, ?_, ?_⟩
  · exact (hadjusted 0 false (congrArg (·[0]?) hdecisions)).1
  · exact (hadjusted 1 true (congrArg (·[1]?) hdecisions)).1

/-- one pass with the subnormal initial damping `2^-1024` -/
def subnormalDamping : Config Float := ⟨1, 1e-8, Float.ofBits 0x0004000000000000, 1e-8⟩

/-- the only pass is accepted, and its damping becomes four times as large -/
theorem squareRoots_damping_raised : subnormalDamping.validate = .ok () ∧
    ∃ o, ((minimize subnormalDamping squareRoots.toProblem #[1.0]).run ()).1.result = .ok o ∧
      ((minimize subnormalDamping squareRoots.toProblem #[1.0]).run ()).1.decisions = [true] ∧
      (o.state 0).damping = Float.ofBits 0x0004000000000000 ∧
      (o.state 1).damping = RealScalar.least ∧ (o.state 0).damping < (o.state 1).damping := by
  have hrun : (((minimize subnormalDamping (squareRoots.toProblem : Problem Unit Float)
      #[1.0]).run ()).1.result.toOption.any fun o =>
        (o.state 0).damping.toBits = 0x0004000000000000 ∧
          (o.state 1).damping.toBits = 0x0010000000000000) = true := by
    decide +kernel
  have hdecisions : ((minimize subnormalDamping (squareRoots.toProblem : Problem Unit Float)
      #[1.0]).run ()).1.decisions = [true] := by
    decide +kernel
  obtain ⟨o, ho, hstates⟩ := Report.exists_outcome_of_any hrun
  obtain ⟨h0, h1⟩ := of_decide_eq_true hstates
  have h0 : (o.state 0).damping = Float.ofBits 0x0004000000000000 := Float.toBits_inj.mp h0
  have h1 : (o.state 1).damping = RealScalar.least := Float.toBits_inj.mp h1
  refine ⟨rfl, o, ho, hdecisions, h0, h1, ?_⟩
  rw [h0, h1]
  exact of_decide_eq_true rfl

end LeastSquares
