import Mathlib
import LeastSquares.Config
import LeastSquares.Proofs.Binary64.ExactScaling
import LeastSquares.Step

/-!
# The damping under a sequence of decisions

Halving stays finite and stops at `least`, doubling stays positive and stops at `greatest`: from a
positive finite damping every later one is positive and finite (`isPositiveFinite_next`).  In terms
of values (`value_relax`, `value_tighten`) an accepted step halves the damping, but not below
`least`, and a rejected one doubles it, but not above `greatest`.  From there:

* `Damping.Controlled`   what holds of every sequence of decisions: the damping stays positive and
                         finite, it stays in the range it has started in, and as long as no bound
                         has been reached it is a power of two times the first one, whatever the
                         order of the decisions was;
* `Damping.Adjusted`     what one decision does.  Below `least`, where a subnormal damping can
                         start, an accepted step does not lower the damping but raises it.
-/

namespace LeastSquares.Damping
open Binary64

variable {x : Float}

/-! ## positive and finite -/

theorem isPositiveFinite_iff :
    Config.isPositiveFinite x = true ↔ (0.0 : Float) < x ∧ x.isFinite = true := by
  unfold Config.isPositiveFinite
  rw [Bool.and_eq_true, decide_eq_true_iff]
  rfl

theorem isPositiveFinite_of_unpack {m : Nat} {e : Int} {h : 0 < m}
    (hx : x.toModel.unpack = .finite .positive m e h) : Config.isPositiveFinite x = true := by
  refine isPositiveFinite_iff.mpr ⟨zero_lt_iff.mpr (hx ▸ trivial), ?_⟩
  show x.toModel.unpack.isFinite = true
  rw [hx]
  rfl

theorem isPositiveFinite_least : Config.isPositiveFinite (RealScalar.least : Float) = true :=
  isPositiveFinite_of_unpack unpack_least

theorem isPositiveFinite_greatest :
    Config.isPositiveFinite (RealScalar.greatest : Float) = true :=
  isPositiveFinite_of_unpack unpack_greatest

theorem isPositiveFinite_relax (h : Config.isPositiveFinite x = true) :
    Config.isPositiveFinite (relax x) = true := by
  unfold relax
  dsimp only
  split
  · rename_i hhalf
    have hleast := isPositiveFinite_least
    rw [isPositiveFinite_iff] at h hleast ⊢
    exact ⟨Binary64.lt_trans hleast.1 hhalf, isFinite_div_two h.2⟩
  · exact isPositiveFinite_least

theorem isPositiveFinite_tighten (h : Config.isPositiveFinite x = true) :
    Config.isPositiveFinite (tighten x) = true := by
  unfold tighten
  dsimp only
  split
  · rename_i hdouble
    rw [isPositiveFinite_iff] at h ⊢
    have hpos := zero_lt_mul_two h.1
    exact ⟨hpos, isFinite_of_lt_of_lt hpos hdouble⟩
  · exact isPositiveFinite_greatest

theorem isPositiveFinite_next (accepted : Bool)
    (h : Config.isPositiveFinite x = true) : Config.isPositiveFinite (next accepted x) = true := by
  cases accepted with
  | true => exact isPositiveFinite_relax h
  | false => exact isPositiveFinite_tighten h

/-! ## one decision -/

theorem value_relax (h : Config.isPositiveFinite x = true) :
    value (relax x) = max (value x / 2) (value RealScalar.least) := by
  obtain ⟨hpos, hx⟩ := isPositiveFinite_iff.mp h
  have hhalf : RealScalar.least < x / 2.0 ↔ value RealScalar.least < value (x / 2.0) :=
    lt_iff_value (isPositiveFinite_iff.mp isPositiveFinite_least).2 (isFinite_div_two hx)
  have hrelax : relax x = if RealScalar.least < x / 2.0 then x / 2.0 else RealScalar.least := rfl
  rcases le_or_gt (2 * value RealScalar.least) (value x) with hlarge | hsmall
  · rw [value_div_two hpos hx hlarge] at hhalf
    rw [hrelax]
    split
    · rename_i hlt
      rw [value_div_two hpos hx hlarge, max_eq_left (hhalf.mp hlt).le]
    · rename_i hlt
      rw [max_eq_right (not_lt.mp (mt hhalf.mpr hlt))]
  · have hle := value_div_two_le hpos hx hsmall
    rw [hrelax, if_neg (mt hhalf.mp hle.not_gt), max_eq_right]
    linarith

theorem value_tighten (h : Config.isPositiveFinite x = true) :
    value (tighten x) = min (2 * value x) (value RealScalar.greatest) := by
  obtain ⟨hpos, hx⟩ := isPositiveFinite_iff.mp h
  have htighten : tighten x =
    if x * 2.0 < RealScalar.greatest then x * 2.0 else RealScalar.greatest := rfl
  rw [htighten]
  by_cases hdouble : (x * 2.0).isFinite = true
  · have hlt : x * 2.0 < RealScalar.greatest ↔ value (x * 2.0) < value RealScalar.greatest :=
      lt_iff_value hdouble (isPositiveFinite_iff.mp isPositiveFinite_greatest).2
    rw [value_mul_two hpos hx hdouble] at hlt
    split
    · rename_i hbelow
      rw [value_mul_two hpos hx hdouble, min_eq_left (hlt.mp hbelow).le]
    · rename_i habove
      rw [min_eq_right (not_lt.mp (mt hlt.mpr habove))]
  · have habove : ¬ x * 2.0 < RealScalar.greatest := by
      intro hlt
      exact hdouble (isFinite_of_lt_of_lt (zero_lt_mul_two hpos) hlt)
    rw [if_neg habove, min_eq_right (greatest_lt_of_overflow hpos hx hdouble).le]

/-! ## the order of dampings -/

section
variable {y : Float}

theorem le_iff (h : Config.isPositiveFinite x = true) (h' : Config.isPositiveFinite y = true) :
    x ≤ y ↔ value x ≤ value y :=
  le_iff_value (isPositiveFinite_iff.mp h).2 (isPositiveFinite_iff.mp h').2

theorem lt_iff (h : Config.isPositiveFinite x = true) (h' : Config.isPositiveFinite y = true) :
    x < y ↔ value x < value y :=
  lt_iff_value (isPositiveFinite_iff.mp h).2 (isPositiveFinite_iff.mp h').2

theorem eq_iff (h : Config.isPositiveFinite x = true) (h' : Config.isPositiveFinite y = true) :
    x = y ↔ value x = value y :=
  ⟨congrArg value, eq_of_value_eq (isPositiveFinite_iff.mp h).1 (isPositiveFinite_iff.mp h).2
    (isPositiveFinite_iff.mp h').2⟩

end

theorem damping_pos (h : Config.isPositiveFinite x = true) : 0 < value x :=
  value_pos (isPositiveFinite_iff.mp h).1 (isPositiveFinite_iff.mp h).2

theorem damping_le_greatest (h : Config.isPositiveFinite x = true) :
    value x ≤ value RealScalar.greatest :=
  value_le_greatest (isPositiveFinite_iff.mp h).1 (isPositiveFinite_iff.mp h).2

/-- `y` is what the damping `x` becomes by one decision.  Below `least` an accepted step raises the
damping. -/
structure Adjusted (accepted : Bool) (x y : Float) : Prop where
  tightened : accepted = false → x ≤ y ∧ (x ≠ RealScalar.greatest → x < y)
  relaxed : accepted = true → RealScalar.least ≤ x →
    y ≤ x ∧ (x ≠ RealScalar.least → y < x)
  lifted : accepted = true → x < RealScalar.least → y = RealScalar.least

theorem adjusted_next (h : Config.isPositiveFinite x = true) (accepted : Bool) :
    Adjusted accepted x (next accepted x) := by
  have hnext := isPositiveFinite_next accepted h
  have hpos := damping_pos h
  constructor
  case tightened =>
    rintro rfl
    have hvalue : value (next false x) = min (2 * value x) (value RealScalar.greatest) :=
      value_tighten h
    have hmax := damping_le_greatest h
    rw [le_iff h hnext, lt_iff h hnext, ne_eq, eq_iff h isPositiveFinite_greatest, hvalue]
    refine ⟨le_min (by linarith) hmax, ?_⟩
    intro hne
    exact lt_min (by linarith) (lt_of_le_of_ne hmax hne)
  case relaxed =>
    rintro rfl hleast
    have hvalue : value (next true x) = max (value x / 2) (value RealScalar.least) := value_relax h
    rw [le_iff isPositiveFinite_least h] at hleast
    rw [le_iff hnext h, lt_iff hnext h, ne_eq, eq_iff h isPositiveFinite_least, hvalue]
    refine ⟨max_le (by linarith) hleast, ?_⟩
    intro hne
    exact max_lt (by linarith) (lt_of_le_of_ne hleast (Ne.symm hne))
  case lifted =>
    rintro rfl hbelow
    have hvalue : value (next true x) = max (value x / 2) (value RealScalar.least) := value_relax h
    rw [lt_iff h isPositiveFinite_least] at hbelow
    rw [eq_iff hnext isPositiveFinite_least, hvalue]
    exact max_eq_right (by linarith)

/-! ## a sequence of decisions -/

/-- the damping behind some decisions, the first one first -/
def after {α : Type} [RealScalar α] (x : α) (decisions : List Bool) : α :=
  decisions.foldl (fun y accepted => next accepted y) x

theorem after_append {α : Type} [RealScalar α] (x : α) (ds ds' : List Bool) :
    after x (ds ++ ds') = after (after x ds) ds' := List.foldl_append

theorem after_concat {α : Type} [RealScalar α] (x : α) (ds : List Bool) (accepted : Bool) :
    after x (ds ++ [accepted]) = next accepted (after x ds) := after_append x ds [accepted]

/-- how many more steps have been rejected than accepted -/
def balance (decisions : List Bool) : ℤ := decisions.count false - decisions.count true

theorem balance_concat_true (ds : List Bool) : balance (ds ++ [true]) = balance ds - 1 := by
  simp [balance]
  omega

theorem balance_concat_false (ds : List Bool) : balance (ds ++ [false]) = balance ds + 1 := by
  simp [balance]
  omega

def InRange (x : Float) : Prop := RealScalar.least ≤ x ∧ x ≤ RealScalar.greatest

/-- doubling and halving as the decisions say leads to a value in the range each time -/
def StaysInRange (x : Float) (decisions : List Bool) : Prop :=
  ∀ ds, ds <+: decisions → ds ≠ [] →
    value RealScalar.least ≤ value x * 2 ^ balance ds ∧
      value x * 2 ^ balance ds ≤ value RealScalar.greatest

/-- what holds of every sequence of decisions from the damping `x` on -/
structure Controlled (x : Float) : Prop where
  positiveFinite : ∀ ds, Config.isPositiveFinite (after x ds) = true
  inRange : InRange x → ∀ ds, InRange (after x ds)
  exact : ∀ ds, StaysInRange x ds → ∀ ds', ds' <+: ds →
    value (after x ds') = value x * 2 ^ balance ds'
  /-- the order of the decisions does not matter -/
  eq_of_count_eq : ∀ ds ds', StaysInRange x ds → StaysInRange x ds' →
    ds.count true = ds'.count true → ds.count false = ds'.count false → after x ds = after x ds'

theorem isPositiveFinite_after (h : Config.isPositiveFinite x = true) (ds : List Bool) :
    Config.isPositiveFinite (after x ds) = true := by
  induction ds using List.reverseRecOn with
  | nil => exact h
  | append_singleton ds accepted ih =>
    rw [after_concat]
    exact isPositiveFinite_next accepted ih

theorem inRange_iff (h : Config.isPositiveFinite x = true) :
    InRange x ↔ value RealScalar.least ≤ value x := by
  unfold InRange
  rw [le_iff isPositiveFinite_least h, le_iff h isPositiveFinite_greatest]
  exact and_iff_left (damping_le_greatest h)

theorem least_le_value_next (h : Config.isPositiveFinite x = true)
    (hleast : value RealScalar.least ≤ value x) (accepted : Bool) :
    value RealScalar.least ≤ value (next accepted x) := by
  cases accepted with
  | true =>
    rw [next_true, value_relax h]
    exact le_max_right _ _
  | false =>
    have hpos := damping_pos h
    rw [next_false, value_tighten h]
    exact le_min (by linarith) (hleast.trans (damping_le_greatest h))

theorem least_le_value_after (h : Config.isPositiveFinite x = true)
    (hleast : value RealScalar.least ≤ value x) (ds : List Bool) :
    value RealScalar.least ≤ value (after x ds) := by
  induction ds using List.reverseRecOn with
  | nil => exact hleast
  | append_singleton ds accepted ih =>
    rw [after_concat]
    exact least_le_value_next (isPositiveFinite_after h ds) ih accepted

/-- the decisions are undone one by one from the last one on: each is exact, because its result is
in the range -/
theorem value_after (h : Config.isPositiveFinite x = true) (ds : List Bool)
    (hstays : StaysInRange x ds) : value (after x ds) = value x * 2 ^ balance ds := by
  induction ds using List.reverseRecOn with
  | nil => exact (mul_one _).symm
  | append_singleton ds accepted ih =>
    have hinit : StaysInRange x ds := fun ds' hds' =>
      hstays ds' (hds'.trans (List.prefix_append ds [accepted]))
    obtain ⟨hleast, hgreatest⟩ := hstays _ List.prefix_rfl (List.concat_ne_nil accepted ds)
    have hdamping := isPositiveFinite_after h ds
    rw [after_concat]
    cases accepted with
    | true =>
      have hhalf : value x * 2 ^ balance (ds ++ [true]) = value (after x ds) / 2 := by
        rw [ih hinit, balance_concat_true, zpow_sub_one₀ two_ne_zero]
        ring
      rw [next_true, value_relax hdamping, hhalf]
      exact max_eq_left (hhalf ▸ hleast)
    | false =>
      have hdouble : value x * 2 ^ balance (ds ++ [false]) = 2 * value (after x ds) := by
        rw [ih hinit, balance_concat_false, zpow_add_one₀ two_ne_zero]
        ring
      rw [next_false, value_tighten hdamping, hdouble]
      exact min_eq_left (hdouble ▸ hgreatest)

theorem controlled (h : Config.isPositiveFinite x = true) : Controlled x := by
  constructor
  case positiveFinite => exact isPositiveFinite_after h
  case inRange =>
    intro hx ds
    rw [inRange_iff h] at hx
    exact (inRange_iff (isPositiveFinite_after h ds)).mpr (least_le_value_after h hx ds)
  case exact =>
    intro ds hstays ds' hprefix
    exact value_after h ds' fun ds'' hds'' => hstays ds'' (hds''.trans hprefix)
  case eq_of_count_eq =>
    intro ds ds' hds hds' htrue hfalse
    have hbalance : balance ds = balance ds' := by
      unfold balance
      rw [htrue, hfalse]
    rw [eq_iff (isPositiveFinite_after h ds) (isPositiveFinite_after h ds'), value_after h ds hds,
      value_after h ds' hds', hbalance]

/-- below `least` there is only the first damping, doubled by rejections -/
theorem rejected_of_after_lt_least (h : Config.isPositiveFinite x = true) {ds : List Bool}
    (hbelow : after x ds < RealScalar.least) :
    x < RealScalar.least ∧ ∀ accepted ∈ ds, accepted = false := by
  induction ds using List.reverseRecOn with
  | nil => exact ⟨hbelow, nofun⟩
  | append_singleton ds accepted ih =>
    have hdamping := isPositiveFinite_after h ds
    have hpos := damping_pos hdamping
    rw [lt_iff (isPositiveFinite_after h _) isPositiveFinite_least, after_concat] at hbelow
    cases accepted with
    | true =>
      rw [next_true, value_relax hdamping] at hbelow
      exact absurd hbelow (le_max_right _ _).not_gt
    | false =>
      rw [next_false, value_tighten hdamping, min_lt_iff] at hbelow
      have hdouble : 2 * value (after x ds) < value RealScalar.least :=
        hbelow.resolve_right (damping_le_greatest isPositiveFinite_least).not_gt
      obtain ⟨hx, hds⟩ := ih ((lt_iff hdamping isPositiveFinite_least).mpr (by linarith))
      refine ⟨hx, ?_⟩
      intro accepted haccepted
      rcases List.mem_append.mp haccepted with hmem | hmem
      · exact hds accepted hmem
      · exact List.mem_singleton.mp hmem

end LeastSquares.Damping
