import Mathlib.Data.Fin.Tuple.Basic
import Mathlib.Logic.Equiv.Basic
import Mathlib.Logic.Function.Basic
import Mathlib.Tactic.Common
import LeastSquares.Linear.Elimination

/-!
# The equations of a stage

What the steps of an elimination do to each equation, in any arithmetic: choosing a pivot exchanges
two equations (`System.get_pivoted`), so what holds of all equations is kept by it
(`System.forall_pivoted`), and elimination subtracts a multiple of the first one
(`System.get_eliminated`, `Equation.get_eliminate`).

`s.Reaches k t` says what an elimination has come to after `k` stages: `t` holds the equations and
the unknowns that are still active.  The elimination succeeds unless a stage that is reached has no
usable pivot (`System.reduce_eq_none_iff`), and then the equations of the triangular form are the
pivot equations of these stages (`System.getElem?_rows`).
-/

namespace LeastSquares

variable {α : Type} {n : Nat}

/-! ## the entries of a vector -/

section
variable {β γ : Type}

theorem ext_get {x y : Vector α n} (h : x.get = y.get) : x = y := by
  ext i hi
  exact congrFun h ⟨i, hi⟩

theorem get_ofFn (f : Fin n → α) : (Vector.ofFn f).get = f :=
  funext fun i => Vector.getElem_ofFn i.isLt

theorem get_map (f : α → β) (x : Vector α n) (i : Fin n) : (x.map f).get i = f (x.get i) :=
  Vector.getElem_map f i.isLt

theorem get_zipWith (f : α → β → γ) (x : Vector α n) (y : Vector β n) (i : Fin n) :
    (x.zipWith f y).get i = f (x.get i) (y.get i) := Vector.getElem_zipWith i.isLt

theorem get_set (x : Vector α n) (j : Fin n) (a : α) :
    (x.set j a j.isLt).get = Function.update x.get j a := by
  funext i
  show (x.set j a j.isLt)[i.val] = _
  rw [Vector.getElem_set]
  by_cases h : i = j
  · subst h
    rw [if_pos rfl, Function.update_self]
  · rw [if_neg fun hval => h (Fin.ext hval.symm), Function.update_of_ne h]
    rfl

end

/-! ## one stage -/

theorem System.get_of (a : Mat α n n) (b : Vector α n) (i : Fin n) :
    (System.of a b).get i = ⟨a.rows.get i, b.get i⟩ :=
  Vector.getElem_ofFn _

/-- the coefficients of all equations, which back substitution uses -/
def Triangular.coefficients : {n : Nat} → Triangular α n → List α
  | 0, .nil => []
  | _ + 1, .cons pivot coeffs _ rest => pivot :: (coeffs.toList ++ rest.coefficients)

/-- the equations with the numbers of their unknowns, the first one first -/
def Triangular.rows : {n : Nat} → Triangular α n → List (Σ m, Equation α m)
  | 0, .nil => []
  | n + 1, .cons pivot coeffs rhs rest =>
    ⟨n + 1, Vector.ofFn (Fin.cons pivot coeffs.get), rhs⟩ :: rest.rows

theorem Triangular.rows_cons (e : Equation α (n + 1)) (rest : Triangular α n) :
    (cons (e.coeffs.get 0) (Vector.ofFn fun k => e.coeffs.get k.succ) e.rhs rest).rows =
      ⟨n + 1, e⟩ :: rest.rows := by
  have hcoeffs : Vector.ofFn (Fin.cons (e.coeffs.get 0) fun k => e.coeffs.get k.succ) =
      e.coeffs := by
    apply ext_get
    rw [get_ofFn]
    exact Fin.cons_self_tail e.coeffs.get
  rw [rows, get_ofFn, hcoeffs]

theorem Triangular.exists_of_mem_coefficients {t : Triangular α n} {v : α}
    (hv : v ∈ t.coefficients) : ∃ row ∈ t.rows, ∃ j, v = row.2.coeffs.get j := by
  induction t with
  | nil => cases hv
  | @cons n pivot coeffs rhs rest ih =>
    have hget (j : Fin (n + 1)) : (Vector.ofFn (Fin.cons pivot coeffs.get)).get j =
        (Fin.cons pivot coeffs.get : Fin (n + 1) → α) j := congrFun (get_ofFn _) j
    rcases List.mem_cons.mp hv with rfl | hv
    · exact ⟨_, List.mem_cons_self, 0, (hget 0).symm⟩
    · rcases List.mem_append.mp hv with hv | hv
      · obtain ⟨j, hj, rfl⟩ := Vector.mem_iff_getElem.mp (Vector.mem_toList_iff.mp hv)
        exact ⟨_, List.mem_cons_self, Fin.succ ⟨j, hj⟩, (hget (Fin.succ ⟨j, hj⟩)).symm⟩
      · obtain ⟨row, hrow, hj⟩ := ih hv
        exact ⟨row, List.mem_cons_of_mem _ hrow, hj⟩

variable [Scalar α]

theorem System.get_pivoted (s : System α (n + 1)) (i : Fin (n + 1)) :
    s.pivoted.get i = s.get (Equiv.swap 0 s.pivotRow i) := by
  show s.pivoted[i.val] = _
  unfold System.pivoted
  rw [Vector.getElem_swap _ _ i.isLt]
  by_cases h0 : i = 0
  · subst h0
    rw [Equiv.swap_apply_left]
    rfl
  · have hne : i.val ≠ 0 := fun h => h0 (Fin.ext h)
    rw [if_neg hne]
    by_cases hp : i = s.pivotRow
    · rw [if_pos (congrArg Fin.val hp), hp, Equiv.swap_apply_right]
      rfl
    · rw [if_neg fun h => hp (Fin.ext h), Equiv.swap_apply_of_ne_of_ne h0 hp]
      rfl

theorem System.get_pivoted_zero (s : System α (n + 1)) : s.pivoted.get 0 = s.get s.pivotRow := by
  rw [System.get_pivoted, Equiv.swap_apply_left]

theorem System.forall_pivoted {s : System α (n + 1)} {P : Equation α (n + 1) → Prop} :
    (∀ i : Fin (n + 1), P (s.pivoted.get i)) ↔ ∀ i : Fin (n + 1), P (s.get i) := by
  simp only [System.get_pivoted]
  exact (Equiv.swap 0 s.pivotRow).forall_congr_right (q := fun i => P (s.get i))

theorem System.get_eliminated (s : System α (n + 1)) (i : Fin n) :
    s.eliminated.get i = (s.get 0).eliminate (s.get i.succ) :=
  Vector.getElem_ofFn _

theorem Equation.get_eliminate (lead e : Equation α (n + 1)) (k : Fin n) :
    (lead.eliminate e).coeffs.get k =
      e.coeffs.get k.succ - e.leading / lead.leading * lead.coeffs.get k.succ :=
  Vector.getElem_ofFn _

/-! ## the stages -/

/-- the multiple of the equation `lead` that elimination subtracts from `e` -/
def Equation.factor (lead e : Equation α (n + 1)) : α := e.leading / lead.leading

theorem System.get_coeffs_eliminated (s : System α (n + 1)) (i k : Fin n) :
    (s.eliminated.get i).coeffs.get k =
      (s.get i.succ).coeffs.get k.succ -
        (s.get 0).factor (s.get i.succ) * (s.get 0).coeffs.get k.succ := by
  rw [s.get_eliminated]
  exact Equation.get_eliminate _ _ _

theorem System.rhs_get_eliminated (s : System α (n + 1)) (i : Fin n) :
    (s.eliminated.get i).rhs =
      (s.get i.succ).rhs - (s.get 0).factor (s.get i.succ) * (s.get 0).rhs := by
  rw [s.get_eliminated]
  rfl

/-- `t` is what is active of the system `s` after `k` stages, each with a usable pivot -/
inductive System.Reaches (s : System α n) : (k : Nat) → {m : Nat} → System α m → Prop where
  | start : s.Reaches 0 s
  | stage {k m : Nat} {t : System α (m + 1)} (reached : s.Reaches k t)
      (usable : usablePivot (t.pivoted.get 0).leading = true) :
      s.Reaches (k + 1) t.pivoted.eliminated

namespace System.Reaches
variable {s : System α n} {k m : Nat} {t : System α m}

theorem size_eq (h : s.Reaches k t) : k + m = n := by
  induction h with
  | start => exact Nat.zero_add n
  | stage _ _ ih => omega

/-- the elimination succeeds if it succeeds on what is active -/
theorem isSome_reduce (h : s.Reaches k t) : s.reduce.isSome = t.reduce.isSome := by
  induction h with
  | start => rfl
  | stage _ usable ih => rw [ih, System.reduce_succ, if_pos usable, Option.isSome_map]

/-- the stages behind the first one -/
theorem behind {s : System α (n + 1)} (usable : usablePivot (s.pivoted.get 0).leading = true)
    (h : s.pivoted.eliminated.Reaches k t) : s.Reaches (k + 1) t := by
  induction h with
  | start => exact .stage .start usable
  | stage _ usable' ih => exact .stage ih usable'

/-- what is active becomes the rest of the triangular form -/
theorem exists_drop_rows (h : s.Reaches k t) {T : Triangular α n} (hs : s.reduce = some T) :
    ∃ rest, t.reduce = some rest ∧ rest.rows = T.rows.drop k := by
  induction h with
  | start => exact ⟨T, hs, rfl⟩
  | @stage k m t _ usable ih =>
    obtain ⟨U, hU, hrows⟩ := ih
    rw [System.reduce_succ, if_pos usable] at hU
    obtain ⟨rest, hrest, rfl⟩ := Option.map_eq_some_iff.mp hU
    refine ⟨rest, hrest, ?_⟩
    rw [← List.drop_drop, ← hrows]
    rfl

/-- the pivot equation of a stage is an equation of the triangular form -/
theorem getElem?_rows {t : System α (m + 1)} (h : s.Reaches k t) {T : Triangular α n}
    (hs : s.reduce = some T) : T.rows[k]? = some ⟨m + 1, t.pivoted.get 0⟩ := by
  obtain ⟨U, hU, hrows⟩ := h.exists_drop_rows hs
  rw [System.reduce_succ] at hU
  split at hU
  · obtain ⟨rest, -, rfl⟩ := Option.map_eq_some_iff.mp hU
    have hhead : (T.rows.drop k)[0]? = some ⟨m + 1, t.pivoted.get 0⟩ := by
      rw [← hrows]
      show (Triangular.cons ((t.pivoted.get 0).coeffs.get 0) _ _ rest).rows[0]? = _
      rw [Triangular.rows_cons]
      rfl
    simpa using hhead
  · cases hU

end System.Reaches

namespace System
variable {s : System α n}

theorem exists_of_getElem?_rows {T : Triangular α n} (h : s.reduce = some T) {k : Nat}
    {row : Σ m, Equation α m} (hrow : T.rows[k]? = some row) :
    ∃ (m : Nat) (t : System α (m + 1)), s.Reaches k t ∧ row = ⟨m + 1, t.pivoted.get 0⟩ := by
  induction n generalizing k with
  | zero =>
    cases T
    cases hrow
  | succ n ih =>
    rw [reduce_succ] at h
    split at h
    · rename_i usable
      obtain ⟨rest, hrest, rfl⟩ := Option.map_eq_some_iff.mp h
      change (Triangular.cons ((s.pivoted.get 0).coeffs.get 0) _ _ rest).rows[k]? = _ at hrow
      rw [Triangular.rows_cons] at hrow
      cases k with
      | zero => exact ⟨n, s, .start, (Option.some.inj hrow).symm⟩
      | succ k =>
        obtain ⟨m, t, ht, rfl⟩ := ih hrest hrow
        exact ⟨m, t, ht.behind usable, rfl⟩
    · cases h

/-- the equations of the triangular form are the pivot equations of the stages, in their order -/
theorem getElem?_rows {T : Triangular α n} (h : s.reduce = some T) {k : Nat}
    {row : Σ m, Equation α m} : T.rows[k]? = some row ↔
      ∃ (m : Nat) (t : System α (m + 1)), s.Reaches k t ∧ row = ⟨m + 1, t.pivoted.get 0⟩ := by
  refine ⟨exists_of_getElem?_rows h, ?_⟩
  rintro ⟨m, t, ht, rfl⟩
  exact ht.getElem?_rows h

theorem exists_unusable (h : s.reduce = none) : ∃ (k m : Nat) (t : System α (m + 1)),
    s.Reaches k t ∧ usablePivot (t.pivoted.get 0).leading = false := by
  induction n with
  | zero =>
    rw [reduce_zero] at h
    cases h
  | succ n ih =>
    rw [reduce_succ] at h
    split at h
    · rename_i usable
      obtain ⟨k, m, t, ht, hpivot⟩ := ih (Option.map_eq_none_iff.mp h)
      exact ⟨k + 1, m, t, ht.behind usable, hpivot⟩
    · rename_i hpivot
      exact ⟨0, n, s, .start, Bool.eq_false_iff.mpr hpivot⟩

theorem reduce_eq_none_iff : s.reduce = none ↔ ∃ (k m : Nat) (t : System α (m + 1)),
    s.Reaches k t ∧ usablePivot (t.pivoted.get 0).leading = false := by
  refine ⟨exists_unusable, ?_⟩
  rintro ⟨k, m, t, ht, hpivot⟩
  rw [← Option.isNone_iff_eq_none, ← Option.not_isSome, ht.isSome_reduce, reduce_succ, hpivot]
  rfl

theorem exists_of_mem_coefficients {T : Triangular α n} (h : s.reduce = some T) {v : α}
    (hv : v ∈ T.coefficients) : ∃ (k m : Nat) (t : System α (m + 1)), s.Reaches k t ∧
      ∃ j, v = (t.pivoted.get 0).coeffs.get j := by
  obtain ⟨row, hrow, j, rfl⟩ := Triangular.exists_of_mem_coefficients hv
  obtain ⟨k, hk⟩ := List.mem_iff_getElem?.mp hrow
  obtain ⟨m, t, ht, rfl⟩ := exists_of_getElem?_rows h hk
  exact ⟨k, m, t, ht, j, rfl⟩

end System

end LeastSquares
