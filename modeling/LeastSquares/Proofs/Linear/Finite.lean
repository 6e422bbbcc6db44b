import LeastSquares.Proofs.Binary64.Finite
import LeastSquares.Proofs.Linear.System
import LeastSquares.Step

/-!
# Matrices with entries that are not finite

Elimination checks its pivots only, yet it never succeeds on a matrix with an infinity or a NaN
anywhere: where a stage has a finite pivot and leaves finite coefficients, all coefficients before
it were finite (`System.finite_of_reduce`).  An entry that is not finite spreads to the equation
it stands in, or, from the pivot equation, to all others, until it is met as a pivot.

The same holds of the damped step, because every entry of `J` is squared in a sum on the diagonal
of `JᵀJ`.
-/

namespace LeastSquares
open FiniteOperands

theorem forall_mem_of_split {β : Type} {P : β → Prop} {l : List β} {k : Nat}
    (htake : ∀ t ∈ l.take k, P t) (hdrop : ∀ t ∈ l.drop k, P t) : ∀ t ∈ l, P t := by
  intro t ht
  rw [← List.take_append_drop k l] at ht
  exact (List.mem_append.mp ht).elim (htake t) (hdrop t)

variable {α : Type} [Scalar α] {m n : Nat}

theorem isFinite_of_usablePivot {p : α} (h : usablePivot p = true) : Scalar.isFinite p = true :=
  (Bool.and_eq_true_iff.mp h).2

variable [FiniteOperands α]

/-! ## sums -/

theorem isFinite_of_sumFrom {start : α} {terms : List α}
    (h : Scalar.isFinite (sumFrom start terms) = true) :
    Scalar.isFinite start = true ∧ ∀ t ∈ terms, Scalar.isFinite t = true := by
  induction terms generalizing start with
  | nil => exact ⟨h, nofun⟩
  | cons t terms ih =>
    obtain ⟨hsum, hterms⟩ := ih h
    obtain ⟨hstart, ht⟩ := of_add hsum
    exact ⟨hstart, List.forall_mem_cons.mpr ⟨ht, hterms⟩⟩

theorem isFinite_of_addBlocks {start : α} {terms : List α}
    (h : Scalar.isFinite (addBlocks start terms) = true) :
    Scalar.isFinite start = true ∧ ∀ t ∈ terms, Scalar.isFinite t = true := by
  fun_induction addBlocks start terms with
  | case1 start terms _ ih =>
    obtain ⟨hsum, hdrop⟩ := ih h
    obtain ⟨hstart, hblock⟩ := of_add hsum
    exact ⟨hstart, forall_mem_of_split (isFinite_of_sumFrom hblock).2 hdrop⟩
  | case2 start terms hlength =>
    have hnil : terms = [] := List.eq_nil_of_length_eq_zero (Nat.eq_zero_of_not_pos hlength)
    rw [hnil]
    exact ⟨h, nofun⟩

theorem isFinite_of_sumBlocks {terms : List α} (h : Scalar.isFinite (sumBlocks terms) = true) :
    ∀ t ∈ terms, Scalar.isFinite t = true := by
  obtain ⟨hblock, hdrop⟩ := isFinite_of_addBlocks h
  exact forall_mem_of_split (isFinite_of_sumFrom hblock).2 hdrop

/-! ## elimination -/

def Equation.Finite (e : Equation α n) : Prop :=
  ∀ k : Fin n, Scalar.isFinite (e.coeffs.get k) = true

/-- a finite remainder comes from finite coefficients behind the leading ones, and from a finite
multiple -/
theorem Equation.isFinite_of_eliminate {lead e : Equation α (n + 1)} {k : Fin n}
    (h : Scalar.isFinite ((lead.eliminate e).coeffs.get k) = true) :
    Scalar.isFinite (e.coeffs.get k.succ) = true ∧
      Scalar.isFinite (lead.coeffs.get k.succ) = true ∧
      Scalar.isFinite (e.leading / lead.leading) = true := by
  rw [Equation.get_eliminate] at h
  obtain ⟨hk, hproduct⟩ := of_sub h
  obtain ⟨hfactor, hlead⟩ := of_mul hproduct
  exact ⟨hk, hlead, hfactor⟩

/-- one stage: with a finite pivot, finite equations come from finite equations -/
theorem System.finite_of_eliminated {s : System α (n + 1)}
    (hpivot : Scalar.isFinite (s.get 0).leading = true)
    (h : ∀ i : Fin n, (s.eliminated.get i).Finite) (i : Fin (n + 1)) : (s.get i).Finite := by
  have hparts (i k : Fin n) := Equation.isFinite_of_eliminate (s.get_eliminated i ▸ h i k)
  cases i using Fin.cases with
  | zero =>
    intro k
    cases k using Fin.cases with
    | zero => exact hpivot
    -- an unknown behind the leading one comes with an equation behind the first one
    | succ k => exact (hparts k k).2.1
  | succ i =>
    intro k
    cases k using Fin.cases with
    | zero => exact of_div (hparts i i).2.2 hpivot
    | succ k => exact (hparts i k).1

/-- if every pivot is usable, every coefficient is finite -/
theorem System.finite_of_reduce {n : Nat} {s : System α n} {t : Triangular α n}
    (h : s.reduce = some t) (i : Fin n) : (s.get i).Finite := by
  induction n with
  | zero => exact i.elim0
  | succ n ih =>
    rw [System.reduce_succ] at h
    split at h
    · rename_i hpivot
      obtain ⟨rest, hrest, -⟩ := Option.map_eq_some_iff.mp h
      refine System.forall_pivoted (P := Equation.Finite) |>.mp ?_ i
      exact System.finite_of_eliminated (isFinite_of_usablePivot hpivot) (ih hrest)
    · cases h

namespace Mat

/-- with an infinity or a NaN among the entries -/
def HasNonFinite (a : Mat α m n) : Prop :=
  ∃ (i : Fin m) (j : Fin n), Scalar.isFinite (a.entry i j) = false

theorem isFinite_of_solve {a : Mat α n n} {b x : Vector α n} (h : a.solve b = some x)
    (i j : Fin n) : Scalar.isFinite (a.entry i j) = true := by
  obtain ⟨t, ht, -⟩ := Option.map_eq_some_iff.mp h
  have hi := System.finite_of_reduce ht i
  rw [System.get_of] at hi
  exact hi j

theorem solve_of_hasNonFinite {a : Mat α n n} (h : a.HasNonFinite) (b : Vector α n) :
    a.solve b = none := by
  obtain ⟨i, j, hij⟩ := h
  rw [Option.eq_none_iff_forall_ne_some]
  intro x hx
  rw [isFinite_of_solve hx i j] at hij
  cases hij

end Mat

/-! ## the damped step -/

/-- the entries of a column are squared on the diagonal -/
theorem isFinite_of_dampedNormal {J : Mat α m n} {damping : α} {j : Fin n}
    (h : Scalar.isFinite ((dampedNormal J damping).entry j j) = true) (i : Fin m) :
    Scalar.isFinite (J.entry i j) = true := by
  rw [dampedNormal, Mat.entry_addDiagonal, if_pos rfl, Mat.entry_mul] at h
  have hterms := isFinite_of_sumBlocks (of_add h).1
  have hsquare := hterms _ (List.mem_ofFn.mpr ⟨i, rfl⟩)
  exact (of_mul hsquare).2

theorem dampedStep_of_hasNonFinite {J : Mat α m n} (h : J.HasNonFinite) (r : Vector α m)
    (damping : α) : dampedStep J r damping = none := by
  obtain ⟨i, j, hij⟩ := h
  refine Mat.solve_of_hasNonFinite ⟨j, j, ?_⟩ _
  rw [Bool.eq_false_iff]
  intro hfinite
  rw [isFinite_of_dampedNormal hfinite i] at hij
  cases hij

end LeastSquares
