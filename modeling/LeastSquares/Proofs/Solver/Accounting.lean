import LeastSquares.Proofs.Problem.Formulation
import LeastSquares.Proofs.Solver.Trace

/-!
# The count of evaluations

The solver counts the evaluations that it makes itself one by one, and adds twice the number of
parameters for a numeric Jacobian, whose evaluations it does not see.  Beside that stands the list
of all calls of an observed problem: `Evaluated` says what a numeric Jacobian adds to the list,
`Counted` that the count has grown by the evaluations in the list, and `Accounted` how the calls of
some passes go with the records they leave.  So the passes are told by their calls
(`Notes.ofCalls`), and the calls of a whole run are accounted for (`Trace.accounted`).
-/

namespace LeastSquares
variable {σ α β : Type}

/-! ## what is counted -/

def Call.isResiduals : Call α → Bool
  | .residuals _ _ => true
  | .jacobian _ _ _ _ => false

/-- the number of evaluations of the residuals -/
def evaluationCount (calls : List (Call α)) : Nat := calls.countP Call.isResiduals

/-- the residuals and the Jacobian of a call for a Jacobian that was answered -/
def Call.slope? : Call α → Option (Array α × DenseMatrix α)
  | .jacobian _ r _ (.ok J) => some (r, J)
  | _ => none

def slopes (calls : List (Call α)) : List (Array α × DenseMatrix α) := calls.filterMap Call.slope?

/-- with the damping of the record `a` the step for these residuals and this Jacobian is singular -/
def singularStep [Scalar α] (a : Snapshot α) (slope : Array α × DenseMatrix α) : Bool :=
  match slope.2.dampedStep slope.1 a.damping with
  | .error .singular => true
  | _ => false

/-- the number of passes with a singular step; pass `k` has record `k` and Jacobian `k` -/
def singularPasses [Scalar α] (records : List (Snapshot α)) (calls : List (Call α)) : Nat :=
  (List.zipWith singularStep records (slopes calls)).count true

/-- how many evaluations a Jacobian at `n` parameters costs -/
def Formulation.jacobianCost (F : Formulation σ α) (n : Nat) : Nat :=
  if F.hasCustomJacobian then 0 else 2 * n

theorem Formulation.jacobianCost_le (F : Formulation σ α) (n : Nat) : F.jacobianCost n ≤ 2 * n := by
  unfold jacobianCost
  split
  · exact Nat.zero_le _
  · exact Nat.le_refl _

section
variable (calls calls' : List (Call α))

theorem evaluationCount_append :
    evaluationCount (calls ++ calls') = evaluationCount calls + evaluationCount calls' :=
  List.countP_append

theorem evaluationCount_residuals (x : Array α) (answer : Except (Failure α) (Array α)) :
    evaluationCount (.residuals x answer :: calls) = evaluationCount calls + 1 :=
  List.countP_cons_of_pos rfl

theorem slopes_append : slopes (calls ++ calls') = slopes calls ++ slopes calls' :=
  List.filterMap_append

theorem singularPasses_le [Scalar α] (records : List (Snapshot α)) :
    singularPasses records calls ≤ (slopes calls).length := by
  refine List.count_le_length.trans ?_
  rw [List.length_zipWith]
  exact Nat.min_le_right _ _

theorem singularStep_eq [Scalar α] (a : Snapshot α) {m n : Nat} (J : Mat α m n) (r : Vector α m) :
    singularStep a (r.toArray, ⟨m, n, J⟩) = (dampedStep J r a.damping).isNone := by
  unfold singularStep
  rw [DenseMatrix.dampedStep_mk]
  cases dampedStep J r a.damping <;> rfl

variable {calls}

theorem evaluationCount_of_residuals (h : ∀ c ∈ calls, c.isResiduals = true) :
    evaluationCount calls = calls.length := List.countP_eq_length.mpr h

theorem slopes_of_residuals (h : ∀ c ∈ calls, c.isResiduals = true) : slopes calls = [] := by
  refine List.filterMap_eq_nil_iff.mpr ?_
  intro c hc
  cases c with
  | residuals => rfl
  | jacobian =>
    have hresiduals := h _ hc
    cases hresiduals

end

/-! ## the evaluations of a numeric Jacobian -/

namespace Solve

/-- `s'` is the session `s` after `k` more evaluations of the residuals, not yet counted -/
def Evaluated (k : Nat) (s s' : Session (σ × List (Call α)) α) : Prop :=
  ∃ q calls, s' = { s with problem := (q, s.calls ++ calls) } ∧ calls.length = k ∧
    ∀ c ∈ calls, c.isResiduals = true

section
variable {s s₁ s' : Session (σ × List (Call α)) α}

theorem Evaluated.refl : Evaluated 0 s s := by
  refine ⟨s.problem.1, [], ?_, rfl, nofun⟩
  rw [List.append_nil]
  rfl

theorem Evaluated.trans {k l : Nat} (h : Evaluated k s s₁) (h' : Evaluated l s₁ s') :
    Evaluated (k + l) s s' := by
  obtain ⟨q, calls, rfl, rfl, hcalls⟩ := h
  obtain ⟨q', calls', rfl, rfl, hcalls'⟩ := h'
  refine ⟨q', calls ++ calls', ?_, List.length_append, ?_⟩
  · rw [← List.append_assoc]
    rfl
  · intro c hc
    exact (List.mem_append.mp hc).elim (hcalls c) (hcalls' c)

theorem evaluated_of_residuals {p : Problem σ α} {y u : Array α}
    (h : Returns (call (p.observed.residuals y)) s u s') : Evaluated 1 s s' := by
  obtain ⟨q, hq, rfl⟩ := returns_call.mp h
  obtain rfl := (Prod.mk.inj hq).2
  refine ⟨_, [.residuals y _], rfl, rfl, ?_⟩
  intro c hc
  obtain rfl := List.mem_singleton.mp hc
  rfl

theorem eq_of_expectLength {m : Nat} {u : Array α} {v : Vector α m}
    (h : Returns (call (expectLength m u)) s v s') : s' = s := by
  unfold expectLength at h
  split at h
  · exact (returns_pure.mp h).2
  · exact absurd h not_returns_throw

theorem evaluated_of_ofFnM {k n : Nat} {f : Fin n → Solve (σ × List (Call α)) α β}
    (hf : ∀ i s b s', Returns (f i) s b s' → Evaluated k s s') {v : Vector β n}
    (h : Returns (Vector.ofFnM f) s v s') : Evaluated (n * k) s s' := by
  induction n generalizing s' with
  | zero =>
    rw [Vector.ofFnM_zero] at h
    obtain ⟨-, rfl⟩ := returns_pure.mp h
    rw [Nat.zero_mul]
    exact .refl
  | succ n ih =>
    rw [Vector.ofFnM_succ] at h
    obtain ⟨init, s₁, hinit, h⟩ := returns_bind.mp h
    obtain ⟨last, s₂, hlast, h⟩ := returns_bind.mp h
    obtain ⟨-, rfl⟩ := returns_pure.mp h
    rw [Nat.succ_mul]
    exact (ih (fun i => hf i.castSucc) hinit).trans (hf _ _ _ _ hlast)

variable [Scalar α]

theorem evaluated_of_differenceColumn {p : Problem σ α} {x : Array α} {m : Nat} {ε : α}
    {j : Fin x.size} {v : Vector α m}
    (h : Returns (call (differenceColumn p.observed.residuals x m ε j)) s v s') :
    Evaluated 2 s s' := by
  unfold differenceColumn at h
  simp only [call_bind, call_pure] at h
  obtain ⟨forward, s₁, hforward, h⟩ := returns_bind.mp h
  obtain ⟨backward, s₂, hbackward, h⟩ := returns_bind.mp h
  obtain ⟨u, s₃, hu, h⟩ := returns_bind.mp h
  obtain ⟨w, s₄, hw, h⟩ := returns_bind.mp h
  obtain ⟨-, rfl⟩ := returns_pure.mp h
  obtain rfl := eq_of_expectLength hu
  obtain rfl := eq_of_expectLength hw
  exact (evaluated_of_residuals hforward).trans (evaluated_of_residuals hbackward)

theorem evaluated_of_centralDifference {p : Problem σ α} {x r : Array α} {ε : α}
    {J : DenseMatrix α}
    (h : Returns (call (centralDifference p.observed.residuals x r ε)) s J s') :
    Evaluated (x.size * 2) s s' := by
  unfold centralDifference at h
  rw [call_bind, call_ofFnM] at h
  obtain ⟨columns, s₁, hcolumns, h⟩ := returns_bind.mp h
  obtain ⟨-, rfl⟩ := returns_pure.mp h
  exact evaluated_of_ofFnM (fun _ _ _ _ => evaluated_of_differenceColumn) hcolumns

/-- a call for a Jacobian stands behind the evaluations it has needed -/
theorem calls_of_jacobian {F : Formulation σ α} {x r : Array α} {ε : α} {J : DenseMatrix α}
    (h : Returns (call (F.observed.jacobian x r ε)) s J s') :
    ∃ calls, s'.calls = s.calls ++ (calls ++ [.jacobian x r ε (.ok J)]) ∧
      calls.length = (if F.jacobian?.isSome then 0 else 2 * x.size) ∧
      ∀ c ∈ calls, c.isResiduals = true := by
  cases hown : F.jacobian?.isSome with
  | true =>
    rw [Formulation.observed_of_own hown] at h
    obtain ⟨q, hq, rfl⟩ := returns_call.mp h
    exact ⟨[], Problem.calls_of_jacobian hq, rfl, nofun⟩
  | false =>
    rw [(Formulation.jacobian_of_numeric hown).2] at h
    unfold Formulation.observedDifference at h
    simp only [call_bind] at h
    obtain ⟨J', s₁, hJ, h⟩ := returns_bind.mp h
    obtain ⟨q, calls, rfl, hlength, hcalls⟩ := evaluated_of_centralDifference hJ
    obtain ⟨u, s₂, hnote, h⟩ := returns_bind.mp h
    obtain ⟨rfl, rfl⟩ := returns_pure.mp h
    cases hnote
    refine ⟨calls, List.append_assoc _ _ _, ?_, hcalls⟩
    rw [hlength, Nat.mul_comm]
    rfl

end

/-! ## the calls of the solver -/

/-- `s'` is reached from the session `s` by the calls `cs`, whose evaluations have been counted -/
structure Counted (s s' : Session (σ × List (Call α)) α) (cs : List (Call α)) : Prop where
  calls : s'.calls = s.calls ++ cs
  evaluations : s'.evaluations = s.evaluations + evaluationCount cs

section
variable {s s₁ s' : Session (σ × List (Call α)) α}

theorem Counted.refl : Counted s s [] where
  calls := (List.append_nil _).symm
  evaluations := rfl

theorem Counted.trans {cs cs' : List (Call α)} (h : Counted s s₁ cs) (h' : Counted s₁ s' cs') :
    Counted s s' (cs ++ cs') where
  calls := by rw [h'.calls, h.calls, List.append_assoc]
  evaluations := by rw [h'.evaluations, h.evaluations, evaluationCount_append, Nat.add_assoc]

theorem Counted.single {cs : List (Call α)} (h : Counted s s' cs) :
    Counted s s' [cs].flatten := by
  rw [List.flatten_singleton]
  exact h

theorem Counted.recorded {cs : List (Call α)} (h : Counted s s' cs) {n : Nat} (i : Nat)
    (current : Iterate α n) (v : α) : Counted s (recorded s' i current v) cs :=
  ⟨h.calls, h.evaluations⟩

variable [Scalar α] {F : Formulation σ α} {n : Nat}

theorem counted_of_residuals {x r : Array α} (h : Returns (residuals F.observed x) s r s') :
    Counted s s' [.residuals x (.ok r)] := by
  obtain ⟨q, hq, -, rfl⟩ := returns_residuals.mp h
  exact ⟨F.problem.calls_of_residuals hq, rfl⟩

theorem counted_of_jacobian (hF : F.hasCustomJacobian = F.jacobian?.isSome) {m : Nat}
    {x : Vector α n} {r : Vector α m} {ε : α} {J : Mat α m n}
    (h : Returns (jacobian F.observed x r ε) s J s') :
    ∃ cs, Counted s s' (cs ++ [.jacobian x.toArray r.toArray ε (.ok ⟨m, n, J⟩)]) ∧
      cs.length = F.jacobianCost n ∧ ∀ c ∈ cs, c.isResiduals = true := by
  obtain ⟨q, hq, rfl⟩ := returns_jacobian.mp h
  obtain ⟨cs, hcalls, hlength, hcs⟩ := calls_of_jacobian (returns_call.mpr ⟨q, hq, rfl⟩)
  have hcost : cs.length = F.jacobianCost n := by
    rw [hlength, Vector.size_toArray, ← hF]
    rfl
  refine ⟨cs, ⟨hcalls, ?_⟩, hcost, hcs⟩
  rw [evaluationCount_append, evaluationCount_of_residuals hcs, hcost]
  rfl

end

/-! ## one pass -/

/-- the calls of a pass behind its record `a`: one Jacobian with the evaluations it costs, and one
evaluation more, unless the step is singular -/
structure Tried [Scalar α] (cost : Nat) (a : Snapshot α) (cs : List (Call α)) : Prop where
  exists_slope : ∃ slope, slopes cs = [slope] ∧
    evaluationCount cs + (singularStep a slope).toNat = cost + 1

section
variable [RealScalar α] {F : Formulation σ α} {n : Nat} {s s' : Session (σ × List (Call α)) α}

theorem tried_of_attempt (hF : F.hasCustomJacobian = F.jacobian?.isSome) {ε : α} {i : Nat}
    {current next : Iterate α n} {r : Array α}
    (h : Returns (attempt F.observed ε i current r) s next s') :
    ∃ cs, Counted s s' cs ∧ Tried (F.jacobianCost n) (current.snapshot i (norm r)) cs := by
  obtain ⟨J, s₁, hJ, h⟩ := returns_attempt.mp h
  obtain ⟨cs, hcounted, hlength, hcs⟩ := counted_of_jacobian hF hJ
  have hstep := singularStep_eq (current.snapshot i (norm r)) J r.toVector
  have hevaluations := evaluationCount_of_residuals hcs
  have hslopes := slopes_of_residuals hcs
  rcases h with ⟨hnone, -, rfl⟩ | ⟨step, c, s₂, hsome, hc, -, rfl⟩
  · refine ⟨_, ⟨hcounted.calls, hcounted.evaluations⟩, (r, ⟨r.size, n, J⟩), ?_, ?_⟩
    · rw [slopes_append, hslopes]
      rfl
    · have hsingular : singularStep (current.snapshot i (norm r)) (r, ⟨r.size, n, J⟩) = true :=
        hstep.trans (Option.isNone_iff_eq_none.mpr hnone)
      rw [evaluationCount_append, hevaluations, hsingular, hlength]
      rfl
  · have hall := hcounted.trans (counted_of_residuals hc)
    refine ⟨_, ⟨hall.calls, hall.evaluations⟩, (r, ⟨r.size, n, J⟩), ?_, ?_⟩
    · rw [slopes_append, slopes_append, hslopes]
      rfl
    · have hsingular : singularStep (current.snapshot i (norm r)) (r, ⟨r.size, n, J⟩) = false :=
        hstep.trans (congrArg Option.isNone hsome)
      rw [evaluationCount_append, evaluationCount_append, hevaluations, hsingular, hlength]
      rfl

end

/-! ## the passes of a run -/

/-- how the records of some passes go with their calls, where a Jacobian costs `cost` evaluations -/
structure Accounted [Scalar α] (tolerance : α) (cost : Nat) (records : List (Snapshot α))
    (cs : List (Call α)) : Prop where
  /-- a pass that does not stop the run evaluates one Jacobian -/
  jacobians : (slopes cs).length + (endsBelow tolerance records).toNat = records.length
  evaluations : evaluationCount cs + singularPasses records cs =
    records.length + (slopes cs).length + cost * (slopes cs).length

section
variable [Scalar α] {tolerance : α} {cost : Nat} {records : List (Snapshot α)}
  {cs cs' : List (Call α)} {a : Snapshot α}

/-- a record above the tolerance decides nothing -/
theorem endsBelow_cons (above : ¬ a.residualNorm < tolerance) :
    endsBelow tolerance (a :: records) = endsBelow tolerance records := by
  cases records with
  | nil => exact decide_eq_false above
  | cons b records => rfl

theorem Accounted.spent : Accounted tolerance cost [] [] := ⟨rfl, rfl⟩

theorem Accounted.stop (below : a.residualNorm < tolerance) {x r : Array α} :
    Accounted tolerance cost [a] [.residuals x (.ok r)] where
  jacobians := by
    show 0 + (decide (a.residualNorm < tolerance)).toNat = 1
    rw [decide_eq_true below]
    rfl
  evaluations := rfl

theorem Accounted.pass (above : ¬ a.residualNorm < tolerance) {x r : Array α}
    (tried : Tried cost a cs) (rest : Accounted tolerance cost records cs') :
    Accounted tolerance cost (a :: records) (.residuals x (.ok r) :: cs ++ cs') := by
  obtain ⟨slope, hslope, hcount⟩ := tried.exists_slope
  have hslopes : slopes (.residuals x (.ok r) :: cs ++ cs') = slope :: slopes cs' := by
    show slopes (cs ++ cs') = _
    rw [slopes_append, hslope]
    rfl
  have hsingular : singularPasses (a :: records) (.residuals x (.ok r) :: cs ++ cs') =
      singularPasses records cs' + (singularStep a slope).toNat := by
    unfold singularPasses
    rw [hslopes, List.zipWith_cons_cons, List.count_cons]
    cases singularStep a slope <;> rfl
  have hevaluations : evaluationCount (.residuals x (.ok r) :: cs ++ cs') =
      evaluationCount cs' + evaluationCount cs + 1 := by
    rw [List.cons_append, evaluationCount_residuals, evaluationCount_append,
      Nat.add_comm (evaluationCount cs)]
  refine ⟨?_, ?_⟩
  · rw [hslopes, endsBelow_cons above, List.length_cons, List.length_cons, ← rest.jacobians]
    omega
  · have hrest := rest.evaluations
    rw [hslopes, hsingular, hevaluations, List.length_cons, List.length_cons, Nat.mul_succ]
    omega

end

end Solve

section
open Solve
variable [RealScalar α] {F : Formulation σ α} {config : Config α} {n : Nat}

/-- the calls of a pass with the record `a`: its residuals, and those of its step, if it has one -/
inductive Calls (tolerance : α) (cost : Nat) (a : Snapshot α) : List (Call α) → Prop where
  | stopped {x r : Array α} (below : a.residualNorm < tolerance) :
      Calls tolerance cost a [.residuals x (.ok r)]
  | tried {x r : Array α} {cs : List (Call α)} (above : ¬ a.residualNorm < tolerance)
      (tried : Tried cost a cs) : Calls tolerance cost a (.residuals x (.ok r) :: cs)

/-- the calls of a loop, which the session counts -/
def Notes.ofCalls (hF : F.hasCustomJacobian = F.jacobian?.isSome) (config : Config α) (n : Nat) :
    Notes F.observed config n (List (Call α)) where
  Adds s notes s' := Counted s s' notes.flatten
  Tells a _ _ cs := Calls config.tolerance (F.jacobianCost n) a cs
  nil _ := .refl
  cons first rest := by
    rw [List.flatten_singleton] at first
    exact first.trans rest
  stop hr below := ⟨_, ((counted_of_residuals hr).recorded _ _ _).single, .stopped below⟩
  pass hr above hn := by
    obtain ⟨cs, hcs, htried⟩ := tried_of_attempt hF hn
    have hall := ((counted_of_residuals hr).recorded _ _ _).trans hcs
    exact ⟨_, hall.single, .tried above htried⟩

theorem Trace.accounted {tolerance : α} {cost budget i : Nat} {current last : Iterate α n}
    {records : List (Snapshot α)} {notes : List (List (Call α))} {exit : Status}
    (h : Trace tolerance (fun a _ _ cs => Calls tolerance cost a cs) budget i current records notes
      last exit) : Accounted tolerance cost records notes.flatten := by
  induction h with
  | spent => exact .spent
  | stop below told =>
    rw [List.flatten_singleton]
    cases told with
    | stopped => exact .stop below
    | tried above _ => exact absurd below above
  | pass above told _ ih =>
    rw [List.flatten_cons]
    cases told with
    | stopped below => exact absurd below above
    | tried _ tried => exact .pass above tried ih

end

/-! ## a whole solve -/

variable [RealScalar α]

/-- one, if the last record is below the tolerance -/
def Outcome.stopped (o : Outcome α) (tolerance : α) : Nat :=
  (endsBelow tolerance o.history.toList).toNat

/-- the evaluations of a solve that has made the calls `cs` -/
structure Outcome.Accounts (o : Outcome α) (F : Formulation σ α) (config : Config α) (n : Nat)
    (cs : List (Call α)) : Prop where
  counted : o.evaluations = evaluationCount cs
  le_size : o.stopped config.tolerance + singularPasses o.history.toList cs ≤ o.history.size
  /-- one at the end, one for every pass, one for every candidate, and those for the Jacobians -/
  eq : o.evaluations = 1 + o.history.size +
    (o.history.size - o.stopped config.tolerance - singularPasses o.history.toList cs) +
    F.jacobianCost n * (o.history.size - o.stopped config.tolerance)
  le : o.evaluations ≤ 1 + config.maxIterations * (2 * n + 2)

/-- the last evaluation comes behind the passes -/
theorem Outcome.Accounts.of_accounted {o : Outcome α} {F : Formulation σ α} {config : Config α}
    {n : Nat} {cs : List (Call α)} {x r : Array α}
    (h : Solve.Accounted config.tolerance (F.jacobianCost n) o.history.toList cs)
    (hcount : o.evaluations = evaluationCount (cs ++ [.residuals x (.ok r)]))
    (hsize : o.history.size ≤ config.maxIterations) :
    o.Accounts F config n (cs ++ [.residuals x (.ok r)]) := by
  have hslopes : slopes (cs ++ [.residuals x (.ok r)]) = slopes cs := by
    rw [slopes_append]
    exact List.append_nil _
  have hsingular : singularPasses o.history.toList (cs ++ [.residuals x (.ok r)]) =
      singularPasses o.history.toList cs := by
    unfold singularPasses
    rw [hslopes]
  have hle := singularPasses_le cs o.history.toList
  have hjacobians : (slopes cs).length + o.stopped config.tolerance = o.history.size := h.jacobians
  have hevaluations : evaluationCount cs + singularPasses o.history.toList cs =
      o.history.size + (slopes cs).length + F.jacobianCost n * (slopes cs).length := h.evaluations
  have hlength : (slopes cs).length = o.history.size - o.stopped config.tolerance := by omega
  have hlast : o.evaluations = evaluationCount cs + 1 := by
    rw [hcount, evaluationCount_append]
    rfl
  refine ⟨hcount, ?_, ?_, ?_⟩
  · rw [hsingular]
    omega
  · rw [hsingular, ← hlength, hlast]
    omega
  · have hpasses : (slopes cs).length ≤ config.maxIterations := by omega
    have hcost := Nat.mul_le_mul (F.jacobianCost_le n) hpasses
    rw [hlast, Nat.mul_add, Nat.mul_comm config.maxIterations (2 * n)]
    omega

/-- **The reported number of evaluations is the number of calls that were made**: one for every
pass, one for every candidate and one at the end, and those for numeric Jacobians. -/
theorem minimize_evaluations {F : Formulation σ α}
    (hF : F.hasCustomJacobian = F.jacobian?.isSome) {config : Config α} {x₀ : Array α} {q : σ}
    {o : Outcome α} (h : ((minimize config F.problem x₀).run q).1.result = .ok o) :
    ∃ log q' cs, (minimize config F.problem x₀).run q = (⟨.ok o, log⟩, q') ∧
      (minimize config F.observed x₀).run (q, []) = (⟨.ok o, log⟩, q', cs) ∧
      o.Accounts F config x₀.size cs := by
  have hsame := minimize_of_sameAnswers F.sameAnswers_observed config x₀ q []
  have hobserved : ((minimize config F.observed x₀).run (q, [])).1.result = .ok o := by
    rw [hsame] at h
    exact h
  obtain ⟨last, exit, s, r, s', hsolved⟩ := exists_solved hobserved
  obtain ⟨notes, hnotes, htrace⟩ := (Notes.ofCalls hF config x₀.size).trace_of_solved hsolved
  have hall := hnotes.trans (Solve.counted_of_residuals hsolved.evaluated)
  have hcalls : s'.problem.2 = notes.flatten ++ [.residuals last.point.toArray (.ok r)] :=
    hall.calls
  rw [hsolved.run] at hsame
  refine ⟨_, _, _, hsame, hsolved.run, ?_⟩
  rw [hcalls]
  refine .of_accounted htrace.accounted ?_ htrace.length_le
  rw [hsolved.outcome]
  exact hall.evaluations.trans (Nat.zero_add _)

/-- the residuals `x² - 2`, differentiated numerically -/
def numericRoots : Formulation Unit Float where
  residuals x := pure (x.map fun t => t * t - 2.0)
  jacobian? := none
  hasCustomJacobian := false

theorem numericRoots_evaluations :
    numericRoots.hasCustomJacobian = numericRoots.jacobian?.isSome ∧
    ∃ o log q' cs, (minimize twoPasses numericRoots.problem #[0.25]).run () = (⟨.ok o, log⟩, q') ∧
      (minimize twoPasses numericRoots.observed #[0.25]).run ((), []) = (⟨.ok o, log⟩, q', cs) ∧
      o.Accounts numericRoots twoPasses 1 cs := by
  have hok : ((minimize twoPasses numericRoots.problem #[0.25]).run ()).1.result.isOk = true := by
    decide +kernel
  obtain ⟨o, ho⟩ := Report.exists_outcome hok
  obtain ⟨log, q', cs, hrun⟩ := minimize_evaluations (F := numericRoots) rfl ho
  exact ⟨rfl, o, log, q', cs, hrun⟩

end LeastSquares
