import LeastSquares.Proofs.Problem.Formulation
import LeastSquares.Proofs.Solver.Failing
import LeastSquares.Proofs.Solver.Run

/-!
# The lengths of all residuals of a solve

The first residuals fix a length.  It is checked in two places: the solver compares what it
evaluates itself, and a numeric Jacobian compares what it evaluates at perturbed points, which the
solver never sees.  Together they leave no gap: in a solve that succeeds all residuals have the
length of the first ones and all Jacobians the size that goes with it, and if every call has been
answered, another length or size anywhere is the only reason to fail.
-/

namespace LeastSquares
variable {σ α : Type}

theorem Failed.raises_or_dimension {n : Nat} {calls : List (Call α)} {e : Failure α}
    (h : Failed n calls e) :
    (∃ c ∈ calls, ∃ e', c.Raises e') ∨ ∃ fault, e = .dimension fault := by
  cases h with
  | raised _ raises =>
    exact .inl ⟨_, List.mem_append_right _ (List.mem_singleton_self _), _, raises⟩
  | residualLength _ _ => exact .inr ⟨_, rfl⟩
  | jacobianShape _ _ => exact .inr ⟨_, rfl⟩

namespace Solve

/-- fitting calls with the pinned length `m`, and behind them the calls `tail`, which have not been
looked at -/
def Followed (m n : Nat) (tail : List (Call α)) (s : Session (σ × List (Call α)) α) : Prop :=
  s.residualLength = some m ∧ ∃ before, s.calls = before ++ tail ∧ Fitting m n before

/-- a call has failed, or `e` is about a size -/
def Explained (e : Failure α) (s : Session (σ × List (Call α)) α) : Prop :=
  (∃ c ∈ s.calls, ∃ e', c.Raises e') ∨ ∃ fault, e = .dimension fault

section
variable {m n : Nat} {tail : List (Call α)} {c : Call α} {s : Session (σ × List (Call α)) α}

theorem followed_nil : Followed m n [] s ↔ Pinned m n s := by
  unfold Followed Pinned
  refine and_congr_right fun _ => ?_
  simp only [List.append_nil]
  refine ⟨?_, ?_⟩
  · intro ⟨before, hcalls, hfitting⟩
    rw [hcalls]
    exact hfitting
  · intro hfitting
    exact ⟨s.calls, rfl, hfitting⟩

theorem Followed.next (h : Followed m n (c :: tail) s) (hc : c.Fits m n) : Followed m n tail s := by
  obtain ⟨hlength, before, hcalls, hfitting⟩ := h
  refine ⟨hlength, before ++ [c], ?_, hfitting.append hc⟩
  rw [hcalls, List.append_assoc]
  rfl

theorem FailedCalls.explained {e : Failure α} (h : FailedCalls n e s) : Explained e s :=
  h.raises_or_dimension

end

/-! ## the evaluations of a numeric Jacobian -/

section
variable {m n : Nat}

theorem ensures_evaluated (p : Problem σ α) (tail : List (Call α)) (y : Array α) :
    Ensures (Followed m n tail) (call (p.observed.residuals y))
      (fun u => Followed m n (tail ++ [.residuals y (.ok u)])) Explained := by
  intro s hs
  obtain ⟨hlength, before, hcalls, hfitting⟩ := hs
  rw [run_call_residuals]
  rcases (p.residuals y).run s.problem.1 with ⟨e | u, q⟩
  · exact .inl ⟨_, List.mem_append_right _ (List.mem_singleton_self _), e, rfl⟩
  · refine ⟨hlength, before, ?_, hfitting⟩
    show s.calls ++ _ = _
    rw [hcalls, List.append_assoc]

theorem ensures_expectLength {tail : List (Call α)} {y : Array α} (hy : y.size = n) (u : Array α) :
    Ensures (Followed m n (.residuals y (.ok u) :: tail))
      (call (expectLength m u) : Solve (σ × List (Call α)) α (Vector α m))
      (fun _ => Followed m n tail) Explained := by
  unfold expectLength
  by_cases hu : u.size = m
  · rw [dif_pos hu]
    exact .pure fun s hs => hs.next ⟨hy, hu⟩
  · rw [dif_neg hu]
    exact .throw fun s _ => .inr ⟨_, rfl⟩

variable [Scalar α]

/-- both lengths of a column are looked at only when both evaluations have been made -/
theorem ensures_differenceColumn (p : Problem σ α) (x : Array α) (m : Nat) (ε : α)
    (j : Fin x.size) :
    Ensures (Pinned m x.size) (call (differenceColumn p.observed.residuals x m ε j))
      (fun _ => Pinned m x.size) Explained := by
  have hforward : (forwardPoint x ε j).size = x.size := Array.size_set _
  have hbackward : (backwardPoint x ε j).size = x.size := Array.size_set _
  unfold differenceColumn
  simp only [call_bind, call_pure]
  refine ((ensures_evaluated p [] _).weaken fun s hs => followed_nil.mpr hs).bind fun u => ?_
  refine (ensures_evaluated p _ _).bind fun v => ?_
  refine (ensures_expectLength hforward u).bind fun u' => ?_
  refine (ensures_expectLength hbackward v).bind fun v' => ?_
  exact .pure fun s hs => followed_nil.mp hs

theorem ensures_observedDifference (F : Formulation σ α) (x : Vector α n) (r : Vector α m)
    (ε : α) :
    Ensures (Pinned m n) (call (F.observedDifference x.toArray r.toArray ε))
      (AnsweredJacobian x r ε) Explained := by
  obtain ⟨x, rfl⟩ := x
  obtain ⟨r, rfl⟩ := r
  unfold Formulation.observedDifference centralDifference
  simp only [call_bind, call_pure, call_ofFnM, bind_assoc, pure_bind]
  have hcolumns := Ensures.ofFnM fun j => ensures_differenceColumn F.problem x r.size ε j
  refine hcolumns.bind fun columns => ?_
  intro s hs
  exact ⟨hs.1, s.calls, rfl, hs.2⟩

/-! ## the calls of the solver -/

theorem ensures_jacobian_formulated (F : Formulation σ α) (x : Vector α n) (r : Vector α m)
    (ε : α) :
    Ensures (Pinned m n) (jacobian F.observed x r ε) (fun _ => Pinned m n) Explained := by
  cases h : F.jacobian?.isSome with
  | true =>
    rw [Formulation.observed_of_own h]
    exact (ensures_jacobian F.problem x r ε).imp (fun _ _ hs => hs) fun _ _ hs => hs.explained
  | false =>
    rw [jacobian_eq, (Formulation.jacobian_of_numeric h).2]
    refine (ensures_observedDifference F x r ε).bind fun J => ?_
    refine (Ensures.count _ fun s hs => hs).bind fun _ => ?_
    exact (ensures_shaped x r ε J).imp (fun _ _ hs => hs) fun _ _ hs => hs.explained

theorem keeps_formulated (F : Formulation σ α) (n : Nat) :
    Keeps F.observed n (Session.Fits n) (fun m => Pinned m n) Explained where
  residuals x := (ensures_residuals F.problem x.size_toArray).imp (fun _ _ hs => hs)
    fun _ _ hs => hs.explained
  jacobian x r ε := ensures_jacobian_formulated F x r ε
  ready h := h.fits
  record h _ := h
  emit h _ := h

end
end Solve

/-! ## a whole solve -/

/-- the length of the residuals that a call was answered by -/
def Call.length? : Call α → Option Nat
  | .residuals _ (.ok r) => some r.size
  | _ => none

/-- the length of the first residuals of all -/
def firstLength? (calls : List (Call α)) : Option Nat := calls.findSome? Call.length?

/-- an answer that does not go with `m` residuals and `n` parameters -/
def Call.Misfits (m n : Nat) : Call α → Prop
  | .residuals _ (.ok r) => r.size ≠ m
  | .jacobian _ _ _ (.ok J) => ¬ (J.rows = m ∧ J.cols = n)
  | _ => False

instance Call.decidableMisfits (m n : Nat) : DecidablePred (Call.Misfits (α := α) m n)
  | .residuals _ (.ok r) => inferInstanceAs (Decidable (r.size ≠ m))
  | .jacobian _ _ _ (.ok J) => inferInstanceAs (Decidable (¬ (J.rows = m ∧ J.cols = n)))
  | .residuals _ (.error _) => isFalse not_false
  | .jacobian _ _ _ (.error _) => isFalse not_false

def Call.isAnswered : Call α → Bool
  | .residuals _ answer => answer.isOk
  | .jacobian _ _ _ answer => answer.isOk

section
variable {m n : Nat} {calls : List (Call α)}

theorem Call.not_raises_of_isAnswered {c : Call α} (h : c.isAnswered = true) (e : Failure α) :
    ¬ c.Raises e := by
  intro hraises
  cases c with
  | residuals x answer =>
    obtain rfl : answer = .error e := hraises
    cases h
  | jacobian x r ε answer =>
    obtain rfl : answer = .error e := hraises
    cases h

theorem Call.Fits.not_misfits {c : Call α} (h : c.Fits m n) : ¬ c.Misfits m n := by
  cases c with
  | residuals x answer =>
    cases answer with
    | error e => exact not_false
    | ok r => exact not_not_intro h.2
  | jacobian x r ε answer =>
    cases answer with
    | error e => exact not_false
    | ok J => exact not_not_intro h.2.2

theorem Fitting.firstLength?_eq (h : Fitting m n calls) : firstLength? calls = some m := by
  obtain ⟨x, r, rest, rfl⟩ := h.first
  have hr := (h.fits _ List.mem_cons_self).2
  show some r.size = some m
  rw [hr]

end

/-- **All residuals of a solve have the length of the first ones**, and all Jacobians the size that
goes with it; and if no call fails, an answer of another size makes the solve fail because of its
size. -/
theorem minimize_lengths [RealScalar α] (F : Formulation σ α) {config : Config α} {x₀ : Array α}
    (hvalid : config.validate = .ok ()) (hsize : x₀.size ≠ 0) (q : σ) :
    ∃ report q' calls, (minimize config F.observed x₀).run (q, []) = (report, q', calls) ∧
      (minimize config F.problem x₀).run q = (report, q') ∧
      (∀ o, report.result = .ok o → ∃ m, Fitting m x₀.size calls) ∧
      ((∀ c ∈ calls, ∀ e, ¬ c.Raises e) →
        (∃ m, firstLength? calls = some m ∧ ∃ c ∈ calls, c.Misfits m x₀.size) →
        ∃ fault, report.result = .error (.dimension fault)) := by
  have h := (Solve.keeps_formulated F x₀.size).minimize hvalid hsize (.start (q, [])) rfl
  have hsame := minimize_of_sameAnswers F.sameAnswers_observed config x₀ q []
  rcases hrun : (Solve.minimize F.observed config x₀).run (.start (q, [])) with ⟨result, s⟩
  have hobserved := minimize_eq_of_run hrun
  rw [hobserved] at hsame
  rw [hrun] at h
  refine ⟨_, _, _, hobserved, hsame, ?_⟩
  cases result with
  | error e =>
    refine ⟨nofun, ?_⟩
    intro hanswered _
    rcases h with ⟨c, hc, e', hraises⟩ | ⟨fault, rfl⟩
    · exact absurd hraises (hanswered c hc e')
    · exact ⟨fault, rfl⟩
  | ok o =>
    obtain ⟨m, -, hfitting⟩ := h
    refine ⟨fun _ _ => ⟨m, hfitting⟩, ?_⟩
    intro _ hmisfit
    obtain ⟨m', hm', c, hc, hmisfits⟩ := hmisfit
    obtain rfl := Option.some.inj (hfitting.firstLength?_eq.symm.trans hm')
    exact absurd hmisfits (hfitting.fits c hc).not_misfits

/-- the third evaluation, the backward one of the first column, has twice as many residuals -/
def growing : Formulation Nat Float where
  residuals x := do
    let k ← modifyGet fun k => (k, k + 1)
    return if k = 2 then x ++ x else x
  jacobian? := none
  hasCustomJacobian := false

theorem growing_lengths : twoPasses.validate = .ok () ∧ #[(0.5 : Float)].size ≠ 0 ∧
    ∃ fault, ((minimize twoPasses growing.problem #[0.5]).run 0).1.result =
      .error (.dimension fault) := by
  have hvalid : twoPasses.validate = .ok () :=
    Config.validate_eq_ok.mpr ⟨by decide +kernel, by decide +kernel, by decide +kernel⟩
  have hsize : #[(0.5 : Float)].size ≠ 0 := by decide
  obtain ⟨report, q', calls, hobserved, hproblem, -, hmisfits⟩ :=
    minimize_lengths growing hvalid hsize 0
  have hcalls : calls =
      ((minimize twoPasses growing.observed #[0.5]).run (0, [])).2.2 := by rw [hobserved]
  have hanswered : (calls.all Call.isAnswered) = true := by
    rw [hcalls]
    decide +kernel
  have hother : firstLength? calls = some 1 ∧ ∃ c ∈ calls, c.Misfits 1 1 := by
    rw [hcalls]
    decide +kernel
  obtain ⟨fault, hfault⟩ := hmisfits
    (fun c hc e => Call.not_raises_of_isAnswered (List.all_eq_true.mp hanswered c hc) e)
    ⟨1, hother⟩
  refine ⟨hvalid, hsize, fault, ?_⟩
  rw [hproblem]
  exact hfault

end LeastSquares
