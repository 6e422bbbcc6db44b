import LeastSquares.Proofs.Solver.Calls
import LeastSquares.Proofs.Solver.Ensures

/-!
# Why a solve fails

A solve fails for one of four reasons: an option is refused or there are no parameters, both before
the problem is called; a call of the problem fails, and its failure is passed on as it is; or an
answer of the problem has the wrong size.  In the last two cases the call in question is the last
one, and all calls before it have been answered in sizes that fit (`Failed`, `Settled`).

The linear algebra of a step contributes nothing to that.  On sizes that fit it fails in one way
only, which is a rejected step: a pass in which every size is checked once more, at run time, is
the same pass (`attempt_eq_attemptChecked`).
-/

namespace LeastSquares
variable {σ α : Type}

/-! ## calls that fit and calls that do not -/

/-- the call was answered, and with `n` parameters and `m` residuals all its sizes fit -/
def Call.Fits (m n : Nat) : Call α → Prop
  | .residuals x (.ok r) => x.size = n ∧ r.size = m
  | .jacobian x r _ (.ok J) => x.size = n ∧ r.size = m ∧ J.rows = m ∧ J.cols = n
  | _ => False

def Call.Raises (e : Failure α) : Call α → Prop
  | .residuals _ answer => answer = .error e
  | .jacobian _ _ _ answer => answer = .error e

/-- calls of which the first one asks for residuals, and which all fit -/
structure Fitting (m n : Nat) (calls : List (Call α)) : Prop where
  first : ∃ x r rest, calls = .residuals x (.ok r) :: rest
  fits : ∀ c ∈ calls, c.Fits m n

/-- the failure that ends a list of calls, all but the last of which fit -/
inductive Failed (n : Nat) : List (Call α) → Failure α → Prop where
  | raised {m : Nat} {before : List (Call α)} {call : Call α} {e : Failure α}
      (fits : ∀ c ∈ before, c.Fits m n) (raises : call.Raises e) : Failed n (before ++ [call]) e
  /-- residuals of another length than the first ones -/
  | residualLength {m : Nat} {before : List (Call α)} {x r : Array α}
      (fitting : Fitting m n before) (other : r.size ≠ m) :
      Failed n (before ++ [.residuals x (.ok r)]) (.dimension (.residualLength r.size m))
  | jacobianShape {m : Nat} {before : List (Call α)} {x r : Array α} {ε : α} {J : DenseMatrix α}
      (fitting : Fitting m n before) (other : ¬ (J.rows = m ∧ J.cols = n)) :
      Failed n (before ++ [.jacobian x r ε (.ok J)])
        (.dimension (.jacobianShape J.rows J.cols m n))

/-- how a solve has ended, and the calls it has made -/
inductive Settled [Scalar α] (config : Config α) (x₀ : Array α) :
    List (Call α) → Except (Failure α) (Outcome α) → Prop where
  | refused {fault : ParameterFault α} (options : config.fault? = some fault) :
      Settled config x₀ [] (.error (.parameter fault))
  | noParameters (options : config.validate = .ok ()) (empty : x₀.size = 0) :
      Settled config x₀ [] (.error (.dimension .noParameters))
  | failed {calls : List (Call α)} {e : Failure α} (options : config.validate = .ok ())
      (nonempty : x₀.size ≠ 0) (failed : Failed x₀.size calls e) :
      Settled config x₀ calls (.error e)
  | returned {m : Nat} {calls : List (Call α)} {o : Outcome α}
      (options : config.validate = .ok ()) (nonempty : x₀.size ≠ 0)
      (fitting : Fitting m x₀.size calls) : Settled config x₀ calls (.ok o)

section
variable {m n : Nat} {calls : List (Call α)}

theorem Fitting.single {x r : Array α} (hx : x.size = n) :
    Fitting r.size n [.residuals x (.ok r)] where
  first := ⟨x, r, [], rfl⟩
  fits := by
    intro c hc
    obtain rfl := List.mem_singleton.mp hc
    exact ⟨hx, rfl⟩

theorem Fitting.append (h : Fitting m n calls) {c : Call α} (hc : c.Fits m n) :
    Fitting m n (calls ++ [c]) where
  first := by
    obtain ⟨x, r, rest, rfl⟩ := h.first
    exact ⟨x, r, rest ++ [c], rfl⟩
  fits := by
    intro d hd
    rcases List.mem_append.mp hd with hd | hd
    · exact h.fits d hd
    · obtain rfl := List.mem_singleton.mp hd
      exact hc

theorem Call.Fits.not_raises {c : Call α} (h : c.Fits m n) (e : Failure α) : ¬ c.Raises e := by
  intro hraises
  cases c with
  | residuals x answer =>
    obtain rfl : answer = .error e := hraises
    exact h
  | jacobian x r ε answer =>
    obtain rfl : answer = .error e := hraises
    exact h

theorem Call.Raises.unique {c : Call α} {e e' : Failure α} (h : c.Raises e) (h' : c.Raises e') :
    e = e' := by
  cases c with
  | residuals x answer => exact Except.error.inj (h.symm.trans h')
  | jacobian x r ε answer => exact Except.error.inj (h.symm.trans h')

theorem eq_last_of_raises {before : List (Call α)} {last c : Call α} {e : Failure α}
    (fits : ∀ c ∈ before, c.Fits m n) (hc : c ∈ before ++ [last]) (hraises : c.Raises e) :
    c = last := by
  rcases List.mem_append.mp hc with hc | hc
  · exact absurd hraises ((fits c hc).not_raises e)
  · exact List.mem_singleton.mp hc

/-- a call that has failed is the last one, and its failure the one at hand -/
theorem Failed.of_raises {e e' : Failure α} (h : Failed n calls e) {c : Call α} (hc : c ∈ calls)
    (hraises : c.Raises e') : e = e' ∧ ∃ before, calls = before ++ [c] := by
  cases h with
  | raised fits raises =>
    obtain rfl := eq_last_of_raises fits hc hraises
    exact ⟨raises.unique hraises, _, rfl⟩
  | residualLength fitting _ =>
    obtain rfl := eq_last_of_raises fitting.fits hc hraises
    cases hraises
  | jacobianShape fitting _ =>
    obtain rfl := eq_last_of_raises fitting.fits hc hraises
    cases hraises

theorem Settled.of_raises [Scalar α] {config : Config α} {x₀ : Array α}
    {result : Except (Failure α) (Outcome α)} (h : Settled config x₀ calls result) {c : Call α}
    (hc : c ∈ calls) {e : Failure α} (hraises : c.Raises e) :
    result = .error e ∧ ∃ before, calls = before ++ [c] := by
  cases h with
  | refused _ => cases hc
  | noParameters _ _ => cases hc
  | failed _ _ failed =>
    obtain ⟨rfl, hlast⟩ := failed.of_raises hc hraises
    exact ⟨rfl, hlast⟩
  | returned _ _ fitting => exact absurd hraises ((fitting.fits c hc).not_raises e)

/-- before the first residuals there are no calls, behind them the calls fit -/
def Session.Fits (n : Nat) (s : Session (σ × List (Call α)) α) : Prop :=
  match s.residualLength with
  | none => s.calls = []
  | some m => Fitting m n s.calls

theorem Session.Fits.exists_fits {s : Session (σ × List (Call α)) α} (h : s.Fits n) :
    ∃ m, ∀ c ∈ s.calls, c.Fits m n := by
  unfold Session.Fits at h
  cases hl : s.residualLength with
  | none =>
    rw [hl] at h
    refine ⟨0, ?_⟩
    rw [show s.calls = [] from h]
    nofun
  | some m =>
    rw [hl] at h
    exact ⟨m, h.fits⟩

end

/-! ## one operation after another -/

namespace Solve

def FailedCalls (n : Nat) (e : Failure α) (s : Session (σ × List (Call α)) α) : Prop :=
  Failed n s.calls e

/-- the residuals at hand have the pinned length `m`, and the calls fit -/
def Pinned (m n : Nat) (s : Session (σ × List (Call α)) α) : Prop :=
  s.residualLength = some m ∧ Fitting m n s.calls

theorem Pinned.fits {m n : Nat} {s : Session (σ × List (Call α)) α} (h : Pinned m n s) :
    s.Fits n := by
  unfold Session.Fits
  rw [h.1]
  exact h.2

/-- the last call has been answered by residuals, whose length has not been looked at -/
def Answered (n : Nat) (x r : Array α) (s : Session (σ × List (Call α)) α) : Prop :=
  ∃ before, s.calls = before ++ [.residuals x (.ok r)] ∧ match s.residualLength with
    | none => before = []
    | some m => Fitting m n before

theorem ensures_call_residuals (p : Problem σ α) (n : Nat) (x : Array α) :
    Ensures (Session.Fits n) (call (p.observed.residuals x)) (Answered n x) (FailedCalls n) := by
  intro s hs
  rw [run_call_residuals]
  rcases (p.residuals x).run s.problem.1 with ⟨e | r, q⟩
  · obtain ⟨m, hm⟩ := hs.exists_fits
    exact .raised hm rfl
  · exact ⟨s.calls, rfl, hs⟩

theorem ensures_pinLength {n : Nat} {x r : Array α} (hx : x.size = n) :
    Ensures (Answered n x r) (pinLength r.size : Solve (σ × List (Call α)) α Unit)
      (fun _ => Pinned r.size n) (FailedCalls n) := by
  intro s hs
  obtain ⟨before, hcalls, hbefore⟩ := hs
  rw [run_pinLength]
  cases hl : s.residualLength with
  | none =>
    rw [hl] at hbefore
    obtain rfl : before = [] := hbefore
    refine ⟨rfl, ?_⟩
    show Fitting r.size n s.calls
    rw [hcalls]
    exact .single hx
  | some m =>
    rw [hl] at hbefore
    dsimp only
    by_cases hm : r.size = m
    · rw [if_pos hm]
      subst hm
      refine ⟨hl, ?_⟩
      rw [hcalls]
      exact hbefore.append ⟨hx, rfl⟩
    · rw [if_neg hm]
      show Failed n s.calls _
      rw [hcalls]
      exact .residualLength hbefore hm

theorem ensures_residuals (p : Problem σ α) {n : Nat} {x : Array α} (hx : x.size = n) :
    Ensures (Session.Fits n) (residuals p.observed x) (fun r => Pinned r.size n)
      (FailedCalls n) := by
  refine (ensures_call_residuals p n x).bind fun r => ?_
  refine (Ensures.count 1 fun s hs => hs).bind fun _ => ?_
  exact (ensures_pinLength hx).bind fun _ => .pure fun s hs => hs

/-- the last call has been answered by a Jacobian, whose size has not been looked at -/
def AnsweredJacobian {m n : Nat} (x : Vector α n) (r : Vector α m) (ε : α) (J : DenseMatrix α)
    (s : Session (σ × List (Call α)) α) : Prop :=
  s.residualLength = some m ∧
    ∃ before, s.calls = before ++ [.jacobian x.toArray r.toArray ε (.ok J)] ∧ Fitting m n before

theorem ensures_call_jacobian (p : Problem σ α) {m n : Nat} (x : Vector α n) (r : Vector α m)
    (ε : α) : Ensures (Pinned m n) (call (p.observed.jacobian x.toArray r.toArray ε))
      (AnsweredJacobian x r ε) (FailedCalls n) := by
  intro s hs
  obtain ⟨hpinned, hfitting⟩ := hs
  rw [run_call_jacobian]
  rcases (p.jacobian x.toArray r.toArray ε).run s.problem.1 with ⟨e | J, q⟩
  · exact .raised hfitting.fits rfl
  · exact ⟨hpinned, s.calls, rfl, hfitting⟩

theorem failed_of_answeredJacobian {m n : Nat} {x : Vector α n} {r : Vector α m} {ε : α}
    {J : DenseMatrix α} {s : Session (σ × List (Call α)) α} (hs : AnsweredJacobian x r ε J s)
    (hJ : J.sized? m n = none) :
    Failed n s.calls (.dimension (.jacobianShape J.rows J.cols m n)) := by
  obtain ⟨-, before, hcalls, hfitting⟩ := hs
  have hother : ¬ (J.rows = m ∧ J.cols = n) := by
    intro h
    unfold DenseMatrix.sized? at hJ
    rw [dif_pos h] at hJ
    cases hJ
  rw [hcalls]
  exact .jacobianShape hfitting hother

theorem pinned_of_answeredJacobian {m n : Nat} {x : Vector α n} {r : Vector α m} {ε : α}
    {J : Mat α m n} {s : Session (σ × List (Call α)) α}
    (hs : AnsweredJacobian x r ε ⟨m, n, J⟩ s) : Pinned m n s := by
  obtain ⟨hpinned, before, hcalls, hfitting⟩ := hs
  refine ⟨hpinned, ?_⟩
  rw [hcalls]
  exact hfitting.append ⟨x.size_toArray, r.size_toArray, rfl, rfl⟩

theorem ensures_shaped {m n : Nat} (x : Vector α n) (r : Vector α m) (ε : α) (J : DenseMatrix α) :
    Ensures (AnsweredJacobian x r ε J)
      (shaped m n J : Solve (σ × List (Call α)) α (Mat α m n)) (fun _ => Pinned m n)
      (FailedCalls n) := by
  unfold shaped
  cases hJ : J.sized? m n with
  | none => exact .throw fun s hs => failed_of_answeredJacobian hs hJ
  | some K =>
    obtain rfl := DenseMatrix.sized?_eq_some.mp hJ
    exact .pure fun s hs => pinned_of_answeredJacobian hs

theorem ensures_jacobian (p : Problem σ α) {m n : Nat} (x : Vector α n) (r : Vector α m) (ε : α) :
    Ensures (Pinned m n) (jacobian p.observed x r ε) (fun _ => Pinned m n) (FailedCalls n) := by
  rw [jacobian_eq]
  refine (ensures_call_jacobian p x r ε).bind fun J => ?_
  refine (Ensures.count _ fun s hs => hs).bind fun _ => ?_
  exact ensures_shaped x r ε J

theorem keeps_observed (p : Problem σ α) (n : Nat) :
    Keeps p.observed n (Session.Fits n) (fun m => Pinned m n) (FailedCalls n) where
  residuals x := ensures_residuals p x.size_toArray
  jacobian x r ε := ensures_jacobian p x r ε
  ready h := h.fits
  record h _ := h
  emit h _ := h

/-- how a solve of an observed problem ends -/
theorem settled_minimize [RealScalar α] (p : Problem σ α) (config : Config α) (x₀ : Array α)
    (q : σ) :
    Settled config x₀ ((Solve.minimize p.observed config x₀).run (.start (q, []))).2.calls
      ((Solve.minimize p.observed config x₀).run (.start (q, []))).1 := by
  cases hfault : config.fault? with
  | some fault =>
    have hvalidate : config.validate = .error (.parameter fault) := by
      unfold Config.validate
      rw [hfault]
    have hrun : (Solve.minimize p.observed config x₀).run (.start (q, [])) =
        (.error (.parameter fault), .start (q, [])) := by
      unfold Solve.minimize
      rw [hvalidate]
      rfl
    rw [hrun]
    exact .refused hfault
  | none =>
    have hvalidate : config.validate = .ok () := by
      unfold Config.validate
      rw [hfault]
    by_cases hsize : x₀.size = 0
    · have hrun : (Solve.minimize p.observed config x₀).run (.start (q, [])) =
          (.error (.dimension .noParameters), .start (q, [])) := by
        obtain rfl : x₀ = #[] := Array.eq_empty_of_size_eq_zero hsize
        unfold Solve.minimize
        rw [hvalidate]
        rfl
      rw [hrun]
      exact .noParameters hvalidate hsize
    · have h := (keeps_observed p x₀.size).minimize hvalidate hsize (.start (q, [])) rfl
      rcases hr : (Solve.minimize p.observed config x₀).run (.start (q, [])) with ⟨e | o, s'⟩
      · rw [hr] at h
        exact .failed hvalidate hsize h
      · rw [hr] at h
        obtain ⟨m, hpinned⟩ := h
        exact .returned hvalidate hsize hpinned.2

/-! ## the linear algebra of a step -/

section
variable [RealScalar α] {n : Nat}

/-- on sizes that fit a step is found, and can be added to the point, or the equations are
singular -/
theorem dampedStep_ok_or_singular {m : Nat} (J : Mat α m n) (r : Vector α m)
    (current : Iterate α n) :
    (∃ step : Vector α n,
      (⟨m, n, J⟩ : DenseMatrix α).dampedStep r.toArray current.damping = .ok step.toArray ∧
      add current.point.toArray step.toArray = .ok (candidate current step).toArray) ∨
    (⟨m, n, J⟩ : DenseMatrix α).dampedStep r.toArray current.damping = .error .singular := by
  have h := DenseMatrix.dampedStep_mk J r current.damping
  cases hstep : dampedStep J r current.damping with
  | none =>
    rw [hstep] at h
    exact .inr h
  | some step =>
    rw [hstep] at h
    exact .inl ⟨step, h, add_candidate current step⟩

/-- a damped step at a point whose size is known at run time, with a check of every size and a
branch for every failure -/
def attemptChecked (p : Problem σ α) (ε : α) (iteration : Nat) (x : Array α) (damping : α)
    (r : Array α) : Solve σ α (Array α × α) := do
  let J ← jacobian p x.toVector r.toVector ε
  match (⟨r.size, x.size, J⟩ : DenseMatrix α).dampedStep r damping with
  | .ok step =>
    let candidate ← MonadExcept.ofExcept (add x step)
    let candidateNorm := norm (← residuals p candidate)
    let accepted := Damping.accepts (norm r) candidateNorm
    emit (.candidate iteration candidateNorm accepted)
    return (if accepted then candidate else x, Damping.next accepted damping)
  | .error .singular =>
    emit (.singular iteration damping)
    return (x, Damping.next false damping)
  | .error e => throw e

theorem attempt_eq_attemptChecked (p : Problem σ α) (ε : α) (i : Nat) (current : Iterate α n)
    (r : Array α) :
    attemptChecked p ε i current.point.toArray current.damping r =
      attempt p ε i current r >>= fun next => pure (next.point.toArray, next.damping) := by
  obtain ⟨⟨x, hx⟩, damping⟩ := current
  subst hx
  unfold attemptChecked attempt
  rw [bind_assoc]
  refine bind_congr fun J => ?_
  have h := DenseMatrix.dampedStep_mk J r.toVector damping
  dsimp only
  cases hstep : dampedStep J r.toVector damping with
  | none =>
    rw [hstep] at h
    have h : (⟨r.size, x.size, J⟩ : DenseMatrix α).dampedStep r damping = .error .singular := h
    rw [h]
    rfl
  | some step =>
    rw [hstep] at h
    have h : (⟨r.size, x.size, J⟩ : DenseMatrix α).dampedStep r damping = .ok step.toArray := h
    have hadd : add x step.toArray = .ok (candidate ⟨x.toVector, damping⟩ step).toArray :=
      add_candidate ⟨x.toVector, damping⟩ step
    rw [h]
    dsimp only
    rw [hadd]
    show (residuals p (candidate ⟨x.toVector, damping⟩ step).toArray >>= fun _ => _) = _
    rw [bind_assoc]
    refine bind_congr fun c => ?_
    cases Damping.accepts (norm r) (norm c) <;> rfl

end
end Solve

/-- **A solve fails because of its options, its missing parameters, the failure of a call or an
answer of the wrong size, and for no other reason.**  A failed call is the last one, and its failure
comes back as it is; the linear algebra of a step, with all its checks, contributes none. -/
theorem minimize_settled [RealScalar α] (p : Problem σ α) (config : Config α) (x₀ : Array α)
    (q : σ) :
    (∃ report q' calls, (minimize config p.observed x₀).run (q, []) = (report, q', calls) ∧
      (minimize config p x₀).run q = (report, q') ∧ Settled config x₀ calls report.result ∧
      ∀ c ∈ calls, ∀ e, c.Raises e →
        report.result = .error e ∧ ∃ before, calls = before ++ [c]) ∧
    ∀ {n : Nat} (ε : α) (i : Nat) (current : Iterate α n) (r : Array α),
      (∀ J : Mat α r.size n,
        (∃ step : Vector α n,
          (⟨r.size, n, J⟩ : DenseMatrix α).dampedStep r current.damping = .ok step.toArray ∧
          add current.point.toArray step.toArray =
            .ok (Solve.candidate current step).toArray) ∨
        (⟨r.size, n, J⟩ : DenseMatrix α).dampedStep r current.damping = .error .singular) ∧
      Solve.attemptChecked p ε i current.point.toArray current.damping r =
        Solve.attempt p ε i current r >>= fun next => pure (next.point.toArray, next.damping) := by
  refine ⟨?_, ?_⟩
  · have hsettled := Solve.settled_minimize p config x₀ q
    refine ⟨_, _, _, rfl, minimize_observed p config x₀ q [], hsettled, ?_⟩
    intro c hc e hraises
    exact hsettled.of_raises hc hraises
  · intro n ε i current r
    refine ⟨?_, Solve.attempt_eq_attemptChecked p ε i current r⟩
    intro J
    exact Solve.dampedStep_ok_or_singular J r.toVector current

/-- a singular matrix that a Jacobian reports itself is not taken for a rejected step -/
example : (match ((minimize Config.default
      (⟨fun _ => pure #[1.0], fun _ _ _ => throw .singular, true⟩ : Problem Unit Float)
      #[0.5]).run ()).1.result with
    | .error .singular => true
    | _ => false) = true := by decide +kernel

end LeastSquares
