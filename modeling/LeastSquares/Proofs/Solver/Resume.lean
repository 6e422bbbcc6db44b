import LeastSquares.Proofs.Solver.Agreement
import LeastSquares.Proofs.Solver.Control
import LeastSquares.Proofs.Solver.Run

/-!
# Going on with a solve

A solve of a pure problem that has spent its budget can be gone on with: another one, started at the
returned point with the returned damping, does what a larger budget would have done.  The proof puts
the rest of the long solve beside the resumed one (`Behind`): the two sessions differ by what the
first solve has recorded and counted, and nothing that is decided depends on that.
-/

namespace LeastSquares
variable {σ α : Type}

/-! ## the rest of a solve -/

namespace Solve
variable [RealScalar α] {p : Problem σ α} {config : Config α} {n : Nat} {s : Session σ α}

/-- a solve from the point of an iterate, with its damping -/
theorem run_minimize_iterate {current : Iterate α n} (hvalid : config.validate = .ok ())
    (hsize : n ≠ 0) (hdamping : config.initialDamping = current.damping) :
    (Solve.minimize p config current.point.toArray).run s =
      (rest p config config.maxIterations 0 current).run s := by
  rw [run_minimize hvalid (by rwa [Vector.size_toArray]), hdamping, InStep.rest_toVector]

theorem run_rest_add {k budget i : Nat} {current last : Iterate α n} {s' : Session σ α}
    (h : Returns (passes p config k i current) s (last, .maxIterations) s') :
    (rest p config (k + budget) i current).run s = (rest p config budget (i + k) last).run s' := by
  unfold rest
  rw [run_bind, run_bind, run_passes_add h]

/-- the rest of a solve begins with the residuals at its first iterate -/
theorem run_rest_congr {budget i : Nat} {current : Iterate α n} {t : Session σ α}
    (h : (residuals p current.point.toArray).run s = (residuals p current.point.toArray).run t) :
    (rest p config budget i current).run s = (rest p config budget i current).run t := by
  unfold rest
  rw [run_bind, run_bind]
  cases budget with
  | zero =>
    have hzero (u : Session σ α) :
        (passes p config 0 i current).run u = (.ok (current, .maxIterations), u) := rfl
    rw [hzero, hzero]
    dsimp only
    rw [run_finish, run_finish, h]
  | succ budget => rw [passes_succ, run_bind, run_bind, h]

omit [RealScalar α] in
/-- residuals of a known length may be pinned before they are evaluated -/
theorem run_residuals_pinned {f : PureProblem α} (hp : p.IsPure f) {x r : Array α}
    (hr : f.residuals x = .ok r) (hs : s.residualLength = none) {length : Option Nat}
    (hlength : ∀ l ∈ length, r.size = l) :
    (residuals p x).run s = (residuals p x).run { s with residualLength := length } := by
  have hq : (p.residuals x).run s.problem = (.ok r, ((p.residuals x).run s.problem).2) :=
    Prod.ext ((hp.residuals x s.problem).trans hr) rfl
  have hfree : Returns (residuals p x) s r _ :=
    returns_residuals.mpr ⟨_, hq, by rw [hs]; nofun, rfl⟩
  have hpinned : Returns (residuals p x) { s with residualLength := length } r _ :=
    returns_residuals.mpr ⟨_, hq, hlength, rfl⟩
  exact hfree.trans hpinned.symm

end Solve

/-! ## a long solve beside a resumed one -/

/-- the session `s` of the long solve beside the session `t` of the resumed one, which began behind
`k` passes, their records and a number of evaluations -/
structure Behind (k : Nat) (records : Array (Snapshot α)) (evaluations : Nat) (s t : Session σ α) :
    Prop where
  residualLength : s.residualLength = t.residualLength
  evaluations : s.evaluations = evaluations + t.evaluations
  history : s.history = records ++ t.history.map (Snapshot.later k)

section
variable {k : Nat} {records : Array (Snapshot α)} {evaluations : Nat} {p : Problem σ α}
  {f : PureProblem α}

theorem Behind.bookkeeping : Solve.Bookkeeping (Behind (σ := σ) k records evaluations) k where
  length_eq h := h.residualLength
  pin h _ := ⟨rfl, h.evaluations, h.history⟩
  count h c := ⟨h.residualLength, by rw [h.evaluations, Nat.add_assoc], h.history⟩
  record h a := ⟨h.residualLength, h.evaluations, by simp [h.history]⟩
  emit h _ := ⟨h.residualLength, h.evaluations, h.history⟩

theorem Problem.IsPure.sameAnswers (hp : p.IsPure f) :
    Solve.SameAnswers (Behind k records evaluations) p p where
  residuals x := .of_run fun s t h => by
    refine ⟨?_, ⟨h.residualLength, h.evaluations, h.history⟩⟩
    exact (hp.residuals x s.problem).trans (hp.residuals x t.problem).symm
  jacobian x r ε := .of_run fun s t h => by
    refine ⟨?_, ⟨h.residualLength, h.evaluations, h.history⟩⟩
    exact (hp.jacobian x r ε s.problem).trans (hp.jacobian x r ε t.problem).symm
  hasCustomJacobian := rfl

end

/-! ## what the two solves return -/

/-- `long` is what a solve of `k` passes with the outcome `o` and one that goes on from there with
the outcome `r` return together -/
structure Outcome.Joins (long o r : Outcome α) (k : Nat) : Prop where
  history : long.history = o.history ++ r.history.map (Snapshot.later k)
  solution : long.solution = r.solution
  status : long.status = r.status
  residualNorm : long.residualNorm = r.residualNorm
  damping : long.damping = r.damping
  /-- the last evaluation of the first solve is made once more by the resumed one -/
  evaluations : long.evaluations + 1 = o.evaluations + r.evaluations

/-- the results of a long solve and of one that goes on behind the outcome `o` of `k` passes -/
inductive Resumed (o : Outcome α) (k : Nat) :
    (long resumed : Except (Failure α) (Outcome α)) → Prop where
  | failed (e : Failure α) : Resumed o k (.error e) (.error e)
  | returned {long r : Outcome α} (joins : long.Joins o r k) : Resumed o k (.ok long) (.ok r)

theorem Resumed.exists_of_ok {o long : Outcome α} {k : Nat}
    {resumed : Except (Failure α) (Outcome α)} (h : Resumed o k (.ok long) resumed) :
    ∃ r, resumed = .ok r ∧ long.Joins o r k := by
  cases h with
  | returned joins => exact ⟨_, rfl, joins⟩

section
open Solve
variable [RealScalar α] {p : Problem σ α} {f : PureProblem α} {config config' : Config α}
  {k n : Nat} {o : Outcome α} {evaluations : Nat} {s t : Session σ α}

/-- what the two solves return behind the same last evaluation -/
theorem Behind.ends_joins (hbehind : Bookkeeping (Behind (σ := σ) k o.history evaluations) k)
    (hcount : evaluations + 1 = o.evaluations) (tolerance : α) :
    (hbehind.coupling n tolerance).Ends fun long r _ _ => long.Joins o r k := by
  intro last exit status v s t hst
  refine ⟨hst.history, rfl, rfl, rfl, rfl, ?_⟩
  show s.evaluations + 1 = o.evaluations + t.evaluations
  rw [hst.evaluations, ← hcount, Nat.add_right_comm]

theorem Behind.resumed_rest (hp : p.IsPure f) (h : Behind k o.history evaluations s t)
    (hcount : evaluations + 1 = o.evaluations) (htolerance : config.tolerance = config'.tolerance)
    (hstep : config.differenceStep = config'.differenceStep) (budget i : Nat)
    (current : Iterate α n) :
    Resumed o k ((rest p config budget (i + k) current).run s).1
      ((rest p config' budget i current).run t).1 := by
  have hbehind : Bookkeeping (Behind (σ := σ) k o.history evaluations) k := Behind.bookkeeping
  have hinStep := hp.sameAnswers.inStep (n := n) hbehind config.tolerance config.differenceStep
  have htogether := hinStep.together_rest rfl htolerance.symm hstep.symm
    (Behind.ends_joins hbehind hcount config.tolerance) budget i current trivial
  rcases htogether s t h with ⟨long, r, s', t', hs, ht, hjoins⟩ | ⟨e, _, s', t', hs, ht, rfl, -⟩
  · have hs : (rest p config budget (i + k) current).run s = (.ok long, s') := hs
    have ht : (rest p config' budget i current).run t = (.ok r, t') := ht
    rw [hs, ht]
    exact .returned hjoins
  · have hs : (rest p config budget (i + k) current).run s = (.error e, s') := hs
    have ht : (rest p config' budget i current).run t = (.error e, t') := ht
    rw [hs, ht]
    exact .failed e

/-- the same passes, started in another state of a pure problem -/
theorem Behind.of_returns (hp : p.IsPure f) {budget : Nat} {current last : Iterate α n}
    {exit : Status} {q : σ}
    (h : Returns (passes p config budget 0 current) (.start q) (last, exit) t)
    (htolerance : config'.tolerance = config.tolerance)
    (hstep : config'.differenceStep = config.differenceStep) (q' : σ) :
    ∃ s, Returns (passes p config' budget 0 current) (.start q') (last, exit) s ∧
      Behind 0 #[] 0 s t := by
  have hstart : Behind 0 #[] 0 (.start q' : Session σ α) (.start q) :=
    ⟨rfl, rfl, by simp [Session.start]⟩
  obtain ⟨hresult, hstate⟩ := (agree_passes Behind.bookkeeping hp.sameAnswers htolerance hstep
    budget 0 current).run hstart
  rw [h] at hresult hstate
  exact ⟨((passes p config' budget 0 current).run (.start q')).2, Prod.ext hresult rfl, hstate⟩

namespace Solved
variable {x₀ : Array α} {q : σ} {last : Iterate α x₀.size} {exit : Status} {s' : Session σ α}
  {r : Array α}

/-- the last evaluation of a solve is made behind its passes -/
theorem evaluations_eq (h : Solved p config x₀ q o last exit s r s') :
    s.evaluations + 1 = o.evaluations := by
  obtain ⟨q', -, -, hs'⟩ := returns_residuals.mp h.evaluated
  rw [h.outcome, hs']
  rfl

/-- a solve from where another one has ended begins with residuals of the same length -/
theorem run_again (h : Solved p config x₀ q o last exit s r s') (hp : p.IsPure f)
    (hvalid : config'.validate = .ok ()) (hdamping : config'.initialDamping = last.damping)
    (q' : σ) : (Solve.minimize p config' last.point.toArray).run (.start q') =
      (rest p config' config'.maxIterations 0 last).run
        { Session.start q' with residualLength := s.residualLength } := by
  have hr := residuals_of_returns hp h.evaluated
  obtain ⟨-, -, hlength, -⟩ := returns_residuals.mp h.evaluated
  rw [run_minimize_iterate hvalid h.nonempty hdamping]
  exact run_rest_congr (run_residuals_pinned hp hr rfl hlength)

/-- the session behind the same passes, beside one that begins anew -/
theorem behind (h : Solved p config x₀ q o last exit s r s') (hst : Behind 0 #[] 0 t s) (q' : σ) :
    Behind k o.history s.evaluations t
      { Session.start q' with residualLength := s.residualLength } := by
  refine ⟨hst.residualLength, ?_, ?_⟩
  · rw [hst.evaluations]
    exact Nat.zero_add _
  · rw [hst.history, h.history_eq]
    simp [Session.start]

end Solved

/-- a solve without a record below the tolerance has spent its budget -/
theorem exists_solved_of_above {x₀ : Array α} {q : σ}
    (h : ((minimize config p x₀).run q).1.result = .ok o)
    (above : ∀ a ∈ o.history, ¬ a.residualNorm < config.tolerance) :
    ∃ last s r s', Solved p config x₀ q o last .maxIterations s r s' := by
  obtain ⟨last, exit, s, r, s', hsolved⟩ := exists_solved h
  obtain ⟨notes, -, htrace⟩ := (Notes.silent p config x₀.size).trace_of_solved hsolved
  obtain ⟨rfl, -⟩ := htrace.spent_of_above fun a ha => above a (Array.mem_toList_iff.mp ha)
  exact ⟨last, s, r, s', hsolved⟩

/-- the options of a solve that goes on behind the outcome `o` -/
def Config.resumed (config : Config α) (o : Outcome α) (budget : Nat) : Config α :=
  (config.withMaxIterations budget).withInitialDamping o.damping

theorem resumed_of_minimize (hp : p.IsPure f) {x₀ : Array α} {q : σ}
    (h : ((minimize (config.withMaxIterations k) p x₀).run q).1.result = .ok o)
    (above : ∀ a ∈ o.history, ¬ a.residualNorm < config.tolerance) {budget : Nat}
    (hresumed : (config.resumed o budget).validate = .ok ()) (q₁ q₂ : σ) :
    Resumed o k ((minimize (config.withMaxIterations (k + budget)) p x₀).run q₁).1.result
      ((minimize (config.resumed o budget) p o.solution).run q₂).1.result := by
  obtain ⟨last, s₁, r, s₂, hsolved⟩ := exists_solved_of_above h above
  obtain ⟨s, hlong, hstate⟩ := Behind.of_returns hp hsolved.passes
    (show (config.withMaxIterations (k + budget)).tolerance = _ from rfl) rfl q₁
  have hrest : (Solve.minimize p (config.withMaxIterations (k + budget)) x₀).run (.start q₁) =
      (rest p (config.withMaxIterations (k + budget)) budget (0 + k) last).run s := by
    have hvalid : (config.withMaxIterations (k + budget)).validate = .ok () := hsolved.valid
    rw [run_minimize hvalid hsolved.nonempty]
    exact run_rest_add hlong
  have hagain := hsolved.run_again hp hresumed hsolved.damping_final q₂
  have hsolution : o.solution = last.point.toArray := hsolved.point_final
  show Resumed o k ((Solve.minimize p _ x₀).run (.start q₁)).1
    ((Solve.minimize p _ o.solution).run (.start q₂)).1
  rw [hsolution, hrest, hagain]
  refine (hsolved.behind hstate q₂).resumed_rest hp hsolved.evaluations_eq ?_ ?_ budget 0 last
  · rfl
  · rfl

end

/-- **A solve of a pure problem can be cut and gone on with**: if the outcome `o` of `k` passes has
no record below the tolerance, then a solve from its solution with its damping, which is always
allowed, does what the longer solve does behind pass `k`. -/
theorem minimize_resumed {p : Problem σ Float} {f : PureProblem Float} {config : Config Float}
    {x₀ : Array Float} {q : σ} {o : Outcome Float} {k : Nat} (hp : p.IsPure f)
    (h : ((minimize (config.withMaxIterations k) p x₀).run q).1.result = .ok o)
    (above : ∀ a ∈ o.history, ¬ a.residualNorm < config.tolerance) (budget : Nat) (q₁ q₂ : σ) :
    (config.resumed o budget).validate = .ok () ∧
      Resumed o k ((minimize (config.withMaxIterations (k + budget)) p x₀).run q₁).1.result
        ((minimize (config.resumed o budget) p o.solution).run q₂).1.result := by
  have hvalid : (config.resumed o budget).validate = .ok () := by
    obtain ⟨hinitial, hstep, htolerance⟩ := Config.validate_eq_ok.mp (validate_of_minimize h)
    have hdamping := (LegalRun.of_minimize hp h).damping_of_next
      (P := fun x => Config.isPositiveFinite x = true)
      (fun accepted _ hx => Damping.isPositiveFinite_next accepted hx) hinitial (Nat.le_refl _)
    rw [o.state_size] at hdamping
    exact Config.validate_eq_ok.mpr ⟨hdamping, hstep, htolerance⟩
  exact ⟨hvalid, resumed_of_minimize hp h above hvalid q₁ q₂⟩

/-- one rejected pass from `0.25`, and the accepted one that another solve makes behind it -/
theorem squareRoots_resumed : ∃ o long r : Outcome Float,
    ((minimize (twoPasses.withMaxIterations 1) (squareRoots.toProblem : Problem Unit Float)
      #[0.25]).run ()).1.result = .ok o ∧
    (twoPasses.resumed o 1).validate = .ok () ∧
    (runSquareRoots #[0.25]).result = .ok long ∧
    ((minimize (twoPasses.resumed o 1) (squareRoots.toProblem : Problem Unit Float)
      o.solution).run ()).1.result = .ok r ∧ long.Joins o r 1 := by
  have hfirst : (((minimize (twoPasses.withMaxIterations 1)
      (squareRoots.toProblem : Problem Unit Float) #[0.25]).run ()).1.result.toOption.any
        fun o => o.history.all fun a => !(a.residualNorm < twoPasses.tolerance)) = true := by
    decide +kernel
  have hlong : (runSquareRoots #[0.25]).result.isOk = true := by decide +kernel
  obtain ⟨o, ho, habove⟩ := Report.exists_outcome_of_any hfirst
  obtain ⟨long, hlong⟩ := Report.exists_outcome hlong
  have above : ∀ a ∈ o.history, ¬ a.residualNorm < twoPasses.tolerance := by
    intro a ha
    simpa using Array.all_eq_true_iff_forall_mem.mp habove a ha
  obtain ⟨hvalid, hresumed⟩ :=
    minimize_resumed squareRoots.isPure_toProblem ho above 1 () ()
  have hlonger : ((minimize (twoPasses.withMaxIterations (1 + 1))
      (squareRoots.toProblem : Problem Unit Float) #[0.25]).run ()).1.result = .ok long := hlong
  rw [hlonger] at hresumed
  obtain ⟨r, hr, joins⟩ := hresumed.exists_of_ok
  exact ⟨o, long, r, ho, hvalid, hlong, hr, joins⟩

end LeastSquares
