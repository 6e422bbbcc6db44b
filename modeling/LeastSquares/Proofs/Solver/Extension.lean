import LeastSquares.Proofs.Solver.Descent
import LeastSquares.Proofs.Solver.Exit
import LeastSquares.Proofs.Solver.Resume

/-!
# More passes, a smaller tolerance

Two solves of a pure problem may differ in nothing but when they stop: with a larger budget or a
smaller tolerance the second one goes on for longer (`Config.StopsNoLater`).

* If the longer solve succeeds, so does the shorter one (`exists_outcome_of_stopsNoLater`): where it
  stops, it evaluates once more what the longer one has evaluated too.
* The two runs have the same states as long as the shorter one is above its tolerance
  (`LegalRun.state_eq_of_above`), so its history is the beginning of the longer one
  (`LegalRun.history_isPrefix`), and it ends at a state of the longer run or below its tolerance
  (`LegalRun.below_or_final_eq`).
-/

namespace LeastSquares
variable {σ α : Type} [RealScalar α]

/-- options that stop a solve no later than `config` does, and differ from it in nothing else -/
structure Config.StopsNoLater (config' config : Config α) : Prop where
  initialDamping : config'.initialDamping = config.initialDamping
  differenceStep : config'.differenceStep = config.differenceStep
  maxIterations : config'.maxIterations ≤ config.maxIterations
  below : ∀ {v : α}, v < config.tolerance → v < config'.tolerance

/-! ## the shorter solve succeeds -/

section
open Solve
variable {p : Problem σ α} {f : PureProblem α} {config config' : Config α} {n : Nat}
  {s s₁ s' t : Session σ α}

omit [RealScalar α] in
/-- what a pure problem has answered it answers again -/
theorem exists_returns_again (hp : p.IsPure f) {x r : Array α}
    (h : Returns (residuals p x) s r s₁) (ht : t.residualLength = s₁.residualLength) :
    ∃ t', Returns (residuals p x) t r t' := by
  have hr := residuals_of_returns hp h
  obtain ⟨q, -, -, rfl⟩ := returns_residuals.mp h
  have hq : (p.residuals x).run t.problem = (.ok r, ((p.residuals x).run t.problem).2) :=
    Prod.ext ((hp.residuals x t.problem).trans hr) rfl
  have hlength : ∀ l ∈ t.residualLength, r.size = l := by
    intro l hl
    rw [ht] at hl
    exact Option.some.inj hl
  exact ⟨_, returns_residuals.mpr ⟨_, hq, hlength, rfl⟩⟩

/-- a loop and the evaluation behind it begin with the residuals at the first iterate -/
theorem exists_returns_first {budget i : Nat} {current last : Iterate α n} {exit : Status}
    (h : Returns (passes p config budget i current) s (last, exit) s')
    (hlast : ∃ r s'', Returns (residuals p last.point.toArray) s' r s'') :
    ∃ r s₁, Returns (residuals p current.point.toArray) s r s₁ := by
  cases budget with
  | zero =>
    obtain ⟨rfl, -, rfl⟩ := returns_passes_zero.mp h
    exact hlast
  | succ budget =>
    obtain ⟨r, s₁, hr, -⟩ := returns_passes_succ.mp h
    exact ⟨r, s₁, hr⟩

omit [RealScalar α] in
theorem Behind.exists_returns {β : Type} {k : Nat} {records : Array (Snapshot α)}
    {evaluations : Nat} {x y : Solve σ α β} (hst : Behind k records evaluations s t)
    (h : Agree (Behind k records evaluations) x y) {b : β} (hx : Returns x s b s') :
    ∃ t', Returns y t b t' ∧ Behind k records evaluations s' t' := by
  obtain ⟨hresult, hstate⟩ := h.run hst
  rw [hx] at hresult hstate
  exact ⟨(y.run t).2, Prod.ext hresult.symm rfl, hstate⟩

/-- where a loop and the evaluation behind it succeed, so do those of a loop that stops no later -/
theorem exists_returns_of_stopsNoLater (hp : p.IsPure f) (hstop : config'.StopsNoLater config)
    {budget budget' i : Nat} (hle : budget' ≤ budget) {current last : Iterate α n} {exit : Status}
    (h : Returns (passes p config budget i current) s (last, exit) s')
    (hlast : ∃ r s'', Returns (residuals p last.point.toArray) s' r s'')
    (hst : Behind 0 #[] 0 s t) :
    ∃ last' exit' t', Returns (passes p config' budget' i current) t (last', exit') t' ∧
      ∃ r t'', Returns (residuals p last'.point.toArray) t' r t'' := by
  have hresiduals (x : Array α) :
      Agree (Behind 0 #[] 0) (residuals p x) (residuals p x) :=
    agree_residuals Behind.bookkeeping hp.sameAnswers x
  induction budget' generalizing budget i current s t with
  | zero =>
    obtain ⟨r, s₁, hr⟩ := exists_returns_first h hlast
    obtain ⟨t₁, hr', -⟩ := hst.exists_returns (hresiduals _) hr
    exact ⟨current, .maxIterations, t, returns_passes_zero.mpr ⟨rfl, rfl, rfl⟩, r, t₁, hr'⟩
  | succ budget' ih =>
    obtain ⟨budget, rfl⟩ : ∃ b, budget = b + 1 := ⟨budget - 1, by omega⟩
    obtain ⟨r, s₁, hr, h⟩ := returns_passes_succ.mp h
    obtain ⟨t₁, hr', hst₁⟩ := hst.exists_returns (hresiduals _) hr
    by_cases hb : norm r < config'.tolerance
    · -- the shorter loop stops here, whatever the longer one does
      obtain ⟨t₂, hagain⟩ := exists_returns_again hp hr' (t := recorded t₁ i current (norm r)) rfl
      have hpasses : Returns (passes p config' (budget' + 1) i current) t (current, .converged) _ :=
        returns_passes_succ.mpr ⟨r, t₁, hr', .inl ⟨hb, rfl, rfl, rfl⟩⟩
      exact ⟨current, .converged, _, hpasses, r, t₂, hagain⟩
    · rcases h with ⟨hb', -⟩ | ⟨-, next, s₂, hn, h⟩
      · exact absurd (hstop.below hb') hb
      · have hrecorded : Behind 0 #[] 0 (recorded s₁ i current (norm r))
            (recorded t₁ i current (norm r)) :=
          ⟨hst₁.residualLength, hst₁.evaluations, by simp [recorded, hst₁.history]⟩
        obtain ⟨t₂, hn', hst₂⟩ := hrecorded.exists_returns
          (agree_attempt Behind.bookkeeping hp.sameAnswers config.differenceStep i current r) hn
        obtain ⟨last', exit', t', hpasses, hfinal⟩ := ih (Nat.le_of_succ_le_succ hle) h hst₂
        rw [← hstop.differenceStep] at hn'
        have hlonger := returns_passes_succ.mpr ⟨r, t₁, hr', .inr ⟨hb, next, t₂, hn', hpasses⟩⟩
        exact ⟨last', exit', t', hlonger, hfinal⟩

theorem exists_outcome_of_stopsNoLater (hp : p.IsPure f) (hstop : config'.StopsNoLater config)
    (hvalid : config'.validate = .ok ()) {x₀ : Array α} {q : σ} {long : Outcome α}
    (h : ((minimize config p x₀).run q).1.result = .ok long) (q' : σ) :
    ∃ o, ((minimize config' p x₀).run q').1.result = .ok o := by
  obtain ⟨s', h⟩ := result_minimize.mp h
  obtain ⟨-, hsize, last, exit, s₁, hpasses, hfinish⟩ := returns_minimize.mp h
  obtain ⟨r, s₂, hr, -, -⟩ := returns_finish.mp hfinish
  have hstart : Behind 0 #[] 0 (.start q : Session σ α) (.start q') :=
    ⟨rfl, rfl, by simp [Session.start]⟩
  obtain ⟨last', exit', t', hpasses', r', t'', hr'⟩ := exists_returns_of_stopsNoLater hp hstop
    hstop.maxIterations hpasses ⟨r, s₂, hr⟩ hstart
  rw [← hstop.initialDamping] at hpasses'
  have hfinish' : Returns (finish p config' last' exit') t' _ _ :=
    returns_finish.mpr ⟨r', t'', hr', rfl, rfl⟩
  have hminimize := returns_minimize.mpr ⟨hvalid, hsize, last', exit', t', hpasses', hfinish'⟩
  exact ⟨_, result_minimize.mpr ⟨_, hminimize⟩⟩

end

/-! ## two legal runs side by side -/

theorem Snapshot.eq_of_evaluated {f : PureProblem α} {a b : Snapshot α}
    (hi : a.iteration = b.iteration) (hx : a.point = b.point) (hd : a.damping = b.damping)
    (ha : f.residualNorm a.point = .ok a.residualNorm)
    (hb : f.residualNorm b.point = .ok b.residualNorm) : a = b := by
  obtain ⟨i, x, v, damping⟩ := a
  obtain ⟨j, y, w, damping'⟩ := b
  dsimp only at hi hx hd ha hb
  subst hi hx hd
  rw [ha] at hb
  cases hb
  rfl

/-- a pass is accepted or not, as the step and its candidate say -/
theorem Pass.accepted_unique {f : PureProblem α} {ε : α} {a : Snapshot α} {y y' : Array α}
    {μ μ' : α} {accepted accepted' : Bool} (h : Pass f ε a y μ accepted)
    (h' : Pass f ε a y' μ' accepted') : accepted = accepted' := by
  cases h with
  | accepted hr hJ hs hc hv hlower _ =>
    exact ((h'.accepted_iff_lower hr hJ hs hc hv).mpr hlower).symm
  | rejected hr hJ hs hc hv not_lower _ _ =>
    have hfalse := mt (h'.accepted_iff_lower hr hJ hs hc hv).mp not_lower
    exact (Bool.eq_false_of_not_eq_true hfalse).symm
  | singular hr hJ hs _ _ =>
    cases h' with
    | accepted hr' hJ' hs' _ _ _ _ =>
      obtain rfl := Except.ok.inj (hr.symm.trans hr')
      obtain rfl := Except.ok.inj (hJ.symm.trans hJ')
      cases hs.symm.trans hs'
    | rejected _ _ _ _ _ _ _ _ => rfl
    | singular _ _ _ _ _ => rfl

/-- a pass leads to one point and one damping only -/
theorem Pass.unique {f : PureProblem α} {ε : α} {a : Snapshot α} {y y' : Array α} {μ μ' : α}
    {accepted accepted' : Bool} (h : Pass f ε a y μ accepted) (h' : Pass f ε a y' μ' accepted') :
    y = y' ∧ μ = μ' := by
  obtain rfl := h.accepted_unique h'
  refine ⟨?_, h.damping_eq.trans h'.damping_eq.symm⟩
  cases accepted with
  | false => exact h.point_eq.trans h'.point_eq.symm
  | true =>
    cases h with
    | accepted hr hJ hs hc _ _ _ =>
      cases h' with
      | accepted hr' hJ' hs' hc' _ _ _ =>
        obtain rfl := Except.ok.inj (hr.symm.trans hr')
        obtain rfl := Except.ok.inj (hJ.symm.trans hJ')
        obtain rfl := Except.ok.inj (hs.symm.trans hs')
        exact Except.ok.inj (hc.symm.trans hc')

namespace LegalRun
variable {f : PureProblem α} {config config' : Config α} {x₀ : Array α} {long o : Outcome α}
  {k : Nat}

/-- only the last state of a run is below its tolerance -/
theorem above_of_lt (h : LegalRun f config x₀ o) (hk : k < o.history.size) {i : Nat} (hi : i < k) :
    ¬ (o.state i).residualNorm < config.tolerance := by
  intro hb
  have hlast := (h.stop i (hi.trans hk) hb).1
  omega

theorem state_eq (h : LegalRun f config x₀ long) (h' : LegalRun f config' x₀ o)
    (hk : k ≤ o.history.size) (hk' : k ≤ long.history.size)
    (hx : (o.state k).point = (long.state k).point)
    (hd : (o.state k).damping = (long.state k).damping) : o.state k = long.state k :=
  Snapshot.eq_of_evaluated ((h'.iteration k hk).trans (h.iteration k hk').symm) hx hd
    (h'.evaluated k hk) (h.evaluated k hk')

/-- as long as the shorter run is above its tolerance, the two runs have the same states -/
theorem state_eq_of_above (h : LegalRun f config x₀ long) (h' : LegalRun f config' x₀ o)
    (hstop : config'.StopsNoLater config) (hk : k ≤ o.history.size) (hk' : k ≤ long.history.size)
    (above : ∀ i < k, ¬ (o.state i).residualNorm < config'.tolerance) :
    o.state k = long.state k := by
  induction k with
  | zero =>
    have hd := h'.damping_zero.trans (hstop.initialDamping.trans h.damping_zero.symm)
    exact h.state_eq h' hk hk' (h'.point_zero.trans h.point_zero.symm) hd
  | succ k ih =>
    have hstate := ih (Nat.le_of_succ_le hk) (Nat.le_of_succ_le hk')
      fun i hi => above i (Nat.lt_succ_of_lt hi)
    have ha' := above k (Nat.lt_succ_self k)
    have ha : ¬ (long.state k).residualNorm < config.tolerance := by
      rw [← hstate]
      exact fun hb => ha' (hstop.below hb)
    obtain ⟨_, hpass'⟩ := h'.pass k hk ha'
    obtain ⟨_, hpass⟩ := h.pass k hk' ha
    unfold Outcome.Passed at hpass hpass'
    rw [hstate, hstop.differenceStep] at hpass'
    obtain ⟨hx, hd⟩ := hpass'.unique hpass
    exact h.state_eq h' hk hk' hx hd

/-- a run that stops no later is not longer -/
theorem size_le (h : LegalRun f config x₀ long) (h' : LegalRun f config' x₀ o)
    (hstop : config'.StopsNoLater config) : o.history.size ≤ long.history.size := by
  by_contra hlonger
  have hlt : long.history.size < o.history.size := Nat.lt_of_not_le hlonger
  -- the longer run has not spent its budget, so its last record is below its tolerance
  have hbudget := h'.length_le.trans hstop.maxIterations
  obtain ⟨k, hk, hb⟩ := h.short (hlt.trans_le hbudget)
  have hk' : k < o.history.size := by omega
  have hstate := h.state_eq_of_above h' hstop hk'.le (by omega) fun i hi => h'.above_of_lt hk' hi
  rw [← hstate] at hb
  have hlast := (h'.stop k hk' (hstop.below hb)).1
  omega

theorem history_isPrefix (h : LegalRun f config x₀ long) (h' : LegalRun f config' x₀ o)
    (hstop : config'.StopsNoLater config) : o.history.toList <+: long.history.toList := by
  have hsize := h.size_le h' hstop
  refine List.prefix_iff_getElem?.mpr ?_
  intro k hk
  have hk : k < o.history.size := hk
  have hk' : k < long.history.size := hk.trans_le hsize
  have hstate := h.state_eq_of_above h' hstop hk.le hk'.le fun i hi => h'.above_of_lt hk hi
  rw [o.state_of_lt hk, long.state_of_lt hk'] at hstate
  simpa [hk'] using hstate.symm

/-- the shorter run ends below its tolerance or at a state of the longer one -/
theorem below_or_final_eq (h : LegalRun f config x₀ long) (h' : LegalRun f config' x₀ o)
    (hstop : config'.StopsNoLater config) :
    (∃ k, k + 1 = o.history.size ∧ (o.state k).residualNorm < config'.tolerance) ∨
      o.final = long.state o.history.size := by
  by_cases hlast : ∃ k, k + 1 = o.history.size ∧ (o.state k).residualNorm < config'.tolerance
  · exact .inl hlast
  · right
    rw [← o.state_size]
    refine h.state_eq_of_above h' hstop le_rfl (h.size_le h' hstop) ?_
    intro i hi hb
    exact hlast ⟨i, (h'.stop i hi hb).1, hb⟩

/-- with the same tolerance the shorter run ends at a state of the longer one -/
theorem final_eq_of_tolerance_eq (h : LegalRun f config x₀ long) (h' : LegalRun f config' x₀ o)
    (hstop : config'.StopsNoLater config) (htolerance : config'.tolerance = config.tolerance) :
    o.final = long.state o.history.size := by
  rcases h.below_or_final_eq h' hstop with ⟨k, hk, hb⟩ | hfinal
  · have hsize := h.size_le h' hstop
    have hk' : k < o.history.size := by omega
    have hstate := h.state_eq_of_above h' hstop hk'.le (by omega)
      fun i hi => h'.above_of_lt hk' hi
    obtain ⟨-, hx', hd'⟩ := h'.stop k hk' hb
    rw [hstate, htolerance] at hb
    obtain ⟨hlast, hx, hd⟩ := h.stop k (by omega) hb
    rw [hstate] at hx' hd'
    rw [← o.state_size]
    refine h.state_eq h' le_rfl hsize ?_ ?_
    · rw [o.state_size, ← hk, hlast, long.state_size]
      exact hx'.trans hx.symm
    · rw [o.state_size, ← hk, hlast, long.state_size]
      exact hd'.trans hd.symm
  · exact hfinal

theorem converged_iff (h : LegalRun f config x₀ o) :
    o.status = .converged ↔ o.residualNorm < config.tolerance := by
  rw [h.status]
  exact Criteria.finalStatus_eq_converged

/-- a run with a state below its tolerance converges -/
theorem norm_lt_of_below (h : LegalRun f config x₀ o) (hk : k ≤ o.history.size)
    (hb : (o.state k).residualNorm < config.tolerance) : o.residualNorm < config.tolerance := by
  rcases Nat.lt_or_eq_of_le hk with hlt | rfl
  · exact h.norm_lt_of_recorded hlt hb
  · rw [o.state_size] at hb
    exact hb

/-- no state of a run has a greater residual norm than an earlier one -/
theorem not_norm_lt {f : PureProblem Float} {config : Config Float} {x₀ : Array Float}
    {o : Outcome Float} {i k : Nat} (h : LegalRun f config x₀ o) (hi : i ≤ k)
    (hk : k ≤ o.history.size) : ¬ (o.state i).residualNorm < (o.state k).residualNorm := by
  cases h0 : (o.state 0).residualNorm.isNaN with
  | false => exact Binary64.not_lt_of_le (h.antitone h0 hi hk)
  | true => exact Binary64.not_lt_of_isNaN (.inr (h.point_eq_of_nan h0 hk).2)

end LegalRun

/-! ## what the two solves return -/

/-- what a solve with a larger budget, which returned `long`, has in common with the solve that
returned `o` -/
structure Outcome.Prolongs (long o : Outcome Float) : Prop where
  history : o.history.toList <+: long.history.toList
  not_greater : ¬ o.residualNorm < long.residualNorm
  converged : o.status = .converged → long.status = .converged

/-- what a solve with a smaller tolerance, which returned `long`, has in common with the solve that
returned `o` -/
structure Outcome.Sharpens (long o : Outcome Float) : Prop where
  history : o.history.toList <+: long.history.toList
  converged : long.status = .converged → o.status = .converged

section
variable {f : PureProblem Float} {config config' : Config Float} {x₀ : Array Float}
  {long o : Outcome Float}

theorem LegalRun.prolongs (h : LegalRun f config x₀ long) (h' : LegalRun f config' x₀ o)
    (hstop : config'.StopsNoLater config) (htolerance : config'.tolerance = config.tolerance) :
    long.Prolongs o := by
  have hsize := h.size_le h' hstop
  have hfinal := h.final_eq_of_tolerance_eq h' hstop htolerance
  have hnorm : o.residualNorm = (long.state o.history.size).residualNorm :=
    congrArg Snapshot.residualNorm hfinal
  constructor
  case history => exact h.history_isPrefix h' hstop
  case not_greater =>
    have hlast := h.not_norm_lt hsize le_rfl
    rw [long.state_size, ← hnorm] at hlast
    exact hlast
  case converged =>
    intro hconverged
    rw [h'.converged_iff, hnorm, htolerance] at hconverged
    exact h.converged_iff.mpr (h.norm_lt_of_below hsize hconverged)

theorem LegalRun.sharpens (h : LegalRun f config x₀ long) (h' : LegalRun f config' x₀ o)
    (hstop : config'.StopsNoLater config)
    (hbudget : config'.maxIterations = config.maxIterations) : long.Sharpens o := by
  refine ⟨h.history_isPrefix h' hstop, ?_⟩
  intro hconverged
  rw [h.converged_iff] at hconverged
  rw [h'.converged_iff]
  rcases h.below_or_final_eq h' hstop with ⟨k, hk, hb⟩ | hfinal
  · exact h'.norm_lt_of_below (by omega) hb
  · rcases Nat.lt_or_eq_of_le h'.length_le with hshort | hspent
    · obtain ⟨k, hk, hb⟩ := h'.short hshort
      exact h'.norm_lt_of_below (by omega) hb
    · -- both have spent the same budget, so they end at the same state
      have hsize : o.history.size = long.history.size :=
        Nat.le_antisymm (h.size_le h' hstop) (by
          rw [hspent, hbudget]
          exact h.length_le)
      rw [hsize, long.state_size] at hfinal
      have hnorm : o.residualNorm = long.residualNorm := congrArg Snapshot.residualNorm hfinal
      rw [hnorm]
      exact hstop.below hconverged

end

/-- **A solve of a pure problem with a larger budget or a smaller tolerance goes on where the other
one stops**: if it succeeds, so does the other one, whose history is the beginning of its own. -/
theorem minimize_extended {p : Problem σ Float} {f : PureProblem Float} (hp : p.IsPure f)
    (config : Config Float) (x₀ : Array Float) (q q' : σ) :
    (∀ N M, N ≤ M → ∀ long,
      ((minimize (config.withMaxIterations M) p x₀).run q).1.result = .ok long →
      ∃ o, ((minimize (config.withMaxIterations N) p x₀).run q').1.result = .ok o ∧
        long.Prolongs o) ∧
    ∀ t t' : Float, t ≤ t' → ∀ long,
      ((minimize (config.withTolerance t) p x₀).run q).1.result = .ok long →
      ∃ o, ((minimize (config.withTolerance t') p x₀).run q').1.result = .ok o ∧
        long.Sharpens o := by
  refine ⟨?_, ?_⟩
  · intro N M hle long hlong
    have hstop : (config.withMaxIterations N).StopsNoLater (config.withMaxIterations M) :=
      ⟨rfl, rfl, hle, id⟩
    have hvalid : (config.withMaxIterations M).validate = .ok () := validate_of_minimize hlong
    obtain ⟨o, ho⟩ := exists_outcome_of_stopsNoLater hp hstop hvalid hlong q'
    exact ⟨o, ho, (LegalRun.of_minimize hp hlong).prolongs (.of_minimize hp ho) hstop rfl⟩
  · intro t t' hle long hlong
    have hstop : (config.withTolerance t').StopsNoLater (config.withTolerance t) :=
      ⟨rfl, rfl, le_rfl, fun hlt => Binary64.lt_of_lt_of_le hlt hle⟩
    obtain ⟨hinitial, hstep, htolerance⟩ :=
      Config.validate_eq_ok.mp (validate_of_minimize hlong)
    have hvalid : (config.withTolerance t').validate = .ok () :=
      Config.validate_eq_ok.mpr ⟨hinitial, hstep, Binary64.le_trans htolerance hle⟩
    obtain ⟨o, ho⟩ := exists_outcome_of_stopsNoLater hp hstop hvalid hlong q'
    exact ⟨o, ho, (LegalRun.of_minimize hp hlong).sharpens (.of_minimize hp ho) hstop rfl⟩

/-- the second pass from `0.25` is not made with a budget of one, nor with the tolerance two -/
theorem squareRoots_extended : ∃ long o₁ o₂ : Outcome Float,
    (runSquareRoots #[0.25]).result = .ok long ∧
    ((minimize (twoPasses.withMaxIterations 1) (squareRoots.toProblem : Problem Unit Float)
      #[0.25]).run ()).1.result = .ok o₁ ∧ long.Prolongs o₁ ∧
    ((minimize (twoPasses.withTolerance 2.0) (squareRoots.toProblem : Problem Unit Float)
      #[0.25]).run ()).1.result = .ok o₂ ∧ long.Sharpens o₂ := by
  obtain ⟨long, hlong⟩ := exists_quarter_outcome
  obtain ⟨hbudget, htolerance⟩ :=
    minimize_extended (squareRoots.isPure_toProblem (σ := Unit)) twoPasses #[0.25] () ()
  obtain ⟨o₁, ho₁, hprolongs⟩ := hbudget 1 2 (by decide) long hlong
  obtain ⟨o₂, ho₂, hsharpens⟩ :=
    htolerance twoPasses.tolerance 2.0 (of_decide_eq_true rfl) long hlong
  exact ⟨long, o₁, o₂, hlong, ho₁, hprolongs, ho₂, hsharpens⟩

end LeastSquares
