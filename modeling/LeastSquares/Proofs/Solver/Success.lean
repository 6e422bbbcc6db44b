import LeastSquares.Solver.Minimize

/-!
# What a successful solve has done

`Returns x s b s'`: the computation `x`, started in the session `s`, succeeds with the result `b`
and leaves the session `s'`.  Each operation of a solve has one lemma that says when this is the
case:

* `returns_bind`        a sequence: both parts succeed, one after the other;
* `returns_residuals`, `returns_jacobian`   the two calls of the problem;
* `returns_attempt`     one damped step: no usable pivot, or a candidate that has been judged;
* `returns_passes_succ` one pass and the passes behind it;
* `returns_finish`, `returns_minimize`      the end, and the whole.

They hold of every problem, also of one that depends on what was evaluated before.
-/

namespace LeastSquares

theorem DenseMatrix.sized?_eq_some {α : Type} {a : DenseMatrix α} {m n : Nat} {b : Mat α m n} :
    a.sized? m n = some b ↔ a = ⟨m, n, b⟩ := by
  refine ⟨?_, ?_⟩
  · intro h
    obtain ⟨rows, cols, mat⟩ := a
    unfold sized? at h
    split at h
    · rename_i hs
      obtain ⟨rfl, rfl⟩ := hs
      cases h
      rfl
    · cases h
  · intro h
    subst h
    exact sized?_self ⟨m, n, b⟩

/-- a sequence goes on only behind a first part that has succeeded -/
theorem run_bind {S ε β γ : Type} (x : ExceptT ε (StateM S) β) (f : β → ExceptT ε (StateM S) γ)
    (s : S) : (x >>= f).run s = match x.run s with
      | (.ok b, s₁) => (f b).run s₁
      | (.error e, s₁) => (.error e, s₁) := by
  show (match x s with | (a, s₁) => ExceptT.bindCont f a s₁) = _
  unfold ExceptT.run
  rcases x s with ⟨_ | _, _⟩ <;> rfl

namespace Solve
variable {σ α β γ : Type}

/-- `x` succeeds from the session `s` with the result `b` and leaves the session `s'` -/
def Returns (x : Solve σ α β) (s : Session σ α) (b : β) (s' : Session σ α) : Prop :=
  x.run s = (.ok b, s')

/-! ## sequences -/

theorem returns_bind {x : Solve σ α β} {f : β → Solve σ α γ} {s s' : Session σ α} {c : γ} :
    Returns (x >>= f) s c s' ↔ ∃ b s₁, Returns x s b s₁ ∧ Returns (f b) s₁ c s' := by
  unfold Returns
  rw [run_bind]
  rcases x.run s with ⟨e | b, s₁⟩
  · refine ⟨?_, ?_⟩
    · nofun
    · intro h
      obtain ⟨b, s₂, h1, -⟩ := h
      cases h1
  · refine ⟨?_, ?_⟩
    · intro h'
      exact ⟨b, s₁, rfl, h'⟩
    · intro h
      obtain ⟨b', s₁', h1, h2⟩ := h
      cases h1
      exact h2

theorem run_bind_of_returns {x : Solve σ α β} {f : β → Solve σ α γ} {s s₁ : Session σ α} {b : β}
    (h : Returns x s b s₁) : (x >>= f).run s = (f b).run s₁ := by
  rw [run_bind, h]

theorem returns_pure {b c : β} {s s' : Session σ α} :
    Returns (pure b : Solve σ α β) s c s' ↔ c = b ∧ s' = s := by
  refine ⟨?_, ?_⟩
  · intro h
    cases h
    exact ⟨rfl, rfl⟩
  · intro h
    obtain ⟨rfl, rfl⟩ := h
    rfl

theorem not_returns_throw {e : Failure α} {b : β} {s s' : Session σ α} :
    ¬ Returns (throw e : Solve σ α β) s b s' := nofun

/-! ## the session -/

theorem returns_modify {f : Session σ α → Session σ α} {u : Unit} {s s' : Session σ α} :
    Returns (modify f : Solve σ α Unit) s u s' ↔ s' = f s := by
  refine ⟨?_, ?_⟩
  · intro h
    cases h
    rfl
  · intro h
    subst h
    rfl

theorem returns_emit {e : Event α} {u : Unit} {s s' : Session σ α} :
    Returns (emit e) s u s' ↔ s' = { s with log := s.log.push e } := returns_modify

theorem returns_record {r : Snapshot α} {u : Unit} {s s' : Session σ α} :
    Returns (record r) s u s' ↔ s' = { s with history := s.history.push r } := returns_modify

theorem returns_count {k : Nat} {u : Unit} {s s' : Session σ α} :
    Returns (count k) s u s' ↔ s' = { s with evaluations := s.evaluations + k } := returns_modify

theorem returns_get {s s' t : Session σ α} :
    Returns (get : Solve σ α (Session σ α)) s t s' ↔ t = s ∧ s' = s := by
  refine ⟨?_, ?_⟩
  · intro h
    cases h
    exact ⟨rfl, rfl⟩
  · intro h
    obtain ⟨rfl, rfl⟩ := h
    rfl

theorem run_call (act : Evaluation σ α β) (s : Session σ α) :
    (call act).run s = ((act.run s.problem).1, { s with problem := (act.run s.problem).2 }) := rfl

theorem returns_call {act : Evaluation σ α β} {b : β} {s s' : Session σ α} :
    Returns (call act) s b s' ↔
      ∃ q, act.run s.problem = (.ok b, q) ∧ s' = { s with problem := q } := by
  unfold Returns
  rw [run_call]
  refine ⟨?_, ?_⟩
  · intro h'
    obtain ⟨h1, rfl⟩ := Prod.mk.inj h'
    exact ⟨_, Prod.ext h1 rfl, rfl⟩
  · intro h
    obtain ⟨q, hq, rfl⟩ := h
    rw [hq]

theorem run_pinLength (m : Nat) (s : Session σ α) :
    (pinLength m).run s = match s.residualLength with
      | none => (.ok (), { s with residualLength := some m })
      | some l =>
        if m = l then (.ok (), s) else (.error (.dimension (.residualLength m l)), s) := by
  have hget : Returns (get : Solve σ α (Session σ α)) s s s := rfl
  unfold pinLength
  rw [run_bind_of_returns hget]
  cases s.residualLength with
  | none => rfl
  | some l =>
    dsimp only
    split <;> rfl

theorem returns_pinLength {m : Nat} {u : Unit} {s s' : Session σ α} :
    Returns (pinLength m) s u s' ↔
      (∀ l ∈ s.residualLength, m = l) ∧ s' = { s with residualLength := some m } := by
  unfold Returns
  rw [run_pinLength]
  cases hl : s.residualLength with
  | none =>
    refine ⟨?_, ?_⟩
    · intro h
      cases h
      exact ⟨nofun, rfl⟩
    · intro h
      obtain ⟨-, rfl⟩ := h
      rfl
  | some l =>
    dsimp only
    split
    · rename_i hm
      subst hm
      refine ⟨?_, ?_⟩
      · intro h
        cases h
        exact ⟨fun _ h => Option.some.inj h, by rw [← hl]⟩
      · intro h
        obtain ⟨-, rfl⟩ := h
        rw [← hl]
    · rename_i hm
      exact ⟨nofun, fun h => absurd (h.1 l rfl) hm⟩

/-! ## the calls of the problem -/

variable {p : Problem σ α}

theorem returns_residuals {x r : Array α} {s s' : Session σ α} :
    Returns (residuals p x) s r s' ↔
      ∃ q, (p.residuals x).run s.problem = (.ok r, q) ∧ (∀ l ∈ s.residualLength, r.size = l) ∧
        s' = { s with problem := q, evaluations := s.evaluations + 1,
                      residualLength := some r.size } := by
  unfold residuals
  simp only [returns_bind, returns_call, returns_count, returns_pinLength, returns_pure]
  refine ⟨?_, ?_⟩
  · intro h
    obtain ⟨_, _, ⟨q, hq, rfl⟩, _, _, rfl, _, _, ⟨hl, rfl⟩, rfl, rfl⟩ := h
    exact ⟨q, hq, hl, rfl⟩
  · intro h
    obtain ⟨q, hq, hl, rfl⟩ := h
    exact ⟨r, _, ⟨q, hq, rfl⟩, (), _, rfl, (), _, ⟨hl, rfl⟩, rfl, rfl⟩

/-- a matrix of the size that is asked for -/
def shaped (m n : Nat) (J : DenseMatrix α) : Solve σ α (Mat α m n) :=
  (J.sized? m n).elim (throw (.dimension (.jacobianShape J.rows J.cols m n))) pure

theorem returns_shaped {m n : Nat} {D : DenseMatrix α} {J : Mat α m n} {s s' : Session σ α} :
    Returns (shaped m n D) s J s' ↔ D = ⟨m, n, J⟩ ∧ s' = s := by
  rw [← DenseMatrix.sized?_eq_some]
  unfold shaped
  cases D.sized? m n with
  | none =>
    rw [Option.elim_none]
    refine ⟨fun h => absurd h not_returns_throw, ?_⟩
    intro h
    cases h.1
  | some K => rw [Option.elim_some, returns_pure, Option.some.injEq, eq_comm]

/-- a Jacobian is evaluated, counted and checked; a custom one counts for nothing -/
theorem jacobian_eq {m n : Nat} (x : Vector α n) (r : Vector α m) (ε : α) :
    jacobian p x r ε = call (p.jacobian x.toArray r.toArray ε) >>= fun J =>
      count (if p.hasCustomJacobian then 0 else 2 * n) >>= fun _ => shaped m n J := by
  unfold jacobian shaped
  refine bind_congr fun J => ?_
  cases p.hasCustomJacobian <;> cases J.sized? m n <;> rfl

theorem returns_jacobian {m n : Nat} {x : Vector α n} {r : Vector α m} {ε : α} {J : Mat α m n}
    {s s' : Session σ α} :
    Returns (jacobian p x r ε) s J s' ↔
      ∃ q, (p.jacobian x.toArray r.toArray ε).run s.problem = (.ok ⟨m, n, J⟩, q) ∧
        s' = { s with problem := q,
                      evaluations :=
                        s.evaluations + if p.hasCustomJacobian then 0 else 2 * n } := by
  rw [jacobian_eq]
  simp only [returns_bind, returns_call, returns_count, returns_shaped]
  refine ⟨?_, ?_⟩
  · intro h
    obtain ⟨_, _, ⟨q, hq, rfl⟩, _, _, rfl, rfl, rfl⟩ := h
    exact ⟨q, hq, rfl⟩
  · intro h
    obtain ⟨q, hq, rfl⟩ := h
    exact ⟨_, _, ⟨q, hq, rfl⟩, (), _, rfl, rfl, rfl⟩

/-! ## the solver -/

variable [RealScalar α] {n : Nat} {ε : α} {config : Config α}

def candidate (current : Iterate α n) (step : Vector α n) : Vector α n :=
  current.point.zipWith (· + ·) step

theorem add_candidate (current : Iterate α n) (step : Vector α n) :
    add current.point.toArray step.toArray = .ok (candidate current step).toArray := by
  simp [add, candidate]

/-- a damped step without a usable pivot doubles the damping and evaluates nothing more; any other
one is judged by the residual norm of its candidate -/
theorem returns_attempt {i : Nat} {current next : Iterate α n} {r : Array α}
    {s s' : Session σ α} :
    Returns (attempt p ε i current r) s next s' ↔
      ∃ J s₁, Returns (jacobian p current.point r.toVector ε) s J s₁ ∧
        ((dampedStep J r.toVector current.damping = none ∧
            next = ⟨current.point, Damping.tighten current.damping⟩ ∧
            s' = { s₁ with log := s₁.log.push (.singular i current.damping) }) ∨
          ∃ step c s₂, dampedStep J r.toVector current.damping = some step ∧
            Returns (residuals p (candidate current step).toArray) s₁ c s₂ ∧
            next = ⟨if Damping.accepts (norm r) (norm c) then candidate current step
                      else current.point,
                    Damping.next (Damping.accepts (norm r) (norm c)) current.damping⟩ ∧
            s' = { s₂ with
              log := s₂.log.push
                (.candidate i (norm c) (Damping.accepts (norm r) (norm c))) }) := by
  unfold attempt
  rw [returns_bind]
  refine exists_congr fun J => exists_congr fun s₁ => and_congr_right fun _ => ?_
  cases hstep : dampedStep J r.toVector current.damping with
  | none =>
    simp only [returns_bind, returns_emit, returns_pure, Damping.next_false, true_and,
      reduceCtorEq, false_and, exists_false, or_false]
    refine ⟨?_, ?_⟩
    · intro h
      obtain ⟨_, _, rfl, rfl, rfl⟩ := h
      exact ⟨rfl, rfl⟩
    · intro h
      obtain ⟨rfl, rfl⟩ := h
      exact ⟨(), _, rfl, rfl, rfl⟩
  | some step =>
    simp only [returns_bind, returns_emit, returns_pure, reduceCtorEq, false_and, false_or,
      Option.some.injEq]
    refine ⟨?_, ?_⟩
    · intro h
      obtain ⟨c, s₂, hc, _, _, rfl, rfl, rfl⟩ := h
      exact ⟨step, c, s₂, rfl, hc, rfl, rfl⟩
    · intro h
      obtain ⟨_, c, s₂, rfl, hc, rfl, rfl⟩ := h
      exact ⟨c, s₂, hc, (), _, rfl, rfl, rfl⟩

def recorded (s : Session σ α) (i : Nat) (current : Iterate α n) (residualNorm : α) :
    Session σ α :=
  { s with
    history := s.history.push ⟨i, current.point.toArray, residualNorm, current.damping⟩
    log := s.log.push (.pass i residualNorm current.damping) }

theorem returns_passes_zero {i : Nat} {current last : Iterate α n} {exit : Status}
    {s s' : Session σ α} :
    Returns (passes p config 0 i current) s (last, exit) s' ↔
      last = current ∧ exit = .maxIterations ∧ s' = s := by
  rw [passes_zero, returns_pure, Prod.mk.injEq, and_assoc]

theorem returns_passes_succ {budget i : Nat} {current last : Iterate α n} {exit : Status}
    {s s' : Session σ α} :
    Returns (passes p config (budget + 1) i current) s (last, exit) s' ↔
      ∃ r s₁, Returns (residuals p current.point.toArray) s r s₁ ∧
        ((norm r < config.tolerance ∧ last = current ∧ exit = .converged ∧
            s' = recorded s₁ i current (norm r)) ∨
          (¬ norm r < config.tolerance ∧ ∃ next s₂,
            Returns (attempt p config.differenceStep i current r)
              (recorded s₁ i current (norm r)) next s₂ ∧
            Returns (passes p config budget (i + 1) next) s₂ (last, exit) s')) := by
  rw [passes_succ]
  simp only [returns_bind, returns_record, returns_emit]
  refine exists_congr fun r => exists_congr fun s₁ => and_congr_right fun _ => ?_
  unfold Criteria.checkResidual
  by_cases hr : norm r < config.tolerance
  · simp only [Config.criteria, hr, if_true, returns_pure, Prod.mk.injEq, true_and,
      not_true_eq_false, false_and, or_false, and_assoc]
    refine ⟨?_, ?_⟩
    · intro h
      obtain ⟨_, _, rfl, _, _, rfl, h⟩ := h
      exact h
    · intro h
      exact ⟨(), _, rfl, (), _, rfl, h⟩
  · simp only [Config.criteria, hr, if_false, returns_bind, not_false_eq_true, true_and,
      false_and, false_or]
    refine ⟨?_, ?_⟩
    · intro h
      obtain ⟨_, _, rfl, _, _, rfl, h⟩ := h
      exact h
    · intro h
      exact ⟨(), _, rfl, (), _, rfl, h⟩

/-- above the tolerance a pass tries a step and leaves the rest to the loop -/
theorem run_passes_of_above {budget i : Nat} {current : Iterate α n} {r : Array α}
    {s s₁ : Session σ α} (hr : Returns (residuals p current.point.toArray) s r s₁)
    (above : ¬ norm r < config.tolerance) :
    (passes p config (budget + 1) i current).run s =
      (attempt p config.differenceStep i current r >>= passes p config budget (i + 1)).run
        (recorded s₁ i current (norm r)) := by
  have hrunning : config.criteria.checkResidual (norm r) = .running := if_neg above
  rw [passes_succ, run_bind_of_returns hr, run_bind_of_returns (b := ()) (returns_record.mpr rfl),
    run_bind_of_returns (b := ()) (returns_emit.mpr rfl), hrunning]
  rfl

/-- a loop whose budget is spent goes on where it has ended, if there is more budget -/
theorem run_passes_add {k budget i : Nat} {current last : Iterate α n} {s s' : Session σ α}
    (h : Returns (passes p config k i current) s (last, .maxIterations) s') :
    (passes p config (k + budget) i current).run s =
      (passes p config budget (i + k) last).run s' := by
  induction k generalizing i current s with
  | zero =>
    obtain ⟨rfl, -, rfl⟩ := returns_passes_zero.mp h
    rw [Nat.zero_add]
    rfl
  | succ k ih =>
    obtain ⟨r, s₁, hr, h⟩ := returns_passes_succ.mp h
    rcases h with ⟨-, -, hexit, -⟩ | ⟨above, next, s₂, hn, h⟩
    · cases hexit
    · rw [Nat.add_right_comm, run_passes_of_above hr above, run_bind_of_returns hn, ih h,
        Nat.add_assoc, Nat.add_comm 1]

def reported (s : Session σ α) (exit final : Status) (residualNorm : α) : Session σ α :=
  let log := if final ≠ exit then s.log.push (.disagreement exit final) else s.log
  { s with log := log.push (.finished final s.history.size residualNorm s.evaluations) }

/-- what a solve that ends in the session `s` at the iterate `last` returns -/
def returned (s : Session σ α) (last : Iterate α n) (status : Status) (residualNorm : α) :
    Outcome α :=
  ⟨last.point.toArray, status, s.history, residualNorm, s.evaluations, last.damping⟩

theorem returns_finish {last : Iterate α n} {exit : Status} {o : Outcome α}
    {s s' : Session σ α} :
    Returns (finish p config last exit) s o s' ↔
      ∃ r s₁, Returns (residuals p last.point.toArray) s r s₁ ∧
        o = returned s₁ last (config.criteria.finalStatus (norm r)) (norm r) ∧
        s' = reported s₁ exit (config.criteria.finalStatus (norm r)) (norm r) := by
  unfold finish
  simp only [returns_bind]
  refine exists_congr fun r => exists_congr fun s₁ => and_congr_right fun _ => ?_
  unfold reported
  by_cases hs : config.criteria.finalStatus (norm r) = exit
  · simp only [hs, ne_eq, not_true_eq_false, if_false, returns_bind, returns_get, returns_emit,
      returns_pure]
    refine ⟨?_, ?_⟩
    · intro h
      obtain ⟨_, _, ⟨rfl, rfl⟩, _, _, rfl, rfl, rfl⟩ := h
      exact ⟨rfl, rfl⟩
    · intro h
      obtain ⟨rfl, rfl⟩ := h
      exact ⟨_, _, ⟨rfl, rfl⟩, (), _, rfl, rfl, rfl⟩
  · simp only [hs, ne_eq, not_false_eq_true, if_true, returns_bind, returns_get, returns_emit,
      returns_pure]
    refine ⟨?_, ?_⟩
    · intro h
      obtain ⟨_, _, rfl, _, _, ⟨rfl, rfl⟩, _, _, rfl, rfl, rfl⟩ := h
      exact ⟨rfl, rfl⟩
    · intro h
      obtain ⟨rfl, rfl⟩ := h
      exact ⟨(), _, rfl, _, _, ⟨rfl, rfl⟩, (), _, rfl, rfl, rfl⟩

theorem run_finish {last : Iterate α n} {exit : Status} {s : Session σ α} :
    (finish p config last exit).run s = match (residuals p last.point.toArray).run s with
      | (.ok r, s₁) =>
        (.ok (returned s₁ last (config.criteria.finalStatus (norm r)) (norm r)),
          reported s₁ exit (config.criteria.finalStatus (norm r)) (norm r))
      | (.error e, s₁) => (.error e, s₁) := by
  rcases hr : (residuals p last.point.toArray).run s with ⟨e | r, s₁⟩
  · unfold finish
    rw [run_bind, hr]
  · exact returns_finish.mpr ⟨r, s₁, hr, rfl, rfl⟩

theorem returns_minimize {x₀ : Array α} {o : Outcome α} {s s' : Session σ α} :
    Returns (Solve.minimize p config x₀) s o s' ↔
      config.validate = .ok () ∧ x₀.size ≠ 0 ∧ ∃ last exit s₁,
        Returns (passes p config config.maxIterations 0 ⟨x₀.toVector, config.initialDamping⟩) s
          (last, exit) s₁ ∧
        Returns (finish p config last exit) s₁ o s' := by
  unfold Solve.minimize
  rw [returns_bind]
  refine ⟨?_, ?_⟩
  · intro h
    obtain ⟨u, t, hv, h⟩ := h
    cases hc : config.validate with
    | error e =>
      rw [hc] at hv
      exact absurd hv not_returns_throw
    | ok _ =>
      rw [hc] at hv
      obtain ⟨-, rfl⟩ := returns_pure.mp hv
      cases he : x₀.isEmpty with
      | true =>
        rw [he] at h
        obtain ⟨_, _, h, -⟩ := returns_bind.mp h
        exact absurd h not_returns_throw
      | false =>
        rw [he] at h
        obtain ⟨⟨last, exit⟩, s₁, hp, hf⟩ := returns_bind.mp h
        exact ⟨rfl, by simpa using he, last, exit, s₁, hp, hf⟩
  · intro h
    obtain ⟨hc, he, last, exit, s₁, hp, hf⟩ := h
    rw [hc]
    refine ⟨(), s, returns_pure.mpr ⟨rfl, rfl⟩, ?_⟩
    have he' : x₀.isEmpty = false := by simpa using he
    rw [he']
    exact returns_bind.mpr ⟨(last, exit), s₁, hp, hf⟩

/-- the passes from an iterate on, and the end of the solve -/
def rest (p : Problem σ α) (config : Config α) (budget i : Nat) (current : Iterate α n) :
    Solve σ α (Outcome α) :=
  passes p config budget i current >>= fun last => finish p config last.1 last.2

theorem run_minimize {x₀ : Array α} {s : Session σ α} (hvalid : config.validate = .ok ())
    (hsize : x₀.size ≠ 0) :
    (Solve.minimize p config x₀).run s =
      (rest p config config.maxIterations 0 ⟨x₀.toVector, config.initialDamping⟩).run s := by
  have hempty : x₀.isEmpty = false := by simpa using hsize
  unfold Solve.minimize
  rw [hvalid, hempty]
  rfl

end Solve

/-- a solve reports its result and its log, and leaves the state of the problem -/
theorem minimize_eq_of_run {σ α : Type} [RealScalar α] {p : Problem σ α} {config : Config α}
    {x₀ : Array α} {q : σ} {result : Except (Failure α) (Outcome α)} {s : Session σ α}
    (h : (Solve.minimize p config x₀).run (.start q) = (result, s)) :
    (minimize config p x₀).run q = (⟨result, s.log⟩, s.problem) := by
  show (Report.mk ((Solve.minimize p config x₀).run (.start q)).1
    ((Solve.minimize p config x₀).run (.start q)).2.log,
      ((Solve.minimize p config x₀).run (.start q)).2.problem) = _
  rw [h]

theorem result_minimize {σ α : Type} [RealScalar α] {p : Problem σ α} {config : Config α}
    {x₀ : Array α} {o : Outcome α} {q : σ} :
    (minimize config p x₀ q).1.result = .ok o ↔
      ∃ s, Solve.Returns (Solve.minimize p config x₀) (Session.start q) o s := by
  show ((Solve.minimize p config x₀).run (Session.start q)).1 = .ok o ↔ _
  unfold Solve.Returns
  refine ⟨?_, ?_⟩
  · intro h
    exact ⟨_, Prod.ext h rfl⟩
  · intro h
    obtain ⟨s, h⟩ := h
    rw [h]

theorem validate_of_minimize {σ α : Type} [RealScalar α] {p : Problem σ α} {config : Config α}
    {x₀ : Array α} {o : Outcome α} {q : σ} (h : ((minimize config p x₀).run q).1.result = .ok o) :
    config.validate = .ok () := by
  obtain ⟨s, hs⟩ := result_minimize.mp h
  exact (Solve.returns_minimize.mp hs).1

end LeastSquares
