import LeastSquares.Proofs.Solver.Success

/-!
# Two solves in lockstep

`Together R x y Q E`: started in states that `R` relates, the computations `x` and `y` both succeed,
with results and states that `Q` relates, or both fail, with failures and states that `E` relates.
`Agree R x y` is the case in which results and failures are the same and the states stay related.

A `Coupling` says what goes together in two solves: sessions, failures, residuals, points and
records, and it carries the proofs that the bookkeeping of a session keeps this up.  If the calls of
two problems and the steps that they lead to are coupled (`InStep`), then so are their loops
(`InStep.together_passes`), by induction on the budget, and whole solves
(`InStep.together_minimize`).  The numbers of the passes may differ by a constant, and something may
be owed between a record and the Jacobian behind it; nothing else changes on the way.
-/

namespace LeastSquares

/-! ## two computations -/

section
variable {S T ε β β' γ γ' : Type}

/-- from states that `R` relates, both computations succeed with results and states that `Q`
relates, or both fail with failures and states that `E` relates -/
def Together (R : S → T → Prop) (x : ExceptT ε (StateM S) β) (y : ExceptT ε (StateM T) γ)
    (Q : β → γ → S → T → Prop) (E : ε → ε → S → T → Prop) : Prop :=
  ∀ s t, R s t →
    (∃ b c s' t', x.run s = (.ok b, s') ∧ y.run t = (.ok c, t') ∧ Q b c s' t') ∨
      ∃ e e' s' t', x.run s = (.error e, s') ∧ y.run t = (.error e', t') ∧ E e e' s' t'

namespace Together
variable {R : S → T → Prop} {Q : β → γ → S → T → Prop} {E : ε → ε → S → T → Prop}
  {x : ExceptT ε (StateM S) β} {y : ExceptT ε (StateM T) γ}

theorem pure {b : β} {c : γ} (h : ∀ s t, R s t → Q b c s t) :
    Together R (Pure.pure b) (Pure.pure c) Q E := fun s t hst =>
  .inl ⟨b, c, s, t, rfl, rfl, h s t hst⟩

theorem throw {e e' : ε} (h : ∀ s t, R s t → E e e' s t) :
    Together R (throw e : ExceptT ε (StateM S) β) (throw e' : ExceptT ε (StateM T) γ) Q E :=
  fun s t hst => .inr ⟨e, e', s, t, rfl, rfl, h s t hst⟩

theorem modify {R' : S → T → Prop} {f : S → S} {g : T → T} (h : ∀ s t, R s t → R' (f s) (g t)) :
    Together R (modify f : ExceptT ε (StateM S) Unit) (modify g) (fun _ _ => R') E :=
  fun s t hst => .inl ⟨(), (), f s, g t, rfl, rfl, h s t hst⟩

theorem bind {Q' : β' → γ' → S → T → Prop} {f : β → ExceptT ε (StateM S) β'}
    {g : γ → ExceptT ε (StateM T) γ'} (hx : Together R x y Q E)
    (hf : ∀ b c, Together (Q b c) (f b) (g c) Q' E) : Together R (x >>= f) (y >>= g) Q' E := by
  intro s t hst
  rw [run_bind, run_bind]
  rcases hx s t hst with ⟨b, c, s', t', hxs, hyt, h⟩ | ⟨e, e', s', t', hxs, hyt, h⟩
  · rw [hxs, hyt]
    exact hf b c s' t' h
  · rw [hxs, hyt]
    exact .inr ⟨e, e', s', t', rfl, rfl, h⟩

/-- what is known of earlier results is a fact about later computations -/
theorem given {P : Prop} (h : P → Together R x y Q E) :
    Together (fun s t => P ∧ R s t) x y Q E := fun s t hst => h hst.1 s t hst.2

theorem imp {Q' : β → γ → S → T → Prop} (h : Together R x y Q E)
    (hQ : ∀ b c s t, Q b c s t → Q' b c s t) : Together R x y Q' E := by
  intro s t hst
  rcases h s t hst with ⟨b, c, s', t', hxs, hyt, h⟩ | h
  · exact .inl ⟨b, c, s', t', hxs, hyt, hQ b c s' t' h⟩
  · exact .inr h

end Together

/-- the same results from related states, which stay related -/
def Agree (R : S → T → Prop) (x : ExceptT ε (StateM S) β) (y : ExceptT ε (StateM T) β) : Prop :=
  Together R x y (fun b c s t => b = c ∧ R s t) fun e e' s t => e = e' ∧ R s t

namespace Agree
variable {R : S → T → Prop} {x : ExceptT ε (StateM S) β} {y : ExceptT ε (StateM T) β}

theorem of_run (h : ∀ s t, R s t → (x.run s).1 = (y.run t).1 ∧ R (x.run s).2 (y.run t).2) :
    Agree R x y := by
  intro s t hst
  obtain ⟨hresult, hstate⟩ := h s t hst
  rcases hx : x.run s with ⟨e | b, s'⟩
  · rw [hx] at hresult hstate
    exact .inr ⟨e, e, s', (y.run t).2, rfl, Prod.ext hresult.symm rfl, rfl, hstate⟩
  · rw [hx] at hresult hstate
    exact .inl ⟨b, b, s', (y.run t).2, rfl, Prod.ext hresult.symm rfl, rfl, hstate⟩

theorem run (h : Agree R x y) {s : S} {t : T} (hst : R s t) :
    (x.run s).1 = (y.run t).1 ∧ R (x.run s).2 (y.run t).2 := by
  rcases h s t hst with ⟨b, _, s', t', hx, hy, rfl, hstate⟩ | ⟨e, _, s', t', hx, hy, rfl, hstate⟩
  · rw [hx, hy]
    exact ⟨rfl, hstate⟩
  · rw [hx, hy]
    exact ⟨rfl, hstate⟩

theorem pure (b : β) : Agree R (Pure.pure b : ExceptT ε (StateM S) β) (Pure.pure b) :=
  Together.pure fun _ _ hst => ⟨rfl, hst⟩

theorem throw (e : ε) : Agree R (throw e : ExceptT ε (StateM S) β) (throw e) :=
  Together.throw fun _ _ hst => ⟨rfl, hst⟩

theorem bind {f : β → ExceptT ε (StateM S) γ} {g : β → ExceptT ε (StateM T) γ}
    (hx : Agree R x y) (hf : ∀ b, Agree R (f b) (g b)) : Agree R (x >>= f) (y >>= g) := by
  refine Together.bind hx fun b c => .given ?_
  rintro rfl
  exact hf b

end Agree
end

/-! ## what goes together -/

section
variable {α : Type} {n : Nat}

/-- the same record, with `k` passes before it -/
def Snapshot.later (k : Nat) (a : Snapshot α) : Snapshot α :=
  { a with iteration := a.iteration + k }

@[simp] theorem Snapshot.later_zero : (Snapshot.later 0 : Snapshot α → Snapshot α) = id := rfl

def Event.later (k : Nat) : Event α → Event α
  | .pass i v damping => .pass (i + k) v damping
  | .candidate i v accepted => .candidate (i + k) v accepted
  | .singular i damping => .singular (i + k) damping
  | .disagreement exit final => .disagreement exit final
  | .finished status passes v evaluations => .finished status passes v evaluations

@[simp] theorem Event.later_zero (e : Event α) : e.later 0 = e := by cases e <;> rfl

/-- the same function on arrays; one of another size is left as it is -/
def atSize (f : Vector α n → Vector α n) (x : Array α) : Array α :=
  if h : x.size = n then (f ⟨x, h⟩).toArray else x

theorem atSize_toArray (f : Vector α n → Vector α n) (x : Vector α n) :
    atSize f x.toArray = (f x).toArray := dif_pos x.size_toArray

theorem atSize_id : atSize (id : Vector α n → Vector α n) = id := by
  funext x
  unfold atSize
  split <;> rfl

def Snapshot.moved (f : Vector α n → Vector α n) (a : Snapshot α) : Snapshot α :=
  { a with point := atSize f a.point }

theorem Snapshot.moved_id :
    (Snapshot.moved (id : Vector α n → Vector α n) : Snapshot α → Snapshot α) = id := by
  funext a
  unfold Snapshot.moved
  rw [atSize_id]
  rfl

end

/-- where the points of a second solve are, which residuals go together in the two solves, and which
dampings occur -/
structure Alignment (α : Type) [RealScalar α] (n : Nat) where
  point : Vector α n → Vector α n
  residuals : Array α → Array α → Prop
  damping : α → Prop
  size_eq : ∀ {r r'}, residuals r r' → r.size = r'.size
  norm_eq : ∀ {r r'}, residuals r r' → norm r = norm r'
  add : ∀ x s, point (x.zipWith (· + ·) s) = (point x).zipWith (· + ·) (point s)
  next : ∀ accepted {μ}, damping μ → damping (Damping.next accepted μ)

/-- the points are the same, and so are the residuals, of which `P` holds -/
def Alignment.same {α : Type} [RealScalar α] (n : Nat) (P : Array α → Prop) : Alignment α n where
  point := id
  residuals r r' := r = r' ∧ P r
  damping _ := True
  size_eq h := congrArg Array.size h.1
  norm_eq h := congrArg norm h.1
  add _ _ := rfl
  next _ _ _ := trivial

/-- what goes together in two solves, of which the first one has made a number of passes `before`;
`Beside owed s t` has the sessions beside each other when something is owed for `owed` Jacobians -/
structure Coupling (σ τ α : Type) [RealScalar α] (n : Nat) extends Alignment α n where
  tolerance : α
  before : Nat
  Beside : (owed : Nat) → Session σ α → Session τ α → Prop
  Failed : Failure α → Failure α → Session σ α → Session τ α → Prop
  refl : ∀ {owed s t} e, Beside owed s t → Failed e e s t
  length_eq : ∀ {owed s t}, Beside owed s t → s.residualLength = t.residualLength
  pin : ∀ {owed s t} m, Beside owed s t →
    Beside owed { s with residualLength := some m } { t with residualLength := some m }
  count : ∀ {owed s t} k, Beside owed s t →
    Beside owed { s with evaluations := s.evaluations + k }
      { t with evaluations := t.evaluations + k }
  /-- with a record above the tolerance a Jacobian is owed -/
  record : ∀ {s t} (a : Snapshot α), Beside 0 s t →
    Beside (if a.residualNorm < tolerance then 0 else 1)
      { s with history := s.history.push (a.later before) }
      { t with history := t.history.push (a.moved point) }
  emit : ∀ {owed s t} (e : Event α), Beside owed s t →
    Beside owed { s with log := s.log.push (e.later before) } { t with log := t.log.push e }

variable {σ τ α : Type} {n : Nat}

/-- an iterate of the first solve, where it is in the second one -/
def Coupling.iterate [RealScalar α] (C : Coupling σ τ α n) (current : Iterate α n) : Iterate α n :=
  ⟨C.point current.point, current.damping⟩

/-- what ends in sessions beside each other is related by `Q` -/
def Coupling.Ends [RealScalar α] (C : Coupling σ τ α n)
    (Q : Outcome α → Outcome α → Session σ α → Session τ α → Prop) : Prop :=
  ∀ last exit status v s t, C.Beside 0 s t →
    Q (Solve.returned s last status v) (Solve.returned t (C.iterate last) status v)
      (Solve.reported s exit status v) (Solve.reported t exit status v)

namespace Solve

/-! ## the step of a pass, and its judgement -/

section
variable [RealScalar α] {m : Nat}

/-- the Jacobian is evaluated for the damped step that it leads to -/
def stepAt (p : Problem σ α) (ε : α) (current : Iterate α n) (r : Vector α m) :
    Solve σ α (Option (Vector α n)) :=
  jacobian p current.point r ε >>= fun J => pure (dampedStep J r current.damping)

def judge (p : Problem σ α) (i : Nat) (current : Iterate α n) (residualNorm : α) :
    Option (Vector α n) → Solve σ α (Iterate α n)
  | none =>
    emit (.singular i current.damping) >>= fun _ =>
      pure { current with damping := Damping.next false current.damping }
  | some step =>
    residuals p (candidate current step).toArray >>= fun c =>
      emit (.candidate i (norm c) (Damping.accepts residualNorm (norm c))) >>= fun _ => pure {
        point :=
          if Damping.accepts residualNorm (norm c) then candidate current step else current.point
        damping := Damping.next (Damping.accepts residualNorm (norm c)) current.damping }

theorem attempt_eq (p : Problem σ α) (ε : α) (i : Nat) (current : Iterate α n) (r : Array α) :
    attempt p ε i current r = stepAt p ε current r.toVector >>= judge p i current (norm r) := by
  unfold attempt stepAt
  rw [bind_assoc]
  refine bind_congr fun J => ?_
  rw [pure_bind]
  cases dampedStep J r.toVector current.damping <;> rfl

end

/-! ## the operations of a session -/

variable [RealScalar α] {C : Coupling σ τ α n} {owed : Nat}

theorem together_emit (e : Event α) :
    Together (C.Beside owed) (emit (e.later C.before)) (emit e) (fun _ _ => C.Beside owed)
      C.Failed := .modify fun _ _ hst => C.emit e hst

theorem together_record (a : Snapshot α) :
    Together (C.Beside 0) (record (a.later C.before)) (record (a.moved C.point))
      (fun _ _ => C.Beside (if a.residualNorm < C.tolerance then 0 else 1)) C.Failed :=
  .modify fun _ _ hst => C.record a hst

theorem together_count (k : Nat) :
    Together (C.Beside owed) (count k) (count k) (fun _ _ => C.Beside owed) C.Failed :=
  .modify fun _ _ hst => C.count k hst

theorem together_pinLength (m : Nat) :
    Together (C.Beside owed) (pinLength m) (pinLength m) (fun _ _ => C.Beside owed) C.Failed := by
  intro s t hst
  rw [run_pinLength, run_pinLength, ← C.length_eq hst]
  cases s.residualLength with
  | none => exact .inl ⟨(), (), _, _, rfl, rfl, C.pin m hst⟩
  | some l =>
    by_cases hm : m = l
    · simp only [if_pos hm]
      exact .inl ⟨(), (), s, t, rfl, rfl, hst⟩
    · simp only [if_neg hm]
      exact .inr ⟨_, _, s, t, rfl, rfl, C.refl _ hst⟩

theorem together_shaped (m : Nat) (J : DenseMatrix α) :
    Together (C.Beside owed) (shaped m n J) (shaped m n J)
      (fun A A' s t => A = A' ∧ C.Beside owed s t) C.Failed := by
  unfold shaped
  cases J.sized? m n with
  | none => exact .throw fun _ _ hst => C.refl _ hst
  | some J => exact .pure fun _ _ hst => ⟨rfl, hst⟩

/-! ## two problems -/

variable {p : Problem σ α} {q : Problem τ α} {ε : α}

/-- the second solve pays what it owes with the Jacobian, and the steps correspond if the Jacobians
lead to corresponding ones -/
theorem together_stepAt {m m' : Nat} {r : Vector α m} {r' : Vector α m'} {current : Iterate α n}
    {P : DenseMatrix α → DenseMatrix α → Prop} {Q : Mat α m n → Mat α m' n → Prop}
    (hcall : Together (C.Beside 1) (call (p.jacobian current.point.toArray r.toArray ε))
      (call (q.jacobian (C.point current.point).toArray r'.toArray ε))
      (fun J J' s t => P J J' ∧ C.Beside 1 s t) C.Failed)
    (hcount : Together (C.Beside 1) (count (if p.hasCustomJacobian then 0 else 2 * n))
      (count (if q.hasCustomJacobian then 0 else 2 * n)) (fun _ _ => C.Beside 0) C.Failed)
    (hshaped : ∀ J J', P J J' → Together (C.Beside 0) (shaped m n J) (shaped m' n J')
      (fun A A' s t => Q A A' ∧ C.Beside 0 s t) C.Failed)
    (hstep : ∀ A A', Q A A' →
      dampedStep A' r' current.damping = (dampedStep A r current.damping).map C.point) :
    Together (C.Beside 1) (stepAt p ε current r) (stepAt q ε (C.iterate current) r')
      (fun s s' t t' => s' = s.map C.point ∧ C.Beside 0 t t') C.Failed := by
  unfold stepAt
  rw [jacobian_eq, jacobian_eq]
  simp only [bind_assoc]
  refine hcall.bind fun J J' => .given fun hJ => ?_
  refine hcount.bind fun _ _ => ?_
  refine (hshaped J J' hJ).bind fun A A' => .given fun hA => ?_
  exact .pure fun _ _ hst => ⟨hstep A A' hA, hst⟩

theorem stepAt_toVector {m : Nat} (p : Problem σ α) (ε : α) (current : Iterate α n)
    (r : Vector α m) : stepAt p ε current r.toArray.toVector = stepAt p ε current r := by
  obtain ⟨r, rfl⟩ := r
  rfl

/-- the calls of two problems go together, and so do the steps that they lead to for the difference
step `ε` -/
structure InStep (C : Coupling σ τ α n) (p : Problem σ α) (q : Problem τ α) (ε : α) : Prop where
  residuals : ∀ (owed : Nat) (x : Vector α n),
    Together (C.Beside owed) (call (p.residuals x.toArray)) (call (q.residuals (C.point x).toArray))
      (fun r r' s t => C.residuals r r' ∧ C.Beside owed s t) C.Failed
  step : ∀ (current : Iterate α n) {r r'}, C.residuals r r' → C.damping current.damping →
    Together (C.Beside 1) (stepAt p ε current r.toVector)
      (stepAt q ε (C.iterate current) r'.toVector)
      (fun s s' t t' => s' = s.map C.point ∧ C.Beside 0 t t') C.Failed

namespace InStep

theorem together_residuals (h : InStep C p q ε) (owed : Nat) (x : Vector α n) :
    Together (C.Beside owed) (Solve.residuals p x.toArray) (Solve.residuals q (C.point x).toArray)
      (fun r r' s t => C.residuals r r' ∧ C.Beside owed s t) C.Failed := by
  refine (h.residuals owed x).bind fun r r' => .given fun hr => ?_
  refine (together_count 1).bind fun _ _ => ?_
  rw [← C.size_eq hr]
  exact (together_pinLength r.size).bind fun _ _ => .pure fun _ _ hst => ⟨hr, hst⟩

theorem together_judge (h : InStep C p q ε) (i : Nat) {current : Iterate α n}
    (hdamping : C.damping current.damping) (residualNorm : α) (step : Option (Vector α n)) :
    Together (C.Beside 0) (judge p (i + C.before) current residualNorm step)
      (judge q i (C.iterate current) residualNorm (step.map C.point))
      (fun next next' s t => (next' = C.iterate next ∧ C.damping next.damping) ∧ C.Beside 0 s t)
      C.Failed := by
  cases step with
  | none =>
    refine (together_emit (.singular i current.damping)).bind fun _ _ => .pure fun s t hst => ?_
    exact ⟨⟨rfl, C.next false hdamping⟩, hst⟩
  | some step =>
    have hcandidate : candidate (C.iterate current) (C.point step) =
        C.point (candidate current step) := (C.add current.point step).symm
    show Together _ _
      (Solve.residuals q (candidate (C.iterate current) (C.point step)).toArray >>= _) _ _
    rw [hcandidate]
    refine (h.together_residuals 0 (candidate current step)).bind fun c c' => .given fun hc => ?_
    rw [← C.norm_eq hc]
    refine (together_emit (.candidate i (norm c) _)).bind fun _ _ => .pure fun s t hst => ?_
    refine ⟨⟨?_, C.next _ hdamping⟩, hst⟩
    unfold Coupling.iterate
    cases Damping.accepts residualNorm (norm c) <;> rfl

theorem together_attempt (h : InStep C p q ε) (i : Nat) {current : Iterate α n}
    (hdamping : C.damping current.damping) {r r' : Array α} (hr : C.residuals r r') :
    Together (C.Beside 1) (attempt p ε (i + C.before) current r)
      (attempt q ε i (C.iterate current) r')
      (fun next next' s t => (next' = C.iterate next ∧ C.damping next.damping) ∧ C.Beside 0 s t)
      C.Failed := by
  rw [attempt_eq, attempt_eq]
  refine (h.step current hr hdamping).bind fun step step' => .given fun hstep => ?_
  rw [hstep, ← C.norm_eq hr]
  exact h.together_judge i hdamping (norm r) step

variable {config config' : Config α}

/-- a loop reads the tolerance and the difference step of its options, and nothing else -/
theorem together_passes (h : InStep C p q config.differenceStep)
    (htolerance : config.tolerance = C.tolerance) (htolerance' : config'.tolerance = C.tolerance)
    (hstep : config'.differenceStep = config.differenceStep) (budget i : Nat)
    (current : Iterate α n) (hdamping : C.damping current.damping) :
    Together (C.Beside 0) (passes p config budget (i + C.before) current)
      (passes q config' budget i (C.iterate current))
      (fun last last' s t => last' = (C.iterate last.1, last.2) ∧ C.Beside 0 s t) C.Failed := by
  induction budget generalizing i current with
  | zero => exact .pure fun _ _ hst => ⟨rfl, hst⟩
  | succ budget ih =>
    rw [passes_succ, passes_succ]
    refine (h.together_residuals 0 current.point).bind fun r r' => .given fun hr => ?_
    have hmoved : (⟨i, current.point.toArray, norm r, current.damping⟩ : Snapshot α).moved C.point =
        ⟨i, (C.iterate current).point.toArray, norm r', (C.iterate current).damping⟩ := by
      unfold Snapshot.moved
      rw [atSize_toArray, C.norm_eq hr]
      rfl
    rw [← hmoved, ← C.norm_eq hr]
    refine (together_record ⟨i, current.point.toArray, norm r, current.damping⟩).bind fun _ _ => ?_
    refine (together_emit (.pass i (norm r) current.damping)).bind fun _ _ => ?_
    unfold Criteria.checkResidual Config.criteria
    dsimp only
    rw [htolerance, htolerance', hstep]
    by_cases hbelow : norm r < C.tolerance
    · rw [if_pos hbelow, if_pos hbelow]
      exact .pure fun _ _ hst => ⟨rfl, hst⟩
    · rw [if_neg hbelow, if_neg hbelow]
      refine (h.together_attempt i hdamping hr).bind fun next next' => .given fun hnext => ?_
      obtain ⟨rfl, hnext⟩ := hnext
      rw [Nat.add_right_comm]
      exact ih (i + 1) next hnext

/-! ## whole solves -/

variable {Q : Outcome α → Outcome α → Session σ α → Session τ α → Prop}

theorem together_finish (h : InStep C p q ε) (htolerance : config.tolerance = config'.tolerance)
    (hQ : C.Ends Q) (last : Iterate α n) (exit : Status) :
    Together (C.Beside 0) (finish p config last exit) (finish q config' (C.iterate last) exit) Q
      C.Failed := by
  intro s t hst
  have hpoint : (C.iterate last).point = C.point last.point := rfl
  rw [run_finish, run_finish, hpoint]
  rcases h.together_residuals 0 last.point s t hst with ⟨r, r', s', t', hs, ht, hr, hst'⟩ |
    ⟨e, e', s', t', hs, ht, hfailed⟩
  · have hstatus : config'.criteria.finalStatus (norm r') =
        config.criteria.finalStatus (norm r) := by
      unfold Criteria.finalStatus Config.criteria
      rw [htolerance, C.norm_eq hr]
    rw [hs, ht]
    dsimp only
    rw [hstatus, ← C.norm_eq hr]
    exact .inl ⟨_, _, _, _, rfl, rfl, hQ last exit _ _ _ _ hst'⟩
  · rw [hs, ht]
    exact .inr ⟨e, e', s', t', rfl, rfl, hfailed⟩

theorem together_rest (h : InStep C p q config.differenceStep)
    (htolerance : config.tolerance = C.tolerance) (htolerance' : config'.tolerance = C.tolerance)
    (hstep : config'.differenceStep = config.differenceStep) (hQ : C.Ends Q) (budget i : Nat)
    (current : Iterate α n) (hdamping : C.damping current.damping) :
    Together (C.Beside 0) (rest p config budget (i + C.before) current)
      (rest q config' budget i (C.iterate current)) Q C.Failed := by
  refine (h.together_passes htolerance htolerance' hstep budget i current hdamping).bind
    fun last last' => .given ?_
  rintro rfl
  exact h.together_finish (htolerance.trans htolerance'.symm) hQ last.1 last.2

omit [RealScalar α] in
theorem isEmpty_toArray (x : Vector α n) : x.toArray.isEmpty = decide (n = 0) := by
  obtain ⟨x, rfl⟩ := x
  rfl

theorem rest_toVector (p : Problem σ α) (config : Config α) (budget i : Nat) (x : Vector α n)
    (damping : α) :
    rest p config budget i ⟨x.toArray.toVector, damping⟩ = rest p config budget i ⟨x, damping⟩ := by
  obtain ⟨x, rfl⟩ := x
  rfl

/-- two solves with the same options, side by side from the start -/
theorem together_minimize (h : InStep C p q config.differenceStep)
    (htolerance : config.tolerance = C.tolerance) (hbefore : C.before = 0)
    (hdamping : config.validate = .ok () → C.damping config.initialDamping) (hQ : C.Ends Q)
    (x₀ : Vector α n) :
    Together (C.Beside 0) (Solve.minimize p config x₀.toArray)
      (Solve.minimize q config (C.point x₀).toArray) Q C.Failed := by
  unfold Solve.minimize
  cases hvalid : config.validate with
  | error e => exact .throw fun _ _ hst => C.refl e hst
  | ok _ =>
    rw [isEmpty_toArray, isEmpty_toArray]
    by_cases hn : n = 0
    · rw [decide_eq_true hn]
      exact .throw fun _ _ hst => C.refl _ hst
    · rw [decide_eq_false hn]
      show Together _ (rest p config _ 0 ⟨x₀.toArray.toVector, _⟩)
        (rest q config _ 0 ⟨(C.point x₀).toArray.toVector, _⟩) _ _
      rw [rest_toVector, rest_toVector]
      have hrest := h.together_rest htolerance htolerance rfl hQ config.maxIterations 0
        ⟨x₀, config.initialDamping⟩ (hdamping hvalid)
      rw [hbefore] at hrest
      exact hrest

end InStep
end Solve
end LeastSquares
