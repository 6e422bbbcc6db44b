import LeastSquares.Proofs.Solver.Success

/-!
# What a computation ensures, whether it succeeds or fails

`Ensures P x Q E`: from a session with `P` a success of `x` leaves one with `Q`, a failure one with
`E`.  A sequence passes on what its first part ensures (`Ensures.bind`).

A whole solve needs no more than its two calls of the problem (`Keeps`): what they preserve, and
bookkeeping does not touch, holds at the end (`Keeps.minimize`), by induction on the budget.
-/

namespace LeastSquares
variable {σ α β γ : Type}

namespace Solve

/-! ## rules -/

/-- from a session with `P` a success leaves one with `Q`, and a failure one with `E` -/
def Ensures (P : Session σ α → Prop) (x : Solve σ α β) (Q : β → Session σ α → Prop)
    (E : Failure α → Session σ α → Prop) : Prop :=
  ∀ s, P s → match x.run s with
    | (.ok b, s') => Q b s'
    | (.error e, s') => E e s'

namespace Ensures
variable {P : Session σ α → Prop} {E : Failure α → Session σ α → Prop}

theorem pure {Q : β → Session σ α → Prop} {b : β} (h : ∀ s, P s → Q b s) :
    Ensures P (Pure.pure b) Q E := h

theorem throw {Q : β → Session σ α → Prop} {e : Failure α} (h : ∀ s, P s → E e s) :
    Ensures P (throw e) Q E := h

theorem count (c : Nat) (h : ∀ s, P s → P { s with evaluations := s.evaluations + c }) :
    Ensures P (count c) (fun _ => P) E := h

theorem record (a : Snapshot α) (h : ∀ s, P s → P { s with history := s.history.push a }) :
    Ensures P (record a) (fun _ => P) E := h

theorem emit (e : Event α) (h : ∀ s, P s → P { s with log := s.log.push e }) :
    Ensures P (emit e) (fun _ => P) E := h

theorem weaken {P' : Session σ α → Prop} {Q : β → Session σ α → Prop} {x : Solve σ α β}
    (h : Ensures P' x Q E) (hP : ∀ s, P s → P' s) : Ensures P x Q E := fun s hs => h s (hP s hs)

theorem bind {Q : β → Session σ α → Prop} {Q' : γ → Session σ α → Prop} {x : Solve σ α β}
    {f : β → Solve σ α γ} (hx : Ensures P x Q E) (hf : ∀ b, Ensures (Q b) (f b) Q' E) :
    Ensures P (x >>= f) Q' E := by
  intro s hs
  have h := hx s hs
  rw [run_bind]
  rcases hxs : x.run s with ⟨e | b, s'⟩
  · rw [hxs] at h
    exact h
  · rw [hxs] at h
    exact hf b s' h

theorem imp {Q Q' : β → Session σ α → Prop} {E' : Failure α → Session σ α → Prop} {x : Solve σ α β}
    (h : Ensures P x Q E) (hQ : ∀ b s, Q b s → Q' b s) (hE : ∀ e s, E e s → E' e s) :
    Ensures P x Q' E' := by
  intro s hs
  have hx := h s hs
  rcases hxs : x.run s with ⟨e | b, s'⟩
  · rw [hxs] at hx
    exact hE e s' hx
  · rw [hxs] at hx
    exact hQ b s' hx

theorem of_returns {Q : β → Session σ α → Prop} {x : Solve σ α β}
    (h : ∀ s, P s → ∃ b s', Returns x s b s' ∧ Q b s') : Ensures P x Q E := by
  intro s hs
  obtain ⟨b, s', hx, hQ⟩ := h s hs
  rw [hx]
  exact hQ

/-- what cannot fail succeeds -/
theorem exists_returns {Q : β → Session σ α → Prop} {x : Solve σ α β}
    (h : Ensures P x Q fun _ _ => False) {s : Session σ α} (hs : P s) :
    ∃ b s', Returns x s b s' ∧ Q b s' := by
  have hx := h s hs
  rcases hxs : x.run s with ⟨e | b, s'⟩
  · rw [hxs] at hx
    exact hx.elim
  · rw [hxs] at hx
    exact ⟨b, s', hxs, hx⟩

/-- what every part preserves is preserved by all of them -/
theorem ofFnM {n : Nat} {f : Fin n → Solve σ α β} (h : ∀ i, Ensures P (f i) (fun _ => P) E) :
    Ensures P (Vector.ofFnM f) (fun _ => P) E := by
  induction n with
  | zero =>
    rw [Vector.ofFnM_zero]
    exact .pure fun s hs => hs
  | succ n ih =>
    rw [Vector.ofFnM_succ]
    refine (ih fun i => h i.castSucc).bind fun init => ?_
    exact (h (Fin.last n)).bind fun last => .pure fun s hs => hs

end Ensures

/-! ## a whole solve -/

/-- with `n` parameters the calls of `p` preserve what holds between them: `Ready` where residuals
may be evaluated, `Pinned m` behind an evaluation of `m` residuals; their failures satisfy `E` -/
structure Keeps (p : Problem σ α) (n : Nat) (Ready : Session σ α → Prop)
    (Pinned : Nat → Session σ α → Prop) (E : Failure α → Session σ α → Prop) : Prop where
  residuals : ∀ x : Vector α n, Ensures Ready (residuals p x.toArray) (fun r => Pinned r.size) E
  jacobian : ∀ {m : Nat} (x : Vector α n) (r : Vector α m) (ε : α),
    Ensures (Pinned m) (jacobian p x r ε) (fun _ => Pinned m) E
  ready : ∀ {m s}, Pinned m s → Ready s
  record : ∀ {m s}, Pinned m s → ∀ a, Pinned m { s with history := s.history.push a }
  emit : ∀ {m s}, Pinned m s → ∀ e, Pinned m { s with log := s.log.push e }

namespace Keeps
variable {p : Problem σ α} {n m : Nat} {Ready : Session σ α → Prop}
  {Pinned : Nat → Session σ α → Prop} {E : Failure α → Session σ α → Prop}

theorem ensures_record (h : Keeps p n Ready Pinned E) (a : Snapshot α) :
    Ensures (Pinned m) (Solve.record a) (fun _ => Pinned m) E :=
  .record a fun _ hs => h.record hs a

theorem ensures_emit (h : Keeps p n Ready Pinned E) (e : Event α) :
    Ensures (Pinned m) (Solve.emit e) (fun _ => Pinned m) E :=
  .emit e fun _ hs => h.emit hs e

theorem reported (h : Keeps p n Ready Pinned E) {s : Session σ α} (hs : Pinned m s)
    (exit final : Status) (v : α) : Pinned m (reported s exit final v) := by
  unfold Solve.reported
  by_cases hfinal : final = exit
  · rw [if_neg (not_not_intro hfinal)]
    exact h.emit hs _
  · rw [if_pos hfinal]
    exact h.emit (h.emit hs _) _

variable [RealScalar α] {config : Config α}

theorem attempt (h : Keeps p n Ready Pinned E) (ε : α) (i : Nat) (current : Iterate α n)
    (r : Array α) :
    Ensures (Pinned r.size) (attempt p ε i current r) (fun _ => Ready) E := by
  refine (h.jacobian current.point r.toVector ε).bind fun J => ?_
  cases dampedStep J r.toVector current.damping with
  | none =>
    refine (h.ensures_emit _).bind fun _ => ?_
    exact .pure fun s hs => h.ready hs
  | some step =>
    refine ((h.residuals (candidate current step)).weaken fun s hs => h.ready hs).bind fun c => ?_
    refine (h.ensures_emit _).bind fun _ => ?_
    exact .pure fun s hs => h.ready hs

theorem passes (h : Keeps p n Ready Pinned E) (budget i : Nat) (current : Iterate α n) :
    Ensures Ready (passes p config budget i current) (fun _ => Ready) E := by
  induction budget generalizing i current with
  | zero => exact .pure fun s hs => hs
  | succ budget ih =>
    refine (h.residuals current.point).bind fun r => ?_
    refine (h.ensures_record _).bind fun _ => ?_
    refine (h.ensures_emit _).bind fun _ => ?_
    cases config.criteria.checkResidual (norm r) with
    | running => exact (h.attempt _ i current r).bind fun next => ih (i + 1) next
    | converged => exact .pure fun s hs => h.ready hs
    | maxIterations => exact .pure fun s hs => h.ready hs

theorem finish (h : Keeps p n Ready Pinned E) (last : Iterate α n) (exit : Status) :
    Ensures Ready (finish p config last exit) (fun _ s => ∃ m, Pinned m s) E := by
  intro s hs
  have hlast := h.residuals last.point s hs
  rw [run_finish]
  rcases hr : (Solve.residuals p last.point.toArray).run s with ⟨e | r, s'⟩
  · rw [hr] at hlast
    exact hlast
  · rw [hr] at hlast
    exact ⟨r.size, h.reported hlast _ _ _⟩

theorem rest (h : Keeps p n Ready Pinned E) (budget i : Nat) (current : Iterate α n) :
    Ensures Ready (rest p config budget i current) (fun _ s => ∃ m, Pinned m s) E :=
  (h.passes budget i current).bind fun last => h.finish last.1 last.2

/-- what the calls preserve holds at the end of a solve whose options and point are accepted -/
theorem minimize {x₀ : Array α} (h : Keeps p x₀.size Ready Pinned E)
    (hvalid : config.validate = .ok ()) (hsize : x₀.size ≠ 0) :
    Ensures Ready (Solve.minimize p config x₀) (fun _ s => ∃ m, Pinned m s) E := by
  intro s hs
  rw [run_minimize hvalid hsize]
  exact h.rest config.maxIterations 0 ⟨x₀.toVector, config.initialDamping⟩ s hs

end Keeps
end Solve
end LeastSquares
