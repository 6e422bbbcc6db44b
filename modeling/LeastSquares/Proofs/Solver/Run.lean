import LeastSquares.Proofs.Binary64.Order
import LeastSquares.Proofs.Solver.Trace

/-!
# Runs of a pure problem

The answers of a pure problem depend on nothing but the arguments.  What a solve of such a problem
does is a sequence of states, one for every record and the returned one behind them
(`Outcome.state`), and each pass is a move of the relation `Pass`:

* accepted   the damped step leads to a point with a strictly lower residual norm, which is the next
             point; the damping is halved;
* rejected   the point it leads to is not better, or there is no usable pivot: the point stays and
             the damping is doubled.

A `LegalRun` is a sequence of states in which each one follows from the one before.  The passes of a
solve are told by these moves (`Notes.ofPure`), so the states of every solve of a pure problem that
succeeds make a legal run (`LegalRun.of_minimize`).
-/

namespace LeastSquares
variable {σ α : Type}

/-! ## pure problems -/

/-- what a problem answers that keeps nothing in mind -/
structure PureProblem (α : Type) where
  residuals : Array α → Except (Failure α) (Array α)
  /-- the Jacobian at a point with known residuals, for a given difference step -/
  jacobian : Array α → Array α → α → Except (Failure α) (DenseMatrix α)

/-- whatever `p` has evaluated before, it answers what `f` says -/
structure Problem.IsPure (p : Problem σ α) (f : PureProblem α) : Prop where
  residuals : ∀ x q, ((p.residuals x).run q).1 = f.residuals x
  jacobian : ∀ x r ε q, ((p.jacobian x r ε).run q).1 = f.jacobian x r ε

def PureProblem.toProblem (f : PureProblem α) : Problem σ α where
  residuals x := ExceptT.mk (pure (f.residuals x))
  jacobian x r ε := ExceptT.mk (pure (f.jacobian x r ε))
  hasCustomJacobian := true

theorem PureProblem.isPure_toProblem (f : PureProblem α) :
    (f.toProblem : Problem σ α).IsPure f where
  residuals _ _ := rfl
  jacobian _ _ _ _ := rfl

section
variable {p : Problem σ α} {f : PureProblem α} {s s' : Session σ α}

theorem residuals_of_returns (hp : p.IsPure f) {x r : Array α}
    (h : Solve.Returns (Solve.residuals p x) s r s') : f.residuals x = .ok r := by
  obtain ⟨q, hq, -, -⟩ := Solve.returns_residuals.mp h
  rw [← hp.residuals x s.problem, hq]

theorem jacobian_of_returns (hp : p.IsPure f) {m n : Nat} {x : Vector α n} {r : Vector α m}
    {ε : α} {J : Mat α m n}
    (h : Solve.Returns (Solve.jacobian p x r ε) s J s') :
    f.jacobian x.toArray r.toArray ε = .ok ⟨m, n, J⟩ := by
  obtain ⟨q, hq, -⟩ := Solve.returns_jacobian.mp h
  rw [← hp.jacobian x.toArray r.toArray ε s.problem, hq]

end

/-! ## passes -/

variable [RealScalar α]

def PureProblem.residualNorm (f : PureProblem α) (x : Array α) : Except (Failure α) α :=
  (f.residuals x).map norm

theorem PureProblem.residualNorm_of_ok {f : PureProblem α} {x r : Array α}
    (h : f.residuals x = .ok r) : f.residualNorm x = .ok (norm r) := by
  rw [residualNorm, h]
  rfl

/-- a pass from the state `a` to the point `y` and the damping `μ` -/
inductive Pass (f : PureProblem α) (ε : α) (a : Snapshot α) (y : Array α) (μ : α) :
    (accepted : Bool) → Prop where
  | accepted {r : Array α} {J : DenseMatrix α} {s : Array α} {v : α}
      (residuals : f.residuals a.point = .ok r) (jacobian : f.jacobian a.point r ε = .ok J)
      (step : J.dampedStep r a.damping = .ok s) (candidate : add a.point s = .ok y)
      (evaluated : f.residualNorm y = .ok v) (lower : v < a.residualNorm)
      (damping : μ = Damping.relax a.damping) : Pass f ε a y μ true
  | rejected {r : Array α} {J : DenseMatrix α} {s c : Array α} {v : α}
      (residuals : f.residuals a.point = .ok r) (jacobian : f.jacobian a.point r ε = .ok J)
      (step : J.dampedStep r a.damping = .ok s) (candidate : add a.point s = .ok c)
      (evaluated : f.residualNorm c = .ok v) (not_lower : ¬ v < a.residualNorm)
      (point : y = a.point) (damping : μ = Damping.tighten a.damping) : Pass f ε a y μ false
  | singular {r : Array α} {J : DenseMatrix α}
      (residuals : f.residuals a.point = .ok r) (jacobian : f.jacobian a.point r ε = .ok J)
      (step : J.dampedStep r a.damping = .error .singular)
      (point : y = a.point) (damping : μ = Damping.tighten a.damping) : Pass f ε a y μ false

section
variable {f : PureProblem α} {ε : α} {a : Snapshot α} {y : Array α} {μ : α} {accepted : Bool}

theorem Pass.point_eq (h : Pass f ε a y μ false) : y = a.point := by
  cases h with
  | rejected _ _ _ _ _ _ hy _ => exact hy
  | singular _ _ _ hy _ => exact hy

theorem Pass.lower (h : Pass f ε a y μ true) :
    ∃ v, f.residualNorm y = .ok v ∧ v < a.residualNorm := by
  cases h with
  | accepted _ _ _ _ hv hlt _ => exact ⟨_, hv, hlt⟩

theorem Pass.damping_eq (h : Pass f ε a y μ accepted) : μ = Damping.next accepted a.damping := by
  cases h with
  | accepted _ _ _ _ _ _ hμ => exact hμ
  | rejected _ _ _ _ _ _ _ hμ => exact hμ
  | singular _ _ _ _ hμ => exact hμ

/-- where there is a step its candidate is judged -/
theorem Pass.judged (h : Pass f ε a y μ accepted) : ∃ r J, f.residuals a.point = .ok r ∧
    f.jacobian a.point r ε = .ok J ∧ ∀ s, J.dampedStep r a.damping = .ok s →
      ∃ c v, add a.point s = .ok c ∧ f.residualNorm c = .ok v ∧
        (accepted = true ↔ v < a.residualNorm) := by
  cases h with
  | accepted hr hJ hs hc hv hlt _ =>
    refine ⟨_, _, hr, hJ, ?_⟩
    intro s hstep
    obtain rfl := Except.ok.inj (hs.symm.trans hstep)
    exact ⟨_, _, hc, hv, fun _ => hlt, fun _ => rfl⟩
  | rejected hr hJ hs hc hv hlt _ _ =>
    refine ⟨_, _, hr, hJ, ?_⟩
    intro s hstep
    obtain rfl := Except.ok.inj (hs.symm.trans hstep)
    exact ⟨_, _, hc, hv, nofun, fun hlower => absurd hlower hlt⟩
  | singular hr hJ hs _ _ =>
    refine ⟨_, _, hr, hJ, ?_⟩
    intro s hstep
    rw [hs] at hstep
    cases hstep

/-- a pass with the candidate `c` is accepted if `c` is better -/
theorem Pass.accepted_iff_lower (h : Pass f ε a y μ accepted) {r : Array α} {J : DenseMatrix α}
    {s c : Array α} {v : α} (hr : f.residuals a.point = .ok r)
    (hJ : f.jacobian a.point r ε = .ok J) (hs : J.dampedStep r a.damping = .ok s)
    (hc : add a.point s = .ok c) (hv : f.residualNorm c = .ok v) :
    accepted = true ↔ v < a.residualNorm := by
  obtain ⟨r', J', hr', hJ', hjudged⟩ := h.judged
  obtain rfl := Except.ok.inj (hr.symm.trans hr')
  obtain rfl := Except.ok.inj (hJ.symm.trans hJ')
  obtain ⟨c', v', hc', hv', haccepted⟩ := hjudged s hs
  obtain rfl := Except.ok.inj (hc.symm.trans hc')
  obtain rfl := Except.ok.inj (hv.symm.trans hv')
  exact haccepted

end

def Outcome.Passed (o : Outcome α) (f : PureProblem α) (ε : α) (k : Nat) (accepted : Bool) :
    Prop :=
  Pass f ε (o.state k) (o.state (k + 1)).point (o.state (k + 1)).damping accepted

/-- the run of a solve from the point `x₀` with the outcome `o` -/
structure LegalRun (f : PureProblem α) (config : Config α) (x₀ : Array α) (o : Outcome α) :
    Prop where
  point_zero : (o.state 0).point = x₀
  damping_zero : (o.state 0).damping = config.initialDamping
  iteration : ∀ k ≤ o.history.size, (o.state k).iteration = k
  size : ∀ k ≤ o.history.size, (o.state k).point.size = x₀.size
  evaluated : ∀ k ≤ o.history.size, f.residualNorm (o.state k).point = .ok (o.state k).residualNorm
  /-- above the tolerance a pass leads to the next state -/
  pass : ∀ k < o.history.size, ¬ (o.state k).residualNorm < config.tolerance →
    ∃ accepted, o.Passed f config.differenceStep k accepted
  /-- below the tolerance the run ends where it is -/
  stop : ∀ k < o.history.size, (o.state k).residualNorm < config.tolerance →
    k + 1 = o.history.size ∧ o.solution = (o.state k).point ∧ o.damping = (o.state k).damping
  length_le : o.history.size ≤ config.maxIterations
  /-- a run that leaves passes unused has come below the tolerance -/
  short : o.history.size < config.maxIterations →
    ∃ k, k + 1 = o.history.size ∧ (o.state k).residualNorm < config.tolerance
  status : o.status = config.criteria.finalStatus o.residualNorm

namespace LegalRun
variable {f : PureProblem α} {config : Config α} {x₀ : Array α} {o : Outcome α} {k : Nat}

theorem evaluated_solution (h : LegalRun f config x₀ o) :
    f.residualNorm o.solution = .ok o.residualNorm := by
  have hv := h.evaluated o.history.size (Nat.le_refl _)
  rw [o.state_size] at hv
  exact hv

theorem evaluated_recorded (h : LegalRun f config x₀ o) {a : Snapshot α} (ha : a ∈ o.history) :
    f.residualNorm a.point = .ok a.residualNorm := by
  obtain ⟨k, hk, rfl⟩ := Array.mem_iff_getElem.mp ha
  rw [← o.state_of_lt hk]
  exact h.evaluated k (Nat.le_of_lt hk)

theorem size_solution (h : LegalRun f config x₀ o) : o.solution.size = x₀.size := by
  have hsize := h.size o.history.size (Nat.le_refl _)
  rw [o.state_size] at hsize
  exact hsize

theorem size_recorded (h : LegalRun f config x₀ o) {a : Snapshot α} (ha : a ∈ o.history) :
    a.point.size = x₀.size := by
  obtain ⟨k, hk, rfl⟩ := Array.mem_iff_getElem.mp ha
  rw [← o.state_of_lt hk]
  exact h.size k (Nat.le_of_lt hk)

theorem accepted_or_point_eq (h : LegalRun f config x₀ o) (hk : k < o.history.size) :
    o.Passed f config.differenceStep k true ∨ (o.state (k + 1)).point = (o.state k).point := by
  by_cases hb : (o.state k).residualNorm < config.tolerance
  · right
    obtain ⟨hlast, hx, -⟩ := h.stop k hk hb
    rw [hlast, o.state_size]
    exact hx
  · obtain ⟨accepted, hpass⟩ := h.pass k hk hb
    cases accepted with
    | true => exact .inl hpass
    | false => exact .inr (Pass.point_eq hpass)

theorem lower_of_accepted (h : LegalRun f config x₀ o) (hk : k < o.history.size)
    (ha : o.Passed f config.differenceStep k true) :
    (o.state (k + 1)).residualNorm < (o.state k).residualNorm := by
  obtain ⟨v, hv, hlt⟩ := Pass.lower ha
  rw [h.evaluated (k + 1) hk] at hv
  cases hv
  exact hlt

theorem norm_eq_of_point_eq (h : LegalRun f config x₀ o) (hk : k < o.history.size)
    (hx : (o.state (k + 1)).point = (o.state k).point) :
    (o.state (k + 1)).residualNorm = (o.state k).residualNorm := by
  have hv := h.evaluated (k + 1) hk
  rw [hx, h.evaluated k (Nat.le_of_lt hk)] at hv
  exact (Except.ok.inj hv).symm

/-- where nothing is below itself, exactly the accepted passes lower the norm -/
theorem lower_iff_of_irrefl (h : LegalRun f config x₀ o) (hirrefl : ∀ v : α, ¬ v < v)
    (hk : k < o.history.size) :
    (o.state (k + 1)).residualNorm < (o.state k).residualNorm ↔
      o.Passed f config.differenceStep k true := by
  refine ⟨?_, h.lower_of_accepted hk⟩
  intro hlt
  refine (h.accepted_or_point_eq hk).resolve_right ?_
  intro hx
  rw [h.norm_eq_of_point_eq hk hx] at hlt
  exact hirrefl _ hlt

/-- what every decision preserves holds of the damping of every state -/
theorem damping_of_next (h : LegalRun f config x₀ o) {P : α → Prop}
    (hP : ∀ accepted x, P x → P (Damping.next accepted x)) (hinitial : P config.initialDamping)
    (hk : k ≤ o.history.size) : P (o.state k).damping := by
  induction k with
  | zero =>
    rw [h.damping_zero]
    exact hinitial
  | succ k ih =>
    have hbefore := ih (Nat.le_of_succ_le hk)
    by_cases hb : (o.state k).residualNorm < config.tolerance
    · obtain ⟨hlast, -, hdamping⟩ := h.stop k hk hb
      rw [← hdamping] at hbefore
      rw [hlast, o.state_size]
      exact hbefore
    · obtain ⟨accepted, hpass⟩ := h.pass k hk hb
      rw [Pass.damping_eq hpass]
      exact hP accepted _ hbefore

end LegalRun

/-! ## the run of a solve -/

/-- what the pure problem `f` says of a pass from the state `a` to the point `y` and the damping
`μ` -/
structure Moves (f : PureProblem α) (config : Config α) (a : Snapshot α) (y : Array α) (μ : α) :
    Prop where
  evaluated : f.residualNorm a.point = .ok a.residualNorm
  pass : ¬ a.residualNorm < config.tolerance →
    ∃ accepted, Pass f config.differenceStep a y μ accepted

section
open Solve
variable {p : Problem σ α} {f : PureProblem α} {config : Config α} {n : Nat} {s s' : Session σ α}

theorem pass_of_returns (hp : p.IsPure f) {ε : α} {i : Nat} {current next : Iterate α n}
    {r : Array α} (hr : f.residuals current.point.toArray = .ok r)
    (h : Returns (attempt p ε i current r) s next s') :
    ∃ accepted,
      Pass f ε (current.snapshot i (norm r)) next.point.toArray next.damping accepted := by
  obtain ⟨J, s₁, hJ, h⟩ := returns_attempt.mp h
  have hJ := jacobian_of_returns hp hJ
  have hstep := DenseMatrix.dampedStep_mk J r.toVector current.damping
  rcases h with ⟨hs, rfl, -⟩ | ⟨step, c, s₂, hs, hc, rfl, -⟩
  · rw [hs] at hstep
    exact ⟨false, .singular hr hJ hstep rfl rfl⟩
  · rw [hs] at hstep
    refine ⟨Damping.accepts (norm r) (norm c), ?_⟩
    have hv := PureProblem.residualNorm_of_ok (residuals_of_returns hp hc)
    have hcand := add_candidate current step
    cases ha : Damping.accepts (norm r) (norm c) with
    | true =>
      have hlt : norm c < norm r := of_decide_eq_true ha
      exact .accepted hr hJ hstep hcand hv hlt rfl
    | false =>
      have hlt : ¬ norm c < norm r := of_decide_eq_false ha
      exact .rejected hr hJ hstep hcand hv hlt rfl rfl

/-- the moves of a pure problem; the sessions do not matter -/
def Notes.ofPure (hp : p.IsPure f) (config : Config α) (n : Nat) : Notes p config n Unit where
  Adds _ _ _ := True
  Tells a y μ _ := Moves f config a y μ
  nil _ := trivial
  cons _ _ := trivial
  stop hr below :=
    ⟨(), trivial, PureProblem.residualNorm_of_ok (residuals_of_returns hp hr), absurd below⟩
  pass hr _ hn :=
    have hr := residuals_of_returns hp hr
    ⟨(), trivial, PureProblem.residualNorm_of_ok hr, fun _ => pass_of_returns hp hr hn⟩

theorem LegalRun.of_minimize {x₀ : Array α} {q : σ} {o : Outcome α} (hp : p.IsPure f)
    (h : ((minimize config p x₀).run q).1.result = .ok o) : LegalRun f config x₀ o := by
  obtain ⟨last, exit, s, r, s', hsolved⟩ := exists_solved h
  obtain ⟨notes, -, htrace⟩ := (Notes.ofPure hp config x₀.size).trace_of_solved hsolved
  have hx := hsolved.point_final
  have hd := hsolved.damping_final
  have hmoves (k : Nat) (hk : k < o.history.size) :
      Moves f config (o.state k) (o.state (k + 1)).point (o.state (k + 1)).damping :=
    htrace.getD_told hx hd (htrace.length_eq ▸ hk)
  constructor
  case point_zero => exact (htrace.getD_zero hx hd).1
  case damping_zero => exact (htrace.getD_zero hx hd).2
  case iteration =>
    intro k hk
    exact (htrace.state_iteration hx hk).1
  case size =>
    intro k hk
    exact (htrace.state_iteration hx hk).2
  case evaluated =>
    intro k hk
    rcases Nat.lt_or_eq_of_le hk with hlt | rfl
    · exact (hmoves k hlt).evaluated
    · rw [o.state_size, hsolved.outcome]
      exact PureProblem.residualNorm_of_ok (residuals_of_returns hp hsolved.evaluated)
  case pass =>
    intro k hk above
    exact (hmoves k hk).pass above
  case stop =>
    intro k hk below
    obtain ⟨hlength, hpoint, hdamping⟩ := htrace.getD_stop hk below
    exact ⟨hlength, hx.trans hpoint, hd.trans hdamping⟩
  case length_le => exact htrace.length_le
  case short => exact htrace.exists_below
  case status => exact hsolved.status_eq

end

theorem LegalRun.accepted_iff_point_ne {f : PureProblem Float} {config : Config Float}
    {x₀ : Array Float} {o : Outcome Float} (h : LegalRun f config x₀ o) {k : Nat}
    (hk : k < o.history.size) :
    o.Passed f config.differenceStep k true ↔ (o.state (k + 1)).point ≠ (o.state k).point := by
  refine ⟨?_, ?_⟩
  · intro ha hx
    have hlt := h.lower_of_accepted hk ha
    rw [h.norm_eq_of_point_eq hk hx] at hlt
    exact Binary64.lt_irrefl _ hlt
  · intro hx
    exact (h.accepted_or_point_eq hk).resolve_right hx

/-- **The run of a pure problem is legal, and exactly its accepted passes change the point.** -/
theorem minimize_legalRun {p : Problem σ Float} {f : PureProblem Float} {config : Config Float}
    {x₀ : Array Float} {q : σ} {o : Outcome Float} (hp : p.IsPure f)
    (h : ((minimize config p x₀).run q).1.result = .ok o) :
    LegalRun f config x₀ o ∧
      ∀ k < o.history.size, o.Passed f config.differenceStep k true ↔
        (o.state (k + 1)).point ≠ (o.state k).point := by
  have hrun := LegalRun.of_minimize hp h
  refine ⟨hrun, ?_⟩
  intro k hk
  exact hrun.accepted_iff_point_ne hk

/-- the residuals `x² - 2` of every parameter `x` -/
def squareRoots : PureProblem Float where
  residuals x := .ok (x.map fun t => t * t - 2.0)
  jacobian x _ _ :=
    .ok ⟨x.size, x.size, Mat.ofFn .rowMajor fun i j => if i = j then 2.0 * x[i] else 0.0⟩

/-- from `0.25` the first step is rejected and the second one accepted -/
def twoPasses : Config Float := ⟨2, 1e-8, 0.25, 1e-8⟩

def runSquareRoots (x₀ : Array Float) : Report Float :=
  ((minimize twoPasses squareRoots.toProblem x₀).run ()).1

theorem Report.exists_outcome {r : Report Float} (h : r.result.isOk = true) :
    ∃ o, r.result = .ok o := by
  obtain ⟨result, log⟩ := r
  cases result with
  | error e => cases h
  | ok o => exact ⟨o, rfl⟩

theorem Report.exists_outcome_of_any {r : Report Float} {P : Outcome Float → Bool}
    (h : r.result.toOption.any P = true) : ∃ o, r.result = .ok o ∧ P o = true := by
  obtain ⟨result, log⟩ := r
  cases result with
  | error e => cases h
  | ok o => exact ⟨o, rfl, h⟩

/-- the two passes are made -/
theorem exists_quarter_outcome : ∃ o, (runSquareRoots #[0.25]).result = .ok o :=
  Report.exists_outcome (by decide +kernel)

theorem squareRoots_legalRun : ∃ o, LegalRun squareRoots twoPasses #[0.25] o ∧
    ∀ k < o.history.size, o.Passed squareRoots twoPasses.differenceStep k true ↔
      (o.state (k + 1)).point ≠ (o.state k).point := by
  have hok : (runSquareRoots #[0.25]).result.isOk = true := by decide +kernel
  obtain ⟨o, ho⟩ := Report.exists_outcome hok
  exact ⟨o, minimize_legalRun squareRoots.isPure_toProblem ho⟩

end LeastSquares
