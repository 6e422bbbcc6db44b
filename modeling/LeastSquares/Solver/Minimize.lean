import LeastSquares.Problem
import LeastSquares.Solver.Outcome
import LeastSquares.Step

/-!
# The solver

A session is the state of a running solve: the state of the problem, the length of the first
residuals, which pins that of all later ones, the number of evaluations, the history and the log.
Its operations are the only ones that call the problem.

A pass evaluates the residuals at the current point, records a snapshot and stops the run if the
norm is below the tolerance.  Otherwise it tries one damped step: a candidate that strictly lowers
the norm becomes the current point and the damping is halved; any other candidate, and a singular
system, leaves the point alone and doubles the damping.  After the last pass the residuals are
evaluated once more, and that norm alone decides the status.

`passes` is the loop, by recursion on the budget that is left; the whole state that one pass hands
to the next is an `Iterate`.
-/

namespace LeastSquares

/-! ## sessions -/

/-- the state of a running solve of a problem with the state `σ` -/
structure Session (σ α : Type) where
  problem : σ
  /-- the length of the first residuals, once there are any -/
  residualLength : Option Nat
  evaluations : Nat
  history : Array (Snapshot α)
  log : Array (Event α)

/-- a computation in a session; its state is kept when it fails -/
abbrev Solve (σ α : Type) := ExceptT (Failure α) (StateM (Session σ α))

namespace Session

def start {σ α : Type} (problem : σ) : Session σ α := ⟨problem, none, 0, #[], #[]⟩

end Session

namespace Solve
variable {σ α β : Type}

/-- an evaluation of the problem, which leaves the rest of the session alone -/
def call (act : Evaluation σ α β) : Solve σ α β :=
  ExceptT.mk fun s =>
    let (result, problem) := act.run s.problem
    (result, { s with problem })

def emit (e : Event α) : Solve σ α Unit := modify fun s => { s with log := s.log.push e }

def record (r : Snapshot α) : Solve σ α Unit :=
  modify fun s => { s with history := s.history.push r }

def count (k : Nat) : Solve σ α Unit :=
  modify fun s => { s with evaluations := s.evaluations + k }

/-- the first length is remembered, every other one must equal it -/
def pinLength (length : Nat) : Solve σ α Unit := do
  match (← get).residualLength with
  | none => modify fun s => { s with residualLength := some length }
  | some m => if length = m then pure () else throw (.dimension (.residualLength length m))

/-- the residuals at a point; a failed evaluation is not counted -/
def residuals (p : Problem σ α) (x : Array α) : Solve σ α (Array α) := do
  let r ← call (p.residuals x)
  count 1
  pinLength r.size
  return r

/-- the Jacobian at a point, of the size that point and residuals ask for; unless it is the
problem's own, it has cost two evaluations for every parameter -/
def jacobian {m n : Nat} (p : Problem σ α) (x : Vector α n) (r : Vector α m) (ε : α) :
    Solve σ α (Mat α m n) := do
  let J ← call (p.jacobian x.toArray r.toArray ε)
  unless p.hasCustomJacobian do count (2 * n)
  match J.sized? m n with
  | some J => return J
  | none => throw (.dimension (.jacobianShape J.rows J.cols m n))

end Solve

/-! ## passes -/

structure Iterate (α : Type) (n : Nat) where
  point : Vector α n
  damping : α

namespace Solve
variable {σ α : Type} [RealScalar α] {n : Nat}

def attempt (p : Problem σ α) (ε : α) (iteration : Nat) (current : Iterate α n) (r : Array α) :
    Solve σ α (Iterate α n) := do
  let J ← jacobian p current.point r.toVector ε
  match dampedStep J r.toVector current.damping with
  | none =>
    emit (.singular iteration current.damping)
    return { current with damping := Damping.next false current.damping }
  | some step =>
    let candidate := current.point.zipWith (· + ·) step
    let candidateNorm := norm (← residuals p candidate.toArray)
    let accepted := Damping.accepts (norm r) candidateNorm
    emit (.candidate iteration candidateNorm accepted)
    return {
      point := if accepted then candidate else current.point
      damping := Damping.next accepted current.damping }

/-- at most `budget` passes, the first one with the number `iteration`; with the last iterate comes
the reason for the end -/
def passes (p : Problem σ α) (config : Config α) :
    (budget iteration : Nat) → Iterate α n → Solve σ α (Iterate α n × Status)
  | 0, _, current => return (current, .maxIterations)
  | budget + 1, iteration, current => do
    let r ← residuals p current.point.toArray
    let residualNorm := norm r
    record ⟨iteration, current.point.toArray, residualNorm, current.damping⟩
    emit (.pass iteration residualNorm current.damping)
    match config.criteria.checkResidual residualNorm with
    | .running =>
      let next ← attempt p config.differenceStep iteration current r
      passes p config budget (iteration + 1) next
    | status => return (current, status)

theorem passes_zero (p : Problem σ α) (config : Config α) (iteration : Nat)
    (current : Iterate α n) :
    passes p config 0 iteration current = pure (current, .maxIterations) := rfl

theorem passes_succ (p : Problem σ α) (config : Config α) (budget iteration : Nat)
    (current : Iterate α n) :
    passes p config (budget + 1) iteration current = (do
      let r ← residuals p current.point.toArray
      record ⟨iteration, current.point.toArray, norm r, current.damping⟩
      emit (.pass iteration (norm r) current.damping)
      match config.criteria.checkResidual (norm r) with
      | .running =>
        let next ← attempt p config.differenceStep iteration current r
        passes p config budget (iteration + 1) next
      | status => return (current, status)) := rfl

def finish (p : Problem σ α) (config : Config α) (last : Iterate α n) (exit : Status) :
    Solve σ α (Outcome α) := do
  let residualNorm := norm (← residuals p last.point.toArray)
  let status := config.criteria.finalStatus residualNorm
  if status ≠ exit then emit (.disagreement exit status)
  let s ← get
  emit (.finished status s.history.size residualNorm s.evaluations)
  return {
    solution := last.point.toArray
    status
    history := s.history
    residualNorm
    evaluations := s.evaluations
    damping := last.damping }

/-- a whole solve; nothing is evaluated before the options and the point have been checked -/
def minimize (p : Problem σ α) (config : Config α) (x₀ : Array α) : Solve σ α (Outcome α) := do
  MonadExcept.ofExcept config.validate
  if x₀.isEmpty then throw (.dimension .noParameters)
  let (last, exit) ← passes p config config.maxIterations 0 ⟨x₀.toVector, config.initialDamping⟩
  finish p config last exit

end Solve

variable {σ α : Type} [RealScalar α]

/-- minimizes the residual norm of a problem from the point `x₀` -/
def minimize (config : Config α) (p : Problem σ α) (x₀ : Array α) : StateM σ (Report α) := do
  let (result, s) := (Solve.minimize p config x₀).run (Session.start (← get))
  set s.problem
  return ⟨result, s.log⟩

def solveWith (config : Config α) (f : Array α → StateM σ (Array α)) (x₀ : Array α) :
    StateM σ (Report α) :=
  minimize config (.ofFunction f) x₀

/-- minimizes the norm of a function that cannot fail, with the default options -/
def solve (f : Array Float → StateM σ (Array Float)) (x₀ : Array Float) :
    StateM σ (Report Float) :=
  solveWith Config.default f x₀

end LeastSquares
