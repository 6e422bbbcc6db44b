import LeastSquares.Config
import LeastSquares.Decimal

/-!
# What a solve reports and returns

Every pass reports its residual norm and, if it goes on, what became of its step.  The end of a
solve reports its result, after a possible disagreement between the reason why the passes ended
and the final status.

An `Outcome` is the final point with its status and the history of all passes; a `Report` is an
outcome or a failure together with the log, which is kept in both cases.
-/

namespace LeastSquares

/-! ## the lines of the log -/

inductive Event (α : Type) where
  | pass (iteration : Nat) (residualNorm damping : α)
  | candidate (iteration : Nat) (residualNorm : α) (accepted : Bool)
  | singular (iteration : Nat) (damping : α)
  | disagreement (exit final : Status)
  | finished (status : Status) (passes : Nat) (residualNorm : α) (evaluations : Nat)

inductive Level where
  | trace
  | debug
  | info
  | warn
deriving DecidableEq

def Level.text : Level → String
  | .trace => "TRACE"
  | .debug => "DEBUG"
  | .info => "INFO"
  | .warn => "WARN"

namespace Event
open Decimal (scientific)

def level {α : Type} : Event α → Level
  | .pass .. => .debug
  | .candidate .. => .trace
  | .singular .. => .warn
  | .disagreement .. => .debug
  | .finished .. => .info

/-- what was decided about a candidate -/
def decision (accepted : Bool) : String := if accepted then "accepted" else "rejected"

def message : Event Float → String
  | .pass i f damping =>
    s!"iteration {i}: |f| = " ++ scientific 6 f ++ ", lambda = " ++ scientific 3 damping
  | .candidate i f accepted =>
    s!"iteration {i}: candidate |f| = " ++ scientific 6 f ++ ", " ++ decision accepted
  | .singular i damping =>
    s!"iteration {i}: damped normal equations are singular at lambda = " ++
      scientific 3 damping ++ ", rejecting step"
  | .disagreement exit final =>
    "loop exited as " ++ exit.text ++ " but final residual check reports " ++ final.text
  | .finished status passes f evaluations =>
    status.text ++ s!" after {passes} passes: |f| = " ++ scientific 6 f ++
      s!", {evaluations} function evaluations"

def line (e : Event Float) : String := e.level.text ++ " " ++ e.message

end Event

/-! ## results -/

/-- the state at the start of a pass, before its step is decided -/
structure Snapshot (α : Type) where
  iteration : Nat
  point : Array α
  residualNorm : α
  damping : α

structure Outcome (α : Type) where
  /-- the last accepted point -/
  solution : Array α
  /-- decided by the residual norm at the solution -/
  status : Status
  history : Array (Snapshot α)
  residualNorm : α
  evaluations : Nat
  damping : α

def Outcome.isConverged {α : Type} (o : Outcome α) : Bool := o.status.isConverged

/-- what is known after a solve, successful or not -/
structure Report (α : Type) where
  result : Except (Failure α) (Outcome α)
  log : Array (Event α)

end LeastSquares
