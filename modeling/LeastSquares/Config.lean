import LeastSquares.Failure
import LeastSquares.Scalar

/-!
# The options of a solve, and when it stops

A solve is running until the residual norm falls below the tolerance or the budget of passes is
used up.  `Criteria` makes both tests; after the last pass the norm alone decides.

`Config.validate` refuses an option outside its range; of several bad options it names the first
in the order initial damping, difference step, tolerance.
-/

namespace LeastSquares

/-! ## statuses -/

inductive Status where
  | running
  | converged
  | maxIterations
deriving DecidableEq

namespace Status

def all : List Status := [.running, .converged, .maxIterations]

def text : Status → String
  | .running => "Running"
  | .converged => "Converged"
  | .maxIterations => "Max Iterations Reached"

def ofText? (name : String) : Option Status := all.find? (·.text = name)

def isTerminated (s : Status) : Bool := s ≠ .running
def isConverged (s : Status) : Bool := s = .converged

theorem ofText?_text (s : Status) : ofText? s.text = some s := by cases s <;> decide

end Status

structure Criteria (α : Type) where
  tolerance : α
  maxIterations : Nat

namespace Criteria
variable {α : Type} [Scalar α]

/-- the test at the start of a pass -/
def checkResidual (c : Criteria α) (residualNorm : α) : Status :=
  if residualNorm < c.tolerance then .converged else .running

/-- the test after a number of passes -/
def checkIterations (c : Criteria α) (iterations : Nat) : Status :=
  if c.maxIterations ≤ iterations then .maxIterations else .running

/-- the status after the last pass, whatever ended it -/
def finalStatus (c : Criteria α) (residualNorm : α) : Status :=
  if residualNorm < c.tolerance then .converged else .maxIterations

end Criteria

/-! ## options -/

/-- the step of a finite difference, unless another one is asked for -/
def defaultDifferenceStep : Float := 1e-8

structure Config (α : Type) where
  maxIterations : Nat
  /-- a residual norm below it counts as converged -/
  tolerance : α
  initialDamping : α
  differenceStep : α

namespace Config
variable {α : Type}

/-- a hundred passes, tolerance `1e-8`, initial damping `1e-3` -/
protected def default : Config Float := ⟨100, 1e-8, 1e-3, defaultDifferenceStep⟩

/-! ## changing one option -/

def withMaxIterations (c : Config α) (n : Nat) : Config α := { c with maxIterations := n }
def withTolerance (c : Config α) (x : α) : Config α := { c with tolerance := x }
def withInitialDamping (c : Config α) (x : α) : Config α := { c with initialDamping := x }
def withDifferenceStep (c : Config α) (x : α) : Config α := { c with differenceStep := x }

def criteria (c : Config α) : Criteria α := ⟨c.tolerance, c.maxIterations⟩

/-! ## validation -/

variable [Scalar α]

def isPositiveFinite (x : α) : Bool := Scalar.zero < x && Scalar.isFinite x

/-- the first option outside its range, if there is one -/
def fault? (c : Config α) : Option (ParameterFault α) :=
  if !isPositiveFinite c.initialDamping then some (.initialDamping c.initialDamping)
  else if !isPositiveFinite c.differenceStep then some (.differenceStep c.differenceStep)
  else if Scalar.zero ≤ c.tolerance then none
  else some (.tolerance c.tolerance)

def validate (c : Config α) : Except (Failure α) Unit :=
  match c.fault? with
  | none => .ok ()
  | some fault => .error (.parameter fault)

/-- the options are accepted if each one is in its range -/
theorem validate_eq_ok {c : Config α} :
    c.validate = .ok () ↔ isPositiveFinite c.initialDamping = true ∧
      isPositiveFinite c.differenceStep = true ∧ Scalar.zero ≤ c.tolerance := by
  unfold validate fault?
  cases isPositiveFinite c.initialDamping with
  | false => simp
  | true =>
    cases isPositiveFinite c.differenceStep with
    | false => simp
    | true => by_cases h : Scalar.zero ≤ c.tolerance <;> simp [h]

end Config

end LeastSquares
