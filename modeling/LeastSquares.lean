import LeastSquares.Config.Storage
import LeastSquares.Failure.Message
import LeastSquares.Problem.Curve
import LeastSquares.Problem.Polynomial
import LeastSquares.Proofs.Config.Overriding
import LeastSquares.Proofs.Config.RoundTrip
import LeastSquares.Proofs.Exact.Growth
import LeastSquares.Proofs.Exact.InitialGuess
import LeastSquares.Proofs.Exact.Product
import LeastSquares.Proofs.Exact.Quadratic
import LeastSquares.Proofs.Exact.StepLength
import LeastSquares.Proofs.Linear.Divisors
import LeastSquares.Proofs.Linear.Transposed
import LeastSquares.Proofs.Problem.Sampling
import LeastSquares.Proofs.Solver.Accounting
import LeastSquares.Proofs.Solver.Charging
import LeastSquares.Proofs.Solver.Decisions
import LeastSquares.Proofs.Solver.Descent
import LeastSquares.Proofs.Solver.Dominated
import LeastSquares.Proofs.Solver.Extension
import LeastSquares.Proofs.Solver.Lengths
import LeastSquares.Proofs.Solver.Log
import LeastSquares.Proofs.Solver.NonFinite
import LeastSquares.Proofs.Solver.Polynomial
import LeastSquares.Proofs.Solver.Rearranged
import LeastSquares.Proofs.Solver.Resume
import LeastSquares.Proofs.Solver.RoundTrip
import LeastSquares.Proofs.Solver.Undefined
import LeastSquares.Solver.Json
import LeastSquares.Solver.Summary
import LeastSquares.Version
