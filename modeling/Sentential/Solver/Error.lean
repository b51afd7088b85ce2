/-!
# Failures of a satisfiability solver
-/

set_option autoImplicit false

namespace Sentential

inductive SolverError where
  | timeout
  | backend (reason : String)
  | unavailable (reason : String)
  deriving DecidableEq, Repr

def SolverError.message : SolverError → String
  | .timeout => "SAT solver timed out"
  | .backend reason => "SAT backend failure: " ++ reason
  | .unavailable reason => "SAT backend not available: " ++ reason

end Sentential
