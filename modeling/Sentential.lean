import Sentential.Clause.Dimacs
import Sentential.Digest
import Sentential.Disjunction
import Sentential.Formula.Meaning
import Sentential.Formula.Order
import Sentential.Proofs.Clause.Growth
import Sentential.Proofs.Clause.Models
import Sentential.Proofs.Clause.Names
import Sentential.Proofs.Clause.Range
import Sentential.Proofs.Clause.RoundTrip
import Sentential.Proofs.Clause.Sameness
import Sentential.Proofs.Disjunction.Balance
import Sentential.Proofs.Disjunction.Irredundance
import Sentential.Proofs.Disjunction.Models
import Sentential.Proofs.Formula.Flattening
import Sentential.Proofs.Formula.Matching
import Sentential.Proofs.Formula.NegationNormal
import Sentential.Proofs.Formula.Outline
import Sentential.Proofs.Formula.Partition
import Sentential.Proofs.Formula.Placement
import Sentential.Proofs.Oracle.Equivalence
import Sentential.Proofs.Oracle.Satisfiability
import Sentential.Proofs.Oracle.Separation
import Sentential.Proofs.Simplify.FixedPoint
import Sentential.Proofs.Simplify.NormalForm
import Sentential.Proofs.Simplify.Pruned
import Sentential.Proofs.Simplify.Shorten
import Sentential.Proofs.Simplify.Shortest
import Sentential.Proofs.Simplify.Shrinking
import Sentential.Proofs.Simplify.Verdict
import Sentential.Proofs.Solver.Bijection
import Sentential.Proofs.Solver.Combination
import Sentential.Proofs.Solver.Ledger
import Sentential.Proofs.Solver.Model
import Sentential.Settings
import Sentential.Simplifier
import Sentential.Solver.Faulty
