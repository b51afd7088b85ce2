import Sentential.Formula.Text

/-!
# Indented outlines

An outline shows the tree of a formula with one node per line. Operands stand
one tab further in than their connective, which stands between them; a negation
puts its operand between a line `!(` and a line `)`.
-/

set_option autoImplicit false

namespace Sentential.Formula

/-- The lines of an outline that is `depth` tabs in. -/
def outlineLines (depth : Nat) : Formula → List String
  | .const true => [line depth "true"]
  | .const false => [line depth "false"]
  | .var name => [line depth name]
  | .neg inner => line depth "!(" :: inner.outlineLines (depth + 1) ++ [line depth ")"]
  | .bin op left right =>
    left.outlineLines (depth + 1) ++ line depth op.symbol :: right.outlineLines (depth + 1)
where
  line (depth : Nat) (content : String) : String :=
    String.ofList (List.replicate depth '\t') ++ content

def outline (f : Formula) : String :=
  "\n".intercalate (f.outlineLines 0)

end Sentential.Formula
