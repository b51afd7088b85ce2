import Sentential.Sorted

/-!
# Sets of names

Strings compare character by character in code point order, which is also the
order of their UTF-8 bytes.
-/

set_option autoImplicit false

namespace Sentential.Names

/-- The distinct members of a list of names in increasing order. -/
def ofList (names : List String) : List String :=
  Sorted.ofList compare names

@[simp] theorem mem_ofList (name : String) (names : List String) :
    name ∈ ofList names ↔ name ∈ names :=
  Sorted.mem_ofList (fun _ _ h => Std.LawfulEqOrd.eq_of_compare h)

end Sentential.Names
