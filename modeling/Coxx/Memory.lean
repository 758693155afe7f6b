import Mathlib.Algebra.Group.Nat.Defs
import Mathlib.Algebra.Ring.Int.Defs

/-! Objects on the heap are known by their identity only. -/

set_option autoImplicit false

namespace Coxx

/-- The identity of an object; a C pointer is an `Option Addr`, with NULL as none. -/
abbrev Addr := Nat

/-- A ZNode and an Entry take 96 bytes each; `new` fails when the address space is full of them. -/
def MAX_OBJECTS : Nat := 2 ^ 64 / 96

end Coxx
