import Mathlib.Algebra.Group.Nat.Defs
import Mathlib.Algebra.Ring.Int.Defs
import Mathlib.Data.BitVec

/-! A double is its 64 bits; the comparisons read sign, exponent and mantissa off them. -/

set_option autoImplicit false

namespace Coxx

structure Double where
  bits : BitVec 64
  deriving DecidableEq, Repr

namespace Double

def magnitude (d : Double) : Nat := d.bits.toNat % 2 ^ 63

def isNaN (d : Double) : Bool := decide (2047 * 2 ^ 52 < d.magnitude)

/-- The place of a number among the others; the two zeros share theirs. -/
def place (d : Double) : Int := if d.bits.msb then -(d.magnitude : Int) else d.magnitude

def eq (x y : Double) : Bool := !x.isNaN && !y.isNaN && decide (x.place = y.place)

def lt (x y : Double) : Bool := !x.isNaN && !y.isNaN && decide (x.place < y.place)

variable {x y : Double}

theorem eq_iff (left : x.isNaN = false) (right : y.isNaN = false) : x.eq y = true ↔ x.place = y.place := by
  simp [eq, left, right]

theorem lt_iff (left : x.isNaN = false) (right : y.isNaN = false) : x.lt y = true ↔ x.place < y.place := by
  simp [lt, left, right]

end Double

end Coxx
