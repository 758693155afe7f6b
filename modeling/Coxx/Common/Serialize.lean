import Coxx.Bytes
import Coxx.Double
import Coxx.Library.LittleEndian

/-! The encoders of common/serialize.cxx, and the grammar of the values they write. -/

set_option autoImplicit false

namespace Coxx.Common

open Library

inductive Serialize where
  | NIL
  | ERR
  | STR
  | INT
  | DBL
  | ARR
  deriving DecidableEq, Repr

def Serialize.tag : Serialize → UInt8
  | NIL => 0
  | ERR => 1
  | STR => 2
  | INT => 4
  | DBL => 5
  | ARR => 6

def signed (width : Nat) (value : Int) : Bytes := encode width (value % 256 ^ width).toNat

/-! Every function appends to the string `out`. A size is cast to 32 bits. -/

namespace Out

def nil (out : Bytes) : Bytes := out ++ [Serialize.NIL.tag]

def str (out val : Bytes) : Bytes := out ++ (Serialize.STR.tag :: encode 4 val.length ++ val)

def num (out : Bytes) (val : Int) : Bytes := out ++ (Serialize.INT.tag :: signed 8 val)

def dbl (out : Bytes) (val : Double) : Bytes := out ++ (Serialize.DBL.tag :: encode 8 val.bits.toNat)

def err (out : Bytes) (code : Int) (msg : Bytes) : Bytes :=
  out ++ (Serialize.ERR.tag :: signed 4 code ++ encode 4 msg.length ++ msg)

def arr (out : Bytes) (n : Nat) : Bytes := out ++ (Serialize.ARR.tag :: encode 4 n)

/-- The position of the count that `end_arr` fills in. -/
def begin_arr (out : Bytes) : Bytes × Nat :=
  let out := out ++ [Serialize.ARR.tag] ++ [0, 0, 0, 0]
  (out, out.length - 4)

/-- None when the assertion fails or the count lies outside the string. -/
def end_arr (out : Bytes) (pos n : Nat) : Option Bytes :=
  if 1 ≤ pos ∧ out[pos - 1]? = some Serialize.ARR.tag ∧ pos + 4 ≤ out.length then
    some (out.take pos ++ encode 4 n ++ out.drop (pos + 4))
  else none

end Out

/-! ### Values -/

inductive Value where
  | nil
  | err (code : Int) (msg : Bytes)
  | str (val : Bytes)
  | int (val : Int)
  | dbl (val : Double)
  | arr (items : List Value)

namespace Value

mutual

def encoded : Value → Bytes
  | nil => [Serialize.NIL.tag]
  | err code msg => Serialize.ERR.tag :: signed 4 code ++ encode 4 msg.length ++ msg
  | str val => Serialize.STR.tag :: encode 4 val.length ++ val
  | int val => Serialize.INT.tag :: signed 8 val
  | dbl val => Serialize.DBL.tag :: encode 8 val.bits.toNat
  | arr items => Serialize.ARR.tag :: encode 4 items.length ++ encodedAll items

def encodedAll : List Value → Bytes
  | [] => []
  | item :: items => encoded item ++ encodedAll items

end

mutual

/-- Every size fits 32 bits, every integer its width. -/
def Fits : Value → Prop
  | nil => True
  | err code msg => -2 ^ 31 ≤ code ∧ code < 2 ^ 31 ∧ msg.length < 2 ^ 32
  | str val => val.length < 2 ^ 32
  | int val => -2 ^ 63 ≤ val ∧ val < 2 ^ 63
  | dbl _ => True
  | arr items => items.length < 2 ^ 32 ∧ FitsAll items

def FitsAll : List Value → Prop
  | [] => True
  | item :: items => Fits item ∧ FitsAll items

end

mutual

/-- Every integer fits its width; the sizes may not. -/
def Ranged : Value → Prop
  | nil | str _ | dbl _ => True
  | err code _ => -2 ^ 31 ≤ code ∧ code < 2 ^ 31
  | int val => -2 ^ 63 ≤ val ∧ val < 2 ^ 63
  | arr items => RangedAll items

def RangedAll : List Value → Prop
  | [] => True
  | item :: items => Ranged item ∧ RangedAll items

end

theorem rangedAll_iff {items : List Value} : RangedAll items ↔ ∀ item ∈ items, Ranged item := by
  induction items with
  | nil => simp [RangedAll]
  | cons item items ih => simp [RangedAll, ih]

theorem fitsAll_iff {items : List Value} : FitsAll items ↔ ∀ item ∈ items, Fits item := by
  induction items with
  | nil => simp [FitsAll]
  | cons item items ih => simp [FitsAll, ih]

theorem length_encoded_pos (value : Value) : 0 < (encoded value).length := by
  cases value <;> simp [encoded]

theorem length_le_encodedAll (items : List Value) : items.length ≤ (encodedAll items).length := by
  induction items with
  | nil => simp
  | cons item items ih =>
      have := length_encoded_pos item
      simp only [encodedAll, List.length_cons, List.length_append]
      omega

mutual

theorem fits_of_short {value : Value} (ranged : Ranged value) (short : (encoded value).length < 2 ^ 32) :
    Fits value := by
  cases value with
  | nil => trivial
  | err code msg =>
      simp only [encoded, List.cons_append, List.length_cons, List.length_append] at short
      exact ⟨ranged.1, ranged.2, by omega⟩
  | str val =>
      simp only [encoded, List.cons_append, List.length_cons, List.length_append] at short
      simp only [Fits]
      omega
  | int val => exact ranged
  | dbl val => trivial
  | arr items =>
      simp only [encoded, List.cons_append, List.length_cons, List.length_append] at short
      have few := length_le_encodedAll items
      exact ⟨by omega, fitsAll_of_short ranged (by omega)⟩

theorem fitsAll_of_short {items : List Value} (ranged : RangedAll items)
    (short : (encodedAll items).length < 2 ^ 32) : FitsAll items := by
  cases items with
  | nil => trivial
  | cons item items =>
      simp only [encodedAll, List.length_append] at short
      exact ⟨fits_of_short ranged.1 (by omega), fitsAll_of_short ranged.2 (by omega)⟩

end

end Value

end Coxx.Common
