import Coxx.Bytes
import Coxx.Double

/-! The number conversions of common/req.cxx, with strtod and strtol of the C library
in its default locale. Both return the value and where the number ends in the text. -/

set_option autoImplicit false

namespace Coxx.Common

def isSpace (c : UInt8) : Bool := c = 32 || (9 ≤ c && c ≤ 13)

def toLower (c : UInt8) : UInt8 := if 65 ≤ c && c ≤ 90 then c + 32 else c

def digit (base : Nat) (c : UInt8) : Option Nat :=
  let c := (toLower c).toNat
  let value := if 48 ≤ c ∧ c ≤ 57 then c - 48 else if 97 ≤ c ∧ c ≤ 122 then c - 87 else 36
  if value < base then some value else none

def digits (base : Nat) : Bytes → List Nat × Bytes
  | [] => ([], [])
  | c :: rest =>
    match digit base c with
    | none => ([], c :: rest)
    | some value => (value :: (digits base rest).1, (digits base rest).2)

def ofDigits (base : Nat) (values : List Nat) : Nat := values.foldl (fun total value => total * base + value) 0

/-- An optional sign; true for minus. -/
def sign : Bytes → Bool × Bytes
  | 45 :: rest => (true, rest)
  | 43 :: rest => (false, rest)
  | text => (false, text)

def startsWith (text : Bytes) (letters : String) : Bool :=
  (text.take letters.length).map toLower = letters.toList.map fun c => UInt8.ofNat c.toNat

/-! ### strtol -/

def strtol (text : Bytes) : Int × Nat :=
  let (minus, rest) := sign (text.dropWhile isSpace)
  match digits 10 rest with
  | ([], _) => (0, 0)
  | (values, rest) =>
    let value : Int := if minus then -(ofDigits 10 values : Int) else ofDigits 10 values
    (max (-2 ^ 63) (min (2 ^ 63 - 1) value), text.length - rest.length)

/-! ### strtod -/

def infinity : Nat := 2047 * 2 ^ 52
def notANumber : Nat := 2047 * 2 ^ 52 + 2 ^ 51

/-- The largest power of two, as an exponent, that is not above a positive fraction. -/
def exponentOf (num den : Nat) : Int :=
  let guess : Int := num.log2 - den.log2
  if den * 2 ^ guess.toNat ≤ num * 2 ^ (-guess).toNat then guess else guess - 1

/-- Round to nearest, ties to even. -/
def roundDiv (num den : Nat) : Nat :=
  let quotient := num / den
  let rest := num % den
  if den < 2 * rest ∨ (den = 2 * rest ∧ quotient % 2 = 1) then quotient + 1 else quotient

/-- The 63 low bits of the double nearest to a fraction. -/
def roundToDouble (num den : Nat) : Nat :=
  if num = 0 then 0
  else
    let scale := max (-1074) (exponentOf num den - 52)
    let significand := roundDiv (num * 2 ^ (-scale).toNat) (den * 2 ^ scale.toNat)
    min infinity ((scale + 1074).toNat * 2 ^ 52 + significand)

/-- The exponent part after a mantissa: its value, and what follows it. -/
def exponentPart (mark : UInt8) (text : Bytes) : Int × Bytes :=
  match text with
  | [] => (0, [])
  | c :: rest =>
    if toLower c = mark then
      let (minus, rest) := sign rest
      match digits 10 rest with
      | ([], _) => (0, text)
      | (values, rest) => (if minus then -(ofDigits 10 values : Int) else ofDigits 10 values, rest)
    else (0, text)

/-- Digits with an optional point and an optional exponent; a digit of the fraction divides by `weight ^ step`. -/
def mantissa (base weight step : Nat) (mark : UInt8) (text : Bytes) : Option (Nat × Bytes) :=
  let (whole, rest) := digits base text
  let (fraction, rest) := match rest with
    | 46 :: tail => if whole = [] ∧ (digits base tail).1 = [] then ([], rest) else digits base tail
    | _ => ([], rest)
  if whole = [] ∧ fraction = [] then none
  else
    let (exponent, rest) := exponentPart mark rest
    let power := exponent - step * fraction.length
    let value := ofDigits base (whole ++ fraction)
    some (roundToDouble (value * weight ^ power.toNat) (weight ^ (-power).toNat), rest)

def isWordChar (c : UInt8) : Bool := (digit 36 c).isSome || c = 95

/-- `nan`, with an optional parenthesized word. -/
def afterNaN (rest : Bytes) : Bytes :=
  match rest with
  | 40 :: inner =>
    match inner.dropWhile isWordChar with
    | 41 :: tail => tail
    | _ => rest
  | _ => rest

def magnitude (text : Bytes) : Option (Nat × Bytes) :=
  if startsWith text "infinity" then some (infinity, text.drop 8)
  else if startsWith text "inf" then some (infinity, text.drop 3)
  else if startsWith text "nan" then some (notANumber, afterNaN (text.drop 3))
  else if startsWith text "0x" then
    match mantissa 16 2 4 112 (text.drop 2) with
    | some number => some number
    | none => some (0, text.drop 1)
  else mantissa 10 10 1 101 text

def strtod (text : Bytes) : Double × Nat :=
  let (minus, rest) := sign (text.dropWhile isSpace)
  match magnitude rest with
  | none => (⟨0⟩, 0)
  | some (bits, rest) => (⟨BitVec.ofNat 64 (bits + if minus then 2 ^ 63 else 0)⟩, text.length - rest.length)

/-! ### The conversions of req.cxx -/

/-- None when the conversion is refused. -/
def strToDouble (s : Bytes) : Option Double :=
  let (output, endPtr) := strtod (cString s)
  if endPtr = s.length ∧ output.isNaN = false then some output else none

def strToInt (s : Bytes) : Option Int :=
  let (output, endPtr) := strtol (cString s)
  if endPtr = s.length then some output else none

theorem strToDouble_number {s : Bytes} {score : Double} (result : strToDouble s = some score) :
    score.isNaN = false := by
  simp only [strToDouble] at result
  split at result
  · rename_i accepted
    cases result
    exact accepted.2
  · cases result

end Coxx.Common
