import Mathlib.Data.List.Lex
import Mathlib.Data.List.TakeWhile
import Mathlib.Data.Nat.Basic

/-! Byte strings: std::string objects with what lies behind them, and memcmp. -/

set_option autoImplicit false

namespace Coxx

abbrev Bytes := List UInt8

/-- What a read past the last byte of a string finds. In memory the terminator comes first, then bytes
that may not be readable; a guarded string faults at once. -/
inductive Tail where
  | guarded
  | memory (beyond : Nat → Option UInt8)

def Tail.read : Tail → Nat → Option UInt8
  | .guarded, _ => none
  | .memory _, 0 => some 0
  | .memory beyond, offset + 1 => beyond offset

structure CxxString where
  bytes : Bytes
  tail : Tail

def Tail.block (tail : Tail) (offset : Nat) : Nat → Option Bytes
  | 0 => some []
  | size + 1 => do
    let first ← tail.read offset
    let rest ← tail.block (offset + 1) size
    some (first :: rest)

/-- The first bytes from `data()` on; none when one of them cannot be read. -/
def CxxString.read (s : CxxString) (size : Nat) : Option Bytes :=
  if size ≤ s.bytes.length then some (s.bytes.take size)
  else (s.tail.block 0 (size - s.bytes.length)).map fun rest => s.bytes ++ rest

/-- The string that a `const char *` parameter makes out of `data()`: it ends at the first NUL byte. -/
def cString (bytes : Bytes) : Bytes := bytes.takeWhile (· ≠ 0)

/-- The sign of memcmp, on blocks of one size. -/
def memcmp : Bytes → Bytes → Ordering
  | x :: xs, y :: ys => if x < y then .lt else if y < x then .gt else memcmp xs ys
  | _, _ => .eq

theorem CxxString.read_of_le {s : CxxString} {size : Nat} (inside : size ≤ s.bytes.length) :
    s.read size = some (s.bytes.take size) :=
  if_pos inside

theorem CxxString.read_tail {bytes : Bytes} {size : Nat} (inside : size ≤ bytes.length) (tail tail' : Tail) :
    CxxString.read ⟨bytes, tail⟩ size = CxxString.read ⟨bytes, tail'⟩ size := by
  rw [read_of_le inside, read_of_le inside]

@[simp] theorem CxxString.read_length (s : CxxString) : s.read s.bytes.length = some s.bytes := by
  rw [read_of_le (le_refl _), List.take_length]

theorem Tail.length_block {tail : Tail} {offset size : Nat} {block : Bytes}
    (result : tail.block offset size = some block) : block.length = size := by
  induction size generalizing offset block with
  | zero => cases result; rfl
  | succ size ih =>
      simp only [Tail.block, Option.bind_eq_bind, Option.bind_eq_some_iff] at result
      obtain ⟨first, _, rest, more, same⟩ := result
      cases same
      rw [List.length_cons, ih more]

theorem CxxString.length_read {s : CxxString} {size : Nat} {block : Bytes} (result : s.read size = some block) :
    block.length = size := by
  unfold read at result
  split at result
  · cases result
    simp only [List.length_take]
    omega
  · obtain ⟨rest, found, rfl⟩ := Option.map_eq_some_iff.mp result
    have := Tail.length_block found
    simp only [List.length_append]
    omega

theorem CxxString.read_guarded {bytes : Bytes} {size : Nat} (far : bytes.length < size) :
    CxxString.read ⟨bytes, .guarded⟩ size = none := by
  obtain ⟨rest, more⟩ : ∃ rest, size - bytes.length = rest + 1 := ⟨size - bytes.length - 1, by omega⟩
  rw [read, if_neg (by simpa using far), more]
  rfl

theorem CxxString.terminator_mem {bytes block : Bytes} {beyond : Nat → Option UInt8} {size : Nat}
    (far : bytes.length < size) (result : CxxString.read ⟨bytes, .memory beyond⟩ size = some block) :
    0 ∈ block := by
  obtain ⟨rest, more⟩ : ∃ rest, size - bytes.length = rest + 1 := ⟨size - bytes.length - 1, by omega⟩
  rw [read, if_neg (by simpa using far), more] at result
  obtain ⟨block, found, rfl⟩ := Option.map_eq_some_iff.mp result
  simp only [Tail.block, Tail.read, Option.bind_eq_bind, Option.bind_some, Option.bind_eq_some_iff] at found
  obtain ⟨_, _, same⟩ := found
  cases same
  simp

theorem cString_eq {bytes : Bytes} (clean : 0 ∉ bytes) : cString bytes = bytes := by
  rw [cString, List.takeWhile_eq_self_iff]
  intro x member
  have : x ≠ 0 := fun same => clean (same ▸ member)
  simpa using this

theorem length_cString_lt {bytes : Bytes} (nul : 0 ∈ bytes) : (cString bytes).length < bytes.length := by
  induction bytes with
  | nil => simp at nul
  | cons x xs ih =>
      by_cases same : x = 0
      · simp [cString, same]
      · have inside : 0 ∈ xs := by
          rcases List.mem_cons.mp nul with wrong | inside
          · exact absurd wrong.symm same
          · exact inside
        have := ih inside
        simpa [cString, same] using this

/-! ### The order of byte strings -/

/-- Byte strings compare lexicographically, a proper prefix first. -/
def word (bytes : Bytes) : List Nat := bytes.map UInt8.toNat

theorem word_injective : Function.Injective word :=
  List.map_injective_iff.mpr fun _ _ same => UInt8.toNat_inj.mp same

theorem memcmp_cons (x y : UInt8) (xs ys : Bytes) :
    memcmp (x :: xs) (y :: ys) =
      if x.toNat < y.toNat then .lt else if y.toNat < x.toNat then .gt else memcmp xs ys := rfl

theorem memcmp_eq_iff {xs ys : Bytes} (same : xs.length = ys.length) : memcmp xs ys = .eq ↔ xs = ys := by
  induction xs generalizing ys with
  | nil =>
      cases ys with
      | nil => simp [memcmp]
      | cons y ys => simp at same
  | cons x xs ih =>
      cases ys with
      | nil => simp at same
      | cons y ys =>
          simp only [List.length_cons, Nat.succ.injEq] at same
          rw [memcmp_cons, List.cons.injEq, ← UInt8.toNat_inj]
          split
          · simp; omega
          · split
            · simp; omega
            · rw [ih same]
              exact ⟨fun equal => ⟨by omega, equal⟩, fun both => both.2⟩

theorem memcmp_take (xs ys : Bytes) :
    match memcmp (xs.take (min xs.length ys.length)) (ys.take (min xs.length ys.length)) with
    | .lt => word xs < word ys
    | .gt => word ys < word xs
    | .eq => xs.length < ys.length ↔ word xs < word ys := by
  induction xs generalizing ys with
  | nil =>
      cases ys with
      | nil => simp [memcmp]
      | cons y ys => simp [memcmp, word]
  | cons x xs ih =>
      cases ys with
      | nil => simp [memcmp, word]
      | cons y ys =>
          have below := ih ys
          simp only [List.length_cons, Nat.succ_min_succ, List.take_succ_cons, memcmp_cons, word, List.map_cons,
            List.cons_lt_cons_iff, Nat.succ_lt_succ_iff]
          by_cases low : x.toNat < y.toNat
          · simp [low]
          · by_cases high : y.toNat < x.toNat
            · simp [low, high]
            · have same : x.toNat = y.toNat := by omega
              simp only [same, lt_irrefl, if_false, false_or, true_and]
              exact below

end Coxx
