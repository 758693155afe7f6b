import Mathlib.Logic.Basic

/-! Loops as partial functions of a fuel, and the number of rounds that they need. -/

set_option autoImplicit false

namespace Coxx.Library

variable {β : Type}

def Fueled (call : Nat → Option β) : Prop := ∀ fuel result, call fuel = some result → call (fuel + 1) = some result

def Within (rounds : Nat) (call : Nat → Option β) : Prop := ∃ result, ∀ fuel, rounds ≤ fuel → call fuel = some result

theorem Fueled.mono {call : Nat → Option β} (fueled : Fueled call) {fuel more : Nat} {result : β} (le : fuel ≤ more)
    (done : call fuel = some result) : call more = some result := by
  induction le with
  | refl => exact done
  | step _ ih => exact fueled _ _ ih

theorem Fueled.within {call : Nat → Option β} (fueled : Fueled call) {rounds : Nat} {result : β}
    (done : call rounds = some result) : Within rounds call :=
  ⟨result, fun _ enough => fueled.mono enough done⟩

theorem Within.mono {call : Nat → Option β} {few many : Nat} (within : Within few call) (le : few ≤ many) :
    Within many call := by
  obtain ⟨result, done⟩ := within
  exact ⟨result, fun fuel enough => done fuel (Nat.le_trans le enough)⟩

structure Takes (rounds : Nat) (call : Nat → Option β) (result : β) : Prop where
  returns : ∀ fuel, rounds ≤ fuel → call fuel = some result
  least : ∀ fuel, fuel < rounds → call fuel = none

theorem Takes.done {call : Nat → Option β} {result : β} (same : ∀ fuel, call fuel = some result) : Takes 0 call result :=
  ⟨fun fuel _ => same fuel, fun _ below => absurd below (Nat.not_lt_zero _)⟩

theorem Takes.again {call rest : Nat → Option β} {rounds : Nat} {result : β} (takes : Takes rounds rest result)
    (spent : call 0 = none) (round : ∀ fuel, call (fuel + 1) = rest fuel) : Takes (rounds + 1) call result where
  returns := by
    intro fuel enough
    cases fuel with
    | zero => exact absurd enough (Nat.not_succ_le_zero _)
    | succ fuel =>
        rw [round]
        exact takes.returns fuel (Nat.le_of_succ_le_succ enough)
  least := by
    intro fuel below
    cases fuel with
    | zero => exact spent
    | succ fuel =>
        rw [round]
        exact takes.least fuel (Nat.lt_of_succ_lt_succ below)

theorem Takes.unique {call : Nat → Option β} {rounds rounds' : Nat} {result result' : β}
    (first : Takes rounds call result) (second : Takes rounds' call result') : rounds = rounds' := by
  rcases Nat.lt_trichotomy rounds rounds' with less | same | more
  · have none := second.least rounds less
    rw [first.returns rounds (Nat.le_refl _)] at none
    cases none
  · exact same
  · have none := first.least rounds' more
    rw [second.returns rounds' (Nat.le_refl _)] at none
    cases none

end Coxx.Library
