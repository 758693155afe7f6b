import Mathlib.Logic.Basic

/-! Loops whose body says whether there is another round.

The number of rounds is bounded by a fuel. It is never spent when something gets smaller with every round.
-/

set_option autoImplicit false

namespace Coxx.Library

/-- The first round and `fuel` more. -/
def doWhile {σ ε : Type} (body : σ → Except ε (Bool × σ)) (spent : ε) (fuel : Nat) (s : σ) : Except ε σ := do
  let (again, s) ← body s
  if again then
    match fuel with
    | 0 => .error spent
    | fuel + 1 => doWhile body spent fuel s
  else .ok s

section Rules

variable {σ ε : Type} {body : σ → Except ε (Bool × σ)} {spent : ε} {fuel : Nat} {s : σ}

/-- The first round fails, or it is the last one, or the loop goes on with less fuel. -/
inductive Rounds (body : σ → Except ε (Bool × σ)) (spent : ε) (s : σ) : Nat → Except ε σ → Prop where
  | failed {fuel : Nat} {reason : ε} (round : body s = .error reason) : Rounds body spent s fuel (.error reason)
  | last {fuel : Nat} {s' : σ} (round : body s = .ok (false, s')) : Rounds body spent s fuel (.ok s')
  | spent {s' : σ} (round : body s = .ok (true, s')) : Rounds body spent s 0 (.error spent)
  | again {fuel : Nat} {s' : σ} (round : body s = .ok (true, s')) :
      Rounds body spent s (fuel + 1) (doWhile body spent fuel s')

theorem doWhile_rounds : Rounds body spent s fuel (doWhile body spent fuel s) := by
  rw [doWhile.eq_def]
  cases round : body s with
  | error reason => exact .failed round
  | ok next =>
      obtain ⟨more, s'⟩ := next
      cases more with
      | false => exact .last round
      | true =>
          cases fuel with
          | zero => exact .spent round
          | succ fuel => exact .again round

/-- What a round has to show: the last one what the whole loop has to, any other that it brings the loop closer. -/
def Advances (inv : σ → Prop) (size : σ → Nat) (post : σ → Except ε σ → Prop) (s : σ) : Except ε (Bool × σ) → Prop
  | .error reason => post s (.error reason)
  | .ok (false, s') => post s (.ok s')
  | .ok (true, s') => inv s' ∧ size s' < size s ∧ ∀ result, post s' result → post s result

theorem doWhile_total {inv : σ → Prop} {size : σ → Nat} {post : σ → Except ε σ → Prop}
    (advances : ∀ s, inv s → Advances inv size post s (body s)) (start : inv s) (enough : size s ≤ fuel) :
    post s (doWhile body spent fuel s) := by
  induction fuel generalizing s with
  | zero =>
      have step := advances s start
      have rounds := @doWhile_rounds _ _ body spent 0 s
      generalize doWhile body spent 0 s = result at rounds
      cases rounds with
      | failed round =>
          rw [round] at step
          exact step
      | last round =>
          rw [round] at step
          exact step
      | spent round =>
          rw [round] at step
          have smaller := step.2.1
          omega
  | succ fuel ih =>
      have step := advances s start
      have rounds := @doWhile_rounds _ _ body spent (fuel + 1) s
      generalize doWhile body spent (fuel + 1) s = result at rounds
      cases rounds with
      | failed round =>
          rw [round] at step
          exact step
      | last round =>
          rw [round] at step
          exact step
      | again round =>
          rw [round] at step
          obtain ⟨kept, smaller, later⟩ := step
          exact later _ (ih kept (by omega))

theorem doWhile_ok {inv : σ → Prop} {post : σ → σ → Prop}
    (last : ∀ s s', inv s → body s = .ok (false, s') → post s s')
    (again : ∀ s s', inv s → body s = .ok (true, s') → inv s' ∧ ∀ final, post s' final → post s final)
    (start : inv s) {final : σ} (result : doWhile body spent fuel s = .ok final) : post s final := by
  induction fuel generalizing s with
  | zero =>
      have rounds := @doWhile_rounds _ _ body spent 0 s
      generalize doWhile body spent 0 s = outcome at rounds result
      cases rounds with
      | failed round => cases result
      | last round =>
          cases result
          exact last s _ start round
      | spent round => cases result
  | succ fuel ih =>
      have rounds := @doWhile_rounds _ _ body spent (fuel + 1) s
      generalize doWhile body spent (fuel + 1) s = outcome at rounds result
      cases rounds with
      | failed round => cases result
      | last round =>
          cases result
          exact last s _ start round
      | again round =>
          obtain ⟨kept, later⟩ := again s _ start round
          exact later final (ih kept result)

end Rules

end Coxx.Library
