import Coxx.Common.Connection

/-! What every call of `io` keeps, whatever happens in it, and what leaves a connection in RES. -/

set_option autoImplicit false

namespace Coxx.Common

open Library

namespace Channel

theorem take_writes (chan : Channel) (size : Nat) : (chan.take size).2.2.writes = chan.writes := by
  unfold take
  split <;> rfl

theorem read_writes (chan : Channel) (size : Nat) : (chan.read size).2.2.writes = chan.writes := by
  unfold read
  split
  · exact take_writes _ _
  · exact take_writes _ _
  · rfl

theorem readAgain_writes (fuel : Nat) (chan : Channel) (size : Nat) :
    (chan.readAgain fuel size).2.2.writes = chan.writes := by
  induction fuel generalizing chan with
  | zero => exact read_writes chan size
  | succ fuel ih =>
      unfold readAgain
      have once := read_writes chan size
      split
      · rename_i result
        rw [result] at once
        exact (ih _).trans once
      · exact once

/-- The answers to writes are used up in order. An answer EAGAIN is one of them. -/
structure Wrote (chan : Channel) (result : Answer × Channel) : Prop where
  later : result.2.writes <:+ chan.writes
  again : result.1 = .EAGAIN → .EAGAIN ∈ chan.writes

theorem write_wrote (chan : Channel) (data : Bytes) : chan.Wrote (chan.write data) := by
  unfold write
  split
  · exact ⟨List.suffix_refl _, nofun⟩
  · rename_i count rest next
    exact ⟨next ▸ List.suffix_cons _ _, nofun⟩
  · rename_i answer rest next
    refine ⟨next ▸ List.suffix_cons _ _, ?_⟩
    rintro rfl
    rw [next]
    exact List.mem_cons_self

theorem writeAgain_wrote (fuel : Nat) (chan : Channel) (data : Bytes) : chan.Wrote (chan.writeAgain fuel data) := by
  induction fuel generalizing chan with
  | zero => exact write_wrote chan data
  | succ fuel ih =>
      unfold writeAgain
      have once := write_wrote chan data
      split
      · rename_i result
        rw [result] at once
        exact ⟨(ih _).later.trans once.later, fun again => once.later.mem ((ih _).again again)⟩
      · exact once

end Channel

theorem ok_of_bind {α β : Type} {call : Except Fault α} {next : α → Except Fault β} {result : β}
    (done : (call >>= next) = .ok result) : ∃ mid, call = .ok mid ∧ next mid = .ok result := by
  cases call with
  | ok mid => exact ⟨mid, rfl, done⟩
  | error fault => cases done

namespace Session

variable {σ : Type} {request : Executor σ} {s s' s'' : Session σ} {again : Bool}

structure Carries (s s' : Session σ) : Prop where
  fd : s'.conn.fd = s.conn.fd
  later : s'.chan.writes <:+ s.chan.writes

theorem Carries.trans (first : Carries s s') (second : Carries s' s'') : Carries s s'' :=
  ⟨second.fd.trans first.fd, second.later.trans first.later⟩

/-- A reply is left only by a write that was answered EAGAIN. -/
structure Answered (s s' : Session σ) : Prop extends Carries s s' where
  blocked : s'.conn.state = .RES → .EAGAIN ∈ s.chan.writes

theorem Carries.answered (first : Carries s s') (second : Answered s' s'') : Answered s s'' where
  toCarries := first.trans second.toCarries
  blocked state := first.later.mem (second.blocked state)

theorem tryFlushBuffer_carries (result : s.tryFlushBuffer = .ok (again, s')) :
    Carries s s' ∧ (again = false → Answered s s') := by
  unfold tryFlushBuffer at result
  obtain ⟨_, _, result⟩ := ok_of_bind result
  obtain ⟨data, _, result⟩ := ok_of_bind result
  have wrote := Channel.writeAgain_wrote s.chan.writes.length s.chan data
  split at result
  · rename_i count chan answered
    rw [answered] at wrote
    simp only at result
    split at result
    · cases result
    · split at result
      · cases result
        exact ⟨⟨rfl, wrote.later⟩, fun _ => ⟨⟨rfl, wrote.later⟩, nofun⟩⟩
      · cases result
        exact ⟨⟨rfl, wrote.later⟩, nofun⟩
  · rename_i chan answered
    rw [answered] at wrote
    cases result
    exact ⟨⟨rfl, wrote.later⟩, fun _ => ⟨⟨rfl, wrote.later⟩, fun _ => wrote.again rfl⟩⟩
  · rename_i chan answered
    rw [answered] at wrote
    cases result
    exact ⟨⟨rfl, wrote.later⟩, fun _ => ⟨⟨rfl, wrote.later⟩, nofun⟩⟩

theorem flushLoop_answered {fuel : Nat} (result : s.flushLoop fuel = .ok s') : Answered s s' := by
  rw [flushLoop_doWhile] at result
  refine @doWhile_ok _ _ _ _ _ s (fun _ => True) Answered ?_ ?_ trivial s' result
  · intro s s' _ flushed
    exact (tryFlushBuffer_carries flushed).2 rfl
  · intro s s' _ flushed
    exact ⟨trivial, fun final later => (tryFlushBuffer_carries flushed).1.answered later⟩

theorem respond_answered {commandList : List Bytes} {messageLength : Nat}
    (result : s.respond request commandList messageLength = .ok s') : Answered s s' := by
  unfold respond at result
  split at result
  · cases result
  · obtain ⟨_, _, result⟩ := ok_of_bind result
    obtain ⟨_, _, result⟩ := ok_of_bind result
    obtain ⟨_, _, result⟩ := ok_of_bind result
    obtain ⟨_, _, result⟩ := ok_of_bind result
    have answered := flushLoop_answered result
    exact ⟨⟨answered.fd, answered.later⟩, answered.blocked⟩

theorem tryOneRequest_answered (idle : s.conn.state = .REQ) (result : s.tryOneRequest request = .ok (again, s')) :
    Answered s s' ∧ (again = true → s'.conn.state = .REQ) := by
  have stays : Answered s s := ⟨⟨rfl, List.suffix_refl _⟩, fun busy => by rw [idle] at busy; cases busy⟩
  have ends : Answered s (s.setState .END) := ⟨⟨rfl, List.suffix_refl _⟩, nofun⟩
  unfold tryOneRequest at result
  split at result
  · cases result
    exact ⟨stays, nofun⟩
  · obtain ⟨_, _, result⟩ := ok_of_bind result
    simp only at result
    split at result
    · cases result
      exact ⟨ends, nofun⟩
    · split at result
      · cases result
        exact ⟨stays, nofun⟩
      · obtain ⟨_, _, result⟩ := ok_of_bind result
        split at result
        · cases result
          exact ⟨ends, nofun⟩
        · obtain ⟨_, responded, result⟩ := ok_of_bind result
          cases result
          exact ⟨respond_answered responded, by simp⟩

theorem requestLoop_answered {fuel : Nat} (idle : s.conn.state = .REQ) (result : s.requestLoop request fuel = .ok s') :
    Answered s s' := by
  rw [requestLoop_doWhile] at result
  refine @doWhile_ok _ _ _ _ _ s (fun s => s.conn.state = .REQ) Answered ?_ ?_ idle s' result
  · intro s s' idle tried
    exact (tryOneRequest_answered idle tried).1
  · intro s s' idle tried
    obtain ⟨answered, goesOn⟩ := tryOneRequest_answered idle tried
    exact ⟨goesOn rfl, fun final later => answered.toCarries.answered later⟩

theorem tryFillBuffer_answered (idle : s.conn.state = .REQ) (result : s.tryFillBuffer request = .ok (again, s')) :
    Answered s s' ∧ (again = true → s'.conn.state = .REQ) := by
  unfold tryFillBuffer at result
  simp only at result
  split at result
  · cases result
  obtain ⟨capacity, _, result⟩ := ok_of_bind result
  have writes := Channel.readAgain_writes s.chan.reads.length s.chan capacity
  split at result
  · rename_i chan taken
    rw [taken] at writes
    cases result
    exact ⟨⟨⟨rfl, writes ▸ List.suffix_refl _⟩, nofun⟩, nofun⟩
  · rename_i count data chan _ taken
    rw [taken] at writes
    obtain ⟨_, _, result⟩ := ok_of_bind result
    split at result
    · cases result
    · obtain ⟨_, looped, result⟩ := ok_of_bind result
      have answered := requestLoop_answered (by exact idle) looped
      cases result
      refine ⟨⟨⟨answered.fd, ?_⟩, fun busy => ?_⟩, by simp⟩
      · rw [← writes]
        exact answered.later
      · rw [← writes]
        exact answered.blocked busy
  · rename_i chan taken
    rw [taken] at writes
    cases result
    exact ⟨⟨⟨rfl, writes ▸ List.suffix_refl _⟩, fun busy => by rw [idle] at busy; cases busy⟩, nofun⟩
  · rename_i chan taken
    rw [taken] at writes
    cases result
    exact ⟨⟨⟨rfl, writes ▸ List.suffix_refl _⟩, nofun⟩, nofun⟩

theorem fillLoop_answered {fuel : Nat} (idle : s.conn.state = .REQ) (result : s.fillLoop request fuel = .ok s') :
    Answered s s' := by
  rw [fillLoop_doWhile] at result
  refine @doWhile_ok _ _ _ _ _ s (fun s => s.conn.state = .REQ) Answered ?_ ?_ idle s' result
  · intro s s' idle tried
    exact (tryFillBuffer_answered idle tried).1
  · intro s s' idle tried
    obtain ⟨answered, goesOn⟩ := tryFillBuffer_answered idle tried
    exact ⟨goesOn rfl, fun final later => answered.toCarries.answered later⟩

/-- A call of `io` keeps its descriptor, and leaves a reply only when a write was answered EAGAIN. -/
theorem io_answered (result : s.io request = .ok s') : Answered s s' := by
  unfold io at result
  split at result
  · rename_i idle
    exact fillLoop_answered idle result
  · exact flushLoop_answered result
  · cases result

end Session

end Coxx.Common
