import Coxx.Client.Client
import Coxx.Common.Parsing
import Coxx.Common.Responses

/-! What the client sends is one frame that the server reads back as the same command. -/

set_option autoImplicit false

namespace Coxx.Client

open Library Common

/-! ### The buffer -/

theorem totalLength_eq {commands : List Bytes} (narrow : (encodedCommand commands).length < 2 ^ 32) :
    totalLength commands = (encodedCommand commands).length := by
  have sum (commands : List Bytes) (start : Nat) (narrow : start + (encodedArgs commands).length < 2 ^ 32) :
      commands.foldl (fun messageLength s => (messageLength + (4 + s.length)) % 2 ^ 32) start =
        start + (encodedArgs commands).length := by
    induction commands generalizing start with
    | nil => rfl
    | cons s commands ih =>
        simp only [encodedArgs_cons, List.length_append, length_encode] at narrow ⊢
        rw [List.foldl_cons, Nat.mod_eq_of_lt (by omega), ih _ (by omega)]
        omega
  rw [length_encodedCommand, ← length_encodedArgs] at narrow ⊢
  exact sum commands 4 narrow

theorem copyStrings_front {commands : List Bytes} {writeBuffer : Buffer} {current : Nat}
    (inside : current + (encodedArgs commands).length ≤ 4 + MAX_MESSAGE_SIZE) :
    ∃ buffer, copyStrings writeBuffer current commands = .ok buffer ∧
      buffer.bytes.take (current + (encodedArgs commands).length) =
        writeBuffer.bytes.take current ++ encodedArgs commands := by
  induction commands generalizing writeBuffer current with
  | nil => exact ⟨writeBuffer, rfl, by simp [encodedArgs]⟩
  | cons s commands ih =>
      simp only [encodedArgs_cons, List.length_append, length_encode] at inside ⊢
      obtain ⟨buffer1, stored1, front1⟩ := @Buffer.store_front writeBuffer current (encode 4 s.length)
        (by rw [length_encode]; omega)
      obtain ⟨buffer2, stored2, front2⟩ := @Buffer.store_front buffer1 (current + 4) s (by omega)
      obtain ⟨buffer3, copies, front3⟩ := @ih buffer2 (current + 4 + s.length) (by omega)
      rw [length_encode] at front1
      refine ⟨buffer3, ?_, ?_⟩
      · unfold copyStrings
        simp only [stored1, stored2, bind, Except.bind]
        exact copies
      · rw [← Nat.add_assoc, ← Nat.add_assoc, front3, front2, front1, List.append_assoc, List.append_assoc]

theorem copied_front {n messageLength : Nat} (behind : Nat → UInt8) (long : 4 ≤ messageLength) :
    (copied n behind messageLength).length = messageLength ∧ (copied n behind messageLength).take 4 = encode 4 n := by
  constructor
  · rw [copied, List.length_take, List.length_append, length_encode, List.length_map, List.length_range]
    omega
  · rw [copied, List.take_take, Nat.min_eq_left long, List.take_left' (length_encode _ _)]

/-- The bytes that are handed to `writeAll` are the frame of the command: no stray byte is left. -/
theorem sendRequest_eq {chan : Channel} {behind : Nat → UInt8} {commands : List Bytes}
    (narrow : (encodedCommand commands).length < 2 ^ 32) (accepted : totalLength commands ≤ MAX_MESSAGE_SIZE) :
    sendRequest chan behind commands =
      .ok (Socket.writeFrom (frame (encodedCommand commands)).length chan (frame (encodedCommand commands))) := by
  have total := totalLength_eq narrow
  have size : (encodedCommand commands).length = 4 + (encodedArgs commands).length := by
    rw [length_encodedCommand, ← length_encodedArgs]
  obtain ⟨copiedLength, copiedFront⟩ := @copied_front commands.length _ behind
    (show 4 ≤ (encodedCommand commands).length by omega)
  obtain ⟨buffer1, stored1, front1⟩ := @Buffer.store_front Buffer.zeros 0 (encode 4 (encodedCommand commands).length)
    (by rw [length_encode]; decide)
  obtain ⟨buffer2, stored2, front2⟩ := @Buffer.store_front buffer1 4
    (copied commands.length behind (encodedCommand commands).length) (by omega)
  obtain ⟨buffer3, copies, front3⟩ := @copyStrings_front commands buffer2 8 (by omega)
  rw [length_encode, Nat.zero_add, List.take_zero, List.nil_append] at front1
  have header : buffer2.bytes.take 8 = encode 4 (encodedCommand commands).length ++ encode 4 commands.length := by
    have := congrArg (List.take 8) front2
    rw [List.take_take, Nat.min_eq_left (by omega), front1, List.take_append, length_encode, copiedFront] at this
    rw [this, List.take_of_length_le (by rw [length_encode]; omega)]
  have whole : buffer3.bytes.take (4 + (encodedCommand commands).length) = frame (encodedCommand commands) := by
    rw [size, ← Nat.add_assoc, front3, header, frame, encodedCommand, List.append_assoc]
  unfold sendRequest
  rw [total, if_neg (by omega)]
  simp only [stored1, stored2, copies, bind, Except.bind]
  unfold Socket.writeAll
  rw [length_frame, List.take_append_of_le_length (by rw [buffer3.sized]; omega), whole]

/-! ### The server -/

/-- What one call of `tryOneRequest` does for a session that has the whole command. -/
def Answers {σ : Type} (request : Executor σ) (s : Session σ) (commands : List Bytes) (more : Bytes) : Prop :=
  match request s.db commands with
  | none => s.tryOneRequest request = .error .command
  | some (_, output) =>
    ∃ s', s.tryOneRequest request = .ok (s'.conn.state == .REQ, s') ∧
      Session.Served request s ⟨commands, output⟩ s' ∧ s'.conn.pending = more

/-- The client sends one frame, up to an error of the descriptor, and the server executes it as the same command. -/
theorem request_round_trip (chan : Channel) (behind : Nat → UInt8) (commands : List Bytes)
    (narrow : 4 + (commands.map fun s => 4 + s.length).sum < 2 ^ 32)
    (accepted : totalLength commands ≤ MAX_MESSAGE_SIZE) :
    ∃ body,
      (∃ code chan' sent, sendRequest chan behind commands = .ok (code, chan') ∧
        chan'.written = chan.written ++ sent ∧ sent <+: frame body ∧
        (code = 0 ∧ sent = frame body ∨ code = -1 ∧ ¬Steady chan.writes)) ∧
      (frame body).length ≤ Buffer.zeros.capacity ∧
      Request.parse body body.length = some commands ∧ commands.length ≤ MAX_NUM_ARGS ∧
      (∀ more, nextFrame (frame body ++ more) = .item commands more) ∧
      ∀ {σ : Type} (request : Executor σ) (s : Session σ) (more : Bytes), s.conn.Sound → s.conn.state = .REQ →
        s.conn.pending = frame body ++ more → Answers request s commands more := by
  rw [← length_encodedCommand] at narrow
  have total := totalLength_eq narrow
  have few := length_le_args (total ▸ accepted)
  have short : ∀ s ∈ commands, ¬Wraps s := by
    intro s member
    have part := length_arg member
    rw [length_encodedCommand, ← length_encodedArgs] at narrow
    unfold Wraps
    omega
  have parsed := parse_complete few short
  have found := nextFrame_encoded (total ▸ accepted) parsed
  refine ⟨encodedCommand commands, ?_, ?_, parsed, few, found, ?_⟩
  · rw [sendRequest_eq narrow accepted]
    obtain ⟨code, chan', sent, wrote, written, start, _, outcome⟩ :=
      @writeFrom_spec (frame (encodedCommand commands)).length chan _ (le_refl _)
    exact ⟨code, chan', sent, congrArg _ wrote, written, start, outcome⟩
  · rw [length_frame, Buffer.capacity]
    omega
  · intro σ request s more sound idle pending
    have step := @Session.tryOneRequest_eq _ request s sound idle
    rw [pending, found more] at step
    exact step

theorem request_round_trip_nul : ∃ body, Request.parse body body.length = some [[103], [], [0]] ∧
    nextFrame (frame body ++ [7]) = .item [[103], [], [0]] [7] := by
  obtain ⟨body, _, _, parsed, _, found, _⟩ :=
    request_round_trip ⟨[], false, [], [], [], [], none⟩ (fun _ => 255) [[103], [], [0]] (by decide) (by decide)
  exact ⟨body, parsed, found [7]⟩

end Coxx.Client
