import Coxx.Common.Frames
import Coxx.Common.Transfers

/-! What the response loop and one request do to a connection, in terms of the bytes in its buffers. -/

set_option autoImplicit false

namespace Coxx.Common

open Library

/-- The bytes that were read and not taken by a request yet. -/
def Connection.pending (conn : Connection) : Bytes := conn.readBuffer.bytes.take conn.readBufferSize

def Connection.unsent (conn : Connection) : Bytes :=
  (conn.writeBuffer.bytes.drop conn.writeBufferSent).take (conn.writeBufferSize - conn.writeBufferSent)

/-- The counters stay within the buffers and fit the state. -/
structure Connection.Sound (conn : Connection) : Prop where
  sent : conn.writeBufferSent ≤ conn.writeBufferSize
  size : conn.writeBufferSize ≤ MAX_MESSAGE_SIZE
  filled : conn.readBufferSize ≤ 4 + MAX_MESSAGE_SIZE
  idle : conn.state = .REQ → conn.writeBufferSent = 0 ∧ conn.writeBufferSize = 0
  busy : conn.state = .RES → conn.writeBufferSent < conn.writeBufferSize

namespace Connection.Sound

variable {conn : Connection}

theorem length_pending (sound : conn.Sound) : conn.pending.length = conn.readBufferSize := by
  have := sound.filled
  rw [pending, List.length_take, conn.readBuffer.sized]
  omega

theorem length_unsent (sound : conn.Sound) :
    conn.unsent.length = conn.writeBufferSize - conn.writeBufferSent := by
  have := sound.size
  rw [unsent, List.length_take, List.length_drop, conn.writeBuffer.sized]
  omega

theorem unsent_idle (sound : conn.Sound) (state : conn.state = .REQ) : conn.unsent = [] := by
  have idle := sound.idle state
  rw [unsent, idle.1, idle.2]
  simp

end Connection.Sound

theorem Buffer.load_eq {buffer : Buffer} {position size : Nat} (inside : position + size ≤ 4 + MAX_MESSAGE_SIZE) :
    buffer.load position size = .ok ((buffer.bytes.drop position).take size) :=
  if_pos inside

theorem Buffer.store_eq {buffer : Buffer} {position : Nat} {data : Bytes}
    (inside : position + data.length ≤ 4 + MAX_MESSAGE_SIZE) :
    ∃ buffer', buffer.store position data = .ok buffer' ∧
      buffer'.bytes = buffer.bytes.take position ++ data ++ buffer.bytes.drop (position + data.length) :=
  ⟨_, dif_pos inside, rfl⟩

theorem Buffer.store_front {buffer : Buffer} {position : Nat} {data : Bytes}
    (inside : position + data.length ≤ 4 + MAX_MESSAGE_SIZE) :
    ∃ buffer', buffer.store position data = .ok buffer' ∧
      buffer'.bytes.take (position + data.length) = buffer.bytes.take position ++ data := by
  obtain ⟨buffer', stored, bytes⟩ := @store_eq buffer position data inside
  refine ⟨buffer', stored, ?_⟩
  rw [bytes]
  apply List.take_left'
  rw [List.length_append, List.length_take, buffer.sized]
  omega

theorem Buffer.store_framed {buffer : Buffer} {body : Bytes} (inside : 4 + body.length ≤ 4 + MAX_MESSAGE_SIZE) :
    ∃ buffer1 buffer2, buffer.store 0 (encode 4 body.length) = .ok buffer1 ∧ buffer1.store 4 body = .ok buffer2 ∧
      buffer2.bytes.take (4 + body.length) = frame body := by
  obtain ⟨buffer1, stored1, front1⟩ := @store_front buffer 0 (encode 4 body.length) (by rw [length_encode]; omega)
  obtain ⟨buffer2, stored2, front2⟩ := @store_front buffer1 4 body inside
  refine ⟨buffer1, buffer2, stored1, stored2, ?_⟩
  rw [length_encode, Nat.zero_add, List.take_zero, List.nil_append] at front1
  rw [front2, front1]
  rfl

theorem Buffer.move_eq {buffer : Buffer} {position size : Nat} (inside : position + size ≤ 4 + MAX_MESSAGE_SIZE) :
    ∃ buffer', buffer.move position size = .ok buffer' ∧
      buffer'.bytes.take size = (buffer.bytes.drop position).take size := by
  unfold move
  split
  · rename_i none
    exact ⟨buffer, rfl, by simp [none]⟩
  · have long : ((buffer.bytes.drop position).take size).length = size := by
      rw [List.length_take, List.length_drop, buffer.sized]
      omega
    obtain ⟨buffer', stored, bytes⟩ := @store_eq buffer 0 ((buffer.bytes.drop position).take size) (by omega)
    refine ⟨buffer', ?_, ?_⟩
    · rw [load_eq inside]
      exact stored
    · rw [bytes, List.take_zero, List.nil_append]
      exact List.take_left' long

theorem minus_eq {left right : Nat} (below : right ≤ left) : minus left right = .ok (left - right) := if_pos below

namespace Session

variable {σ : Type}

/-- The session after writes that the kernel has accepted this many bytes of, and that ended in this way. -/
def afterFlush (s : Session σ) (result : Nat × FlushEnd × List Answer) : Session σ :=
  let (accepted, ending, writes) := result
  let chan := { s.chan with writes := writes, written := s.chan.written ++ s.conn.unsent.take accepted }
  match ending with
  | .drained =>
    { s with chan := chan, conn.state := .REQ, conn.writeBufferSent := 0, conn.writeBufferSize := 0 }
  | .blocked => { s with chan := chan, conn.writeBufferSent := s.conn.writeBufferSent + accepted }
  | .failed =>
    { s with chan := chan, conn.state := .END, conn.writeBufferSent := s.conn.writeBufferSent + accepted }

def flushed (s : Session σ) : Session σ := s.afterFlush (flush s.conn.unsent.length s.chan.writes)

def afterWrite (s : Session σ) (count : Nat) (writes : List Answer) : Session σ :=
  { s with
    chan := { s.chan with writes := writes, written := s.chan.written ++ s.conn.unsent.take count }
    conn.writeBufferSent := s.conn.writeBufferSent + count }

theorem unsent_afterWrite (s : Session σ) (count : Nat) (writes : List Answer) :
    (s.afterWrite count writes).conn.unsent = s.conn.unsent.drop count := by
  unfold Connection.unsent afterWrite
  rw [List.drop_take, List.drop_drop, Nat.sub_sub]

theorem afterFlush_afterWrite (s : Session σ) (count : Nat) (writes : List Answer)
    (result : Nat × FlushEnd × List Answer) :
    (s.afterWrite count writes).afterFlush result = s.afterFlush (count + result.1, result.2) := by
  obtain ⟨accepted, ending, rest⟩ := result
  have together : s.chan.written ++ s.conn.unsent.take count ++ (s.conn.unsent.drop count).take accepted =
      s.chan.written ++ s.conn.unsent.take (count + accepted) := by
    rw [List.append_assoc, ← List.take_add]
  unfold afterFlush
  simp only [unsent_afterWrite]
  cases ending <;> simp only [afterWrite, together, Nat.add_assoc]

/-- One round of the response loop finishes the flush, or takes an answer and leaves the same flush to do. -/
theorem tryFlushBuffer_step {s : Session σ} (sent : s.conn.writeBufferSent ≤ s.conn.writeBufferSize)
    (size : s.conn.writeBufferSize ≤ 4 + MAX_MESSAGE_SIZE) :
    s.tryFlushBuffer = .ok (false, s.flushed) ∨
    ∃ s', s.tryFlushBuffer = .ok (true, s') ∧ s'.flushed = s.flushed ∧
      s'.chan.writes.length < s.chan.writes.length ∧ s'.conn.writeBufferSent ≤ s'.conn.writeBufferSize ∧
      s'.conn.writeBufferSize ≤ 4 + MAX_MESSAGE_SIZE := by
  have long : s.conn.unsent.length = s.conn.writeBufferSize - s.conn.writeBufferSent := by
    rw [Connection.unsent, List.length_take, List.length_drop, s.conn.writeBuffer.sized]
    omega
  have loaded : s.conn.writeBuffer.load s.conn.writeBufferSent (s.conn.writeBufferSize - s.conn.writeBufferSent) =
      .ok s.conn.unsent := Buffer.load_eq (by omega)
  have put := Channel.writeAgain_put (le_refl s.chan.writes.length) s.conn.unsent
  unfold tryFlushBuffer flushed
  rw [minus_eq sent]
  simp only [bind, Except.bind, loaded]
  generalize s.chan.writeAgain s.chan.writes.length s.conn.unsent = result at put
  cases put with
  | all step =>
      left
      simp only [step]
      rw [if_neg (by omega), if_pos (by omega)]
      simp only [afterFlush, List.take_length]
  | again step =>
      left
      simp [step, afterFlush]
  | error step =>
      left
      simp [step, afterFlush]
  | @some count writes less shorter step =>
      right
      refine ⟨s.afterWrite count writes, ?_, ?_, shorter, ?_, size⟩
      · simp only
        rw [if_neg (by omega), if_neg (by omega)]
        rfl
      · rw [step, afterFlush_afterWrite, unsent_afterWrite, List.length_drop]
        rfl
      · simp only [afterWrite]
        omega

theorem flushLoop_eq {fuel : Nat} {s : Session σ} (sent : s.conn.writeBufferSent ≤ s.conn.writeBufferSize)
    (size : s.conn.writeBufferSize ≤ 4 + MAX_MESSAGE_SIZE) (enough : s.chan.writes.length ≤ fuel) :
    s.flushLoop fuel = .ok s.flushed := by
  rw [flushLoop_doWhile]
  refine @doWhile_total _ _ _ _ _ s
    (fun s => s.conn.writeBufferSent ≤ s.conn.writeBufferSize ∧ s.conn.writeBufferSize ≤ 4 + MAX_MESSAGE_SIZE)
    (fun s => s.chan.writes.length) (fun s result => result = .ok s.flushed) ?_ ⟨sent, size⟩ enough
  rintro s ⟨sent, size⟩
  rcases tryFlushBuffer_step sent size with done | ⟨s', step, same, shorter, sent', size'⟩
  · rw [done]
    rfl
  · rw [step]
    exact ⟨⟨sent', size'⟩, shorter, fun result ended => ended.trans (congrArg _ same)⟩

theorem stateResponse_eq {s : Session σ} (sent : s.conn.writeBufferSent ≤ s.conn.writeBufferSize)
    (size : s.conn.writeBufferSize ≤ 4 + MAX_MESSAGE_SIZE) : s.stateResponse = .ok s.flushed :=
  flushLoop_eq sent size (le_refl _)

end Session

def FlushEnd.state : FlushEnd → ConnectionState
  | drained => .REQ
  | blocked => .RES
  | failed => .END

namespace Session

variable {σ : Type}

/-- What a flush with this result changes: it delivers the start of the unsent bytes. -/
structure Flushed (s : Session σ) (result : Nat × FlushEnd × List Answer) (s' : Session σ) : Prop where
  db : s'.db = s.db
  executed : s'.executed = s.executed
  pending : s'.conn.pending = s.conn.pending
  kept : s.chan.written <+: s'.chan.written
  replies : s'.chan.written ++ s'.conn.unsent = s.chan.written ++ s.conn.unsent
  state : s'.conn.state = result.2.1.state
  channel : s'.chan = { s.chan with writes := result.2.2, written := s'.chan.written }
  sound : s'.conn.Sound

theorem afterFlush_flushed {s : Session σ} (sound : s.conn.Sound) (busy : s.conn.state = .RES)
    {result : Nat × FlushEnd × List Answer} (bound : result.1 ≤ s.conn.unsent.length)
    (full : result.2.1 = .drained ↔ result.1 = s.conn.unsent.length) : Flushed s result (s.afterFlush result) := by
  obtain ⟨accepted, ending, writes⟩ := result
  simp only at bound full
  have long := sound.length_unsent
  have size := sound.size
  have sent := sound.sent
  have left : (s.conn.writeBuffer.bytes.drop (s.conn.writeBufferSent + accepted)).take
      (s.conn.writeBufferSize - (s.conn.writeBufferSent + accepted)) = s.conn.unsent.drop accepted := by
    rw [Connection.unsent, List.drop_take, List.drop_drop, Nat.sub_sub]
  have replies : s.chan.written ++ s.conn.unsent.take accepted ++ s.conn.unsent.drop accepted =
      s.chan.written ++ s.conn.unsent := by
    rw [List.append_assoc, List.take_append_drop]
  cases ending with
  | drained =>
      have all : accepted = s.conn.unsent.length := full.mp rfl
      have nothing : (s.afterFlush (accepted, .drained, writes)).conn.unsent = [] := by
        simp [afterFlush, Connection.unsent]
      exact {
        db := rfl
        executed := rfl
        pending := rfl
        kept := List.prefix_append _ _
        replies := by
          rw [nothing]
          rw [all, List.drop_length] at replies
          simp only [afterFlush, all]
          exact replies
        state := rfl
        channel := rfl
        sound := ⟨le_refl _, Nat.zero_le _, sound.filled, fun _ => ⟨rfl, rfl⟩, fun wrong => by cases wrong⟩ }
  | blocked =>
      have less : accepted ≠ s.conn.unsent.length := fun same => by cases full.mpr same
      exact {
        db := rfl
        executed := rfl
        pending := rfl
        kept := List.prefix_append _ _
        replies := (congrArg _ left).trans replies
        state := busy
        channel := rfl
        sound := by
          refine ⟨?_, size, sound.filled, fun wrong => ?_, fun _ => ?_⟩
          · simp only [afterFlush]
            omega
          · cases busy.symm.trans wrong
          · simp only [afterFlush]
            omega }
  | failed =>
      exact {
        db := rfl
        executed := rfl
        pending := rfl
        kept := List.prefix_append _ _
        replies := (congrArg _ left).trans replies
        state := rfl
        channel := rfl
        sound := by
          refine ⟨?_, size, sound.filled, fun wrong => (by cases wrong), fun wrong => (by cases wrong)⟩
          simp only [afterFlush]
          omega }

theorem stateResponse_flushed {s : Session σ} (sound : s.conn.Sound) (busy : s.conn.state = .RES) :
    ∃ s', s.stateResponse = .ok s' ∧ Flushed s (flush s.conn.unsent.length s.chan.writes) s' := by
  have size := sound.size
  have some := sound.busy busy
  have long := sound.length_unsent
  refine ⟨s.flushed, stateResponse_eq sound.sent (by omega), ?_⟩
  exact afterFlush_flushed sound busy (flush_le _ _) (flush_drained (by omega) _)

/-! ### One request -/

section Request

variable {request : Executor σ}

structure Served (request : Executor σ) (s : Session σ) (done : Done) (s' : Session σ) : Prop where
  result : request s.db done.commandList = some (s'.db, done.reply)
  executed : s'.executed = s.executed ++ [done]
  kept : s.chan.written <+: s'.chan.written
  replies : s'.chan.written ++ s'.conn.unsent = s.chan.written ++ frame (packed done.reply)
  state : s'.conn.state = (flush (frame (packed done.reply)).length s.chan.writes).2.1.state
  channel : s'.chan = { s.chan with
    writes := (flush (frame (packed done.reply)).length s.chan.writes).2.2, written := s'.chan.written }
  sound : s'.conn.Sound

theorem respond_served {s : Session σ} (sound : s.conn.Sound) (idle : s.conn.state = .REQ) {commandList : List Bytes}
    {messageLength : Nat} (whole : 4 + messageLength ≤ s.conn.readBufferSize) {db : σ} {output : Bytes}
    (result : request s.db commandList = some (db, output)) :
    ∃ s', s.respond request commandList messageLength = .ok s' ∧ Served request s ⟨commandList, output⟩ s' ∧
      s'.conn.pending = s.conn.pending.drop (4 + messageLength) := by
  have short := length_packed output
  have filled := sound.filled
  have narrow : (packed output).length % 2 ^ 32 = (packed output).length := by
    apply Nat.mod_eq_of_lt
    unfold MAX_MESSAGE_SIZE at short
    omega
  obtain ⟨buffer1, buffer2, stored1, stored2, framed⟩ := @Buffer.store_framed s.conn.writeBuffer (packed output) (by omega)
  obtain ⟨buffer3, moved, bytes3⟩ := @Buffer.move_eq s.conn.readBuffer (4 + messageLength)
    (s.conn.readBufferSize - (4 + messageLength)) (by omega)
  let ready : Session σ := { s with
    db := db
    executed := s.executed ++ [⟨commandList, output⟩]
    conn.writeBuffer := buffer2
    conn.writeBufferSize := 4 + (packed output).length
    conn.readBuffer := buffer3
    conn.readBufferSize := s.conn.readBufferSize - (4 + messageLength)
    conn.state := .RES }
  have empty := (sound.idle idle).1
  have readySound : ready.conn.Sound := {
    sent := by simp only [ready, empty]; omega
    size := short
    filled := by simp only [ready]; omega
    idle := fun wrong => by cases wrong
    busy := fun _ => by simp only [ready, empty]; omega }
  have reply : ready.conn.unsent = frame (packed output) := by
    simp only [Connection.unsent, ready, empty, List.drop_zero, Nat.sub_zero]
    exact framed
  have rest : ready.conn.pending = s.conn.pending.drop (4 + messageLength) := by
    rw [Connection.pending, Connection.pending, List.drop_take]
    exact bytes3
  obtain ⟨s', done, flushed⟩ := stateResponse_flushed readySound rfl
  rw [reply] at flushed
  refine ⟨s', ?_, ?_, flushed.pending.trans rest⟩
  · unfold respond
    simp only [result, narrow, stored1, stored2, minus_eq whole, moved, bind, Except.bind]
    exact done
  · exact {
      result := by rw [flushed.db]; exact result
      executed := flushed.executed
      kept := flushed.kept
      replies := by rw [flushed.replies, reply]
      state := flushed.state
      channel := flushed.channel
      sound := flushed.sound }

theorem load_pending {conn : Connection} (sound : conn.Sound) {position size : Nat}
    (inside : position + size ≤ conn.readBufferSize) :
    conn.readBuffer.load position size = .ok ((conn.pending.drop position).take size) := by
  have := sound.filled
  rw [Buffer.load_eq (by omega), Connection.pending, List.drop_take, List.take_take, Nat.min_eq_left (by omega)]

theorem tryOneRequest_eq {s : Session σ} (sound : s.conn.Sound) (idle : s.conn.state = .REQ) :
    match nextFrame s.conn.pending with
    | .wait => s.tryOneRequest request = .ok (false, s)
    | .stop _ => s.tryOneRequest request = .ok (false, s.setState .END)
    | .item commandList rest =>
      match request s.db commandList with
      | none => s.tryOneRequest request = .error .command
      | some (_, output) =>
        ∃ s', s.tryOneRequest request = .ok (s'.conn.state == .REQ, s') ∧ Served request s ⟨commandList, output⟩ s' ∧
          s'.conn.pending = rest := by
  have long := sound.length_pending
  unfold tryOneRequest nextFrame
  rw [long]
  by_cases short : s.conn.readBufferSize < 4
  · rw [if_pos short, if_pos short]
  · have header := load_pending sound (Nat.le_of_not_lt short : 0 + 4 ≤ s.conn.readBufferSize)
    rw [if_neg short, if_neg short, header]
    simp only [List.drop_zero, bind, Except.bind]
    by_cases large : decode (s.conn.pending.take 4) > MAX_MESSAGE_SIZE
    · rw [if_pos large, if_pos large]
    · rw [if_neg large, if_neg large]
      by_cases part : s.conn.readBufferSize < 4 + decode (s.conn.pending.take 4)
      · rw [if_pos part, if_pos part]
      · have body := load_pending sound (Nat.le_of_not_lt part)
        rw [if_neg part, if_neg part, body]
        cases parsed : Request.parse ((s.conn.pending.drop 4).take (decode (s.conn.pending.take 4)))
            (decode (s.conn.pending.take 4)) with
        | none => simp only [parsed]
        | some commandList =>
            simp only [parsed]
            cases result : request s.db commandList with
            | none => simp only [respond, result]
            | some answer =>
                obtain ⟨db, output⟩ := answer
                obtain ⟨s', done, served, rest⟩ := respond_served sound idle (Nat.le_of_not_lt part) result
                exact ⟨s', by rw [done], served, rest⟩

end Request

end Session

end Coxx.Common
