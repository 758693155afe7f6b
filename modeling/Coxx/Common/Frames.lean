import Coxx.Common.Connection
import Coxx.Common.Parsing
import Coxx.Library.Decoder

/-! The frames on the wire, as a decoder of the byte stream of a connection. -/

set_option autoImplicit false

namespace Coxx.Common

open Library

inductive Malformed where
  | tooLong
  | badRequest
  deriving DecidableEq, Repr

/-- A frame is a 32-bit length and a body that holds a command. -/
def nextFrame (stream : Bytes) : Next UInt8 (List Bytes) Malformed :=
  if stream.length < 4 then .wait
  else
    let messageLength := decode (stream.take 4)
    if messageLength > MAX_MESSAGE_SIZE then .stop .tooLong
    else if stream.length < 4 + messageLength then .wait
    else
      match Request.parse ((stream.drop 4).take messageLength) messageLength with
      | none => .stop .badRequest
      | some commandList => .item commandList (stream.drop (4 + messageLength))

section Next

variable {stream rest : Bytes} {commandList : List Bytes}

theorem nextFrame_item (found : nextFrame stream = .item commandList rest) :
    4 ≤ stream.length ∧ decode (stream.take 4) ≤ MAX_MESSAGE_SIZE ∧ 4 + decode (stream.take 4) ≤ stream.length ∧
      Request.parse ((stream.drop 4).take (decode (stream.take 4))) (decode (stream.take 4)) = some commandList ∧
      rest = stream.drop (4 + decode (stream.take 4)) := by
  unfold nextFrame at found
  split at found
  · cases found
  · simp only at found
    split at found
    · cases found
    · split at found
      · cases found
      · split at found
        · cases found
        · rename_i parsed
          cases found
          exact ⟨by omega, by omega, by omega, parsed, rfl⟩

theorem nextFrame_stop {reason : Malformed} (found : nextFrame stream = .stop reason) :
    4 ≤ stream.length ∧ (MAX_MESSAGE_SIZE < decode (stream.take 4) ∧ reason = .tooLong ∨
      decode (stream.take 4) ≤ MAX_MESSAGE_SIZE ∧ 4 + decode (stream.take 4) ≤ stream.length ∧
      Request.parse ((stream.drop 4).take (decode (stream.take 4))) (decode (stream.take 4)) = none ∧
      reason = .badRequest) := by
  unfold nextFrame at found
  split at found
  · cases found
  · simp only at found
    split at found
    · cases found
      exact ⟨by omega, .inl ⟨by omega, rfl⟩⟩
    · split at found
      · cases found
      · split at found
        · rename_i parsed
          cases found
          exact ⟨by omega, .inr ⟨by omega, by omega, parsed, rfl⟩⟩
        · cases found

theorem length_of_wait (found : nextFrame stream = .wait) : stream.length < 4 + MAX_MESSAGE_SIZE := by
  unfold nextFrame at found
  split at found
  · omega
  · simp only at found
    split at found
    · cases found
    · split at found
      · omega
      · split at found <;> cases found

end Next

theorem header_append {stream : Bytes} (long : 4 ≤ stream.length) (more : Bytes) :
    (stream ++ more).take 4 = stream.take 4 :=
  List.take_append_of_le_length long

theorem body_append {stream : Bytes} {messageLength : Nat} (whole : 4 + messageLength ≤ stream.length) (more : Bytes) :
    ((stream ++ more).drop 4).take messageLength = (stream.drop 4).take messageLength := by
  rw [List.drop_append_of_le_length (by omega), List.take_append_of_le_length]
  rw [List.length_drop]
  omega

def frames : Decoder UInt8 (List Bytes) Malformed where
  next := nextFrame
  item_shorter := by
    intro stream commandList rest found
    obtain ⟨long, _, _, _, rfl⟩ := nextFrame_item found
    rw [List.length_drop]
    omega
  item_append := by
    intro stream commandList rest more found
    obtain ⟨long, small, whole, parsed, rfl⟩ := nextFrame_item found
    unfold nextFrame
    simp only [header_append long, body_append whole, parsed, List.length_append]
    rw [if_neg (by omega), if_neg (by omega), if_neg (by omega), List.drop_append_of_le_length whole]
  stop_append := by
    intro stream reason more found
    obtain ⟨long, reasons⟩ := nextFrame_stop found
    unfold nextFrame
    simp only [header_append long, List.length_append]
    rw [if_neg (by omega)]
    rcases reasons with ⟨large, rfl⟩ | ⟨small, whole, malformed, rfl⟩
    · rw [if_pos large]
    · rw [if_neg (by omega), if_neg (by omega), body_append whole, malformed]

/-! ### Replies -/

def frame (body : Bytes) : Bytes := encode 4 body.length ++ body

def framedReplies (executed : List Done) : Bytes := (executed.map fun done => frame (packed done.reply)).flatten

@[simp] theorem framedReplies_concat (executed : List Done) (done : Done) :
    framedReplies (executed ++ [done]) = framedReplies executed ++ frame (packed done.reply) := by
  simp [framedReplies]

theorem length_packed (output : Bytes) : 4 + (packed output).length ≤ MAX_MESSAGE_SIZE := by
  unfold packed
  split
  · decide
  · omega

@[simp] theorem length_frame (body : Bytes) : (frame body).length = 4 + body.length := by
  simp [frame]

/-! ### The frame of a command -/

theorem nextFrame_encoded {commands : List Bytes} (small : (encodedCommand commands).length ≤ MAX_MESSAGE_SIZE)
    (parsed : Request.parse (encodedCommand commands) (encodedCommand commands).length = some commands) (more : Bytes) :
    nextFrame (frame (encodedCommand commands) ++ more) = .item commands more := by
  have header : decode ((frame (encodedCommand commands) ++ more).take 4) = (encodedCommand commands).length := by
    rw [frame, List.append_assoc, List.take_left' (length_encode _ _)]
    apply decode_encode
    unfold MAX_MESSAGE_SIZE at small
    omega
  have body : ((frame (encodedCommand commands) ++ more).drop 4).take (encodedCommand commands).length =
      encodedCommand commands := by
    rw [frame, List.append_assoc, List.drop_left' (length_encode _ _), List.take_left]
  unfold nextFrame
  simp only [header, body, parsed, List.length_append, length_frame]
  rw [if_neg (by omega), if_neg (by omega), if_neg (by omega), List.drop_left' (length_frame _)]

theorem length_le_args {commands : List Bytes} (small : (encodedCommand commands).length ≤ MAX_MESSAGE_SIZE) :
    commands.length ≤ MAX_NUM_ARGS := by
  have args := length_le_encodedArgs commands
  rw [length_encodedCommand, ← length_encodedArgs] at small
  unfold MAX_MESSAGE_SIZE at small
  unfold MAX_NUM_ARGS
  omega

theorem frames_encoded {commands : List Bytes} (small : (encodedCommand commands).length ≤ MAX_MESSAGE_SIZE) :
    frames.all (frame (encodedCommand commands)) = [commands] := by
  have short : ∀ s ∈ commands, ¬Wraps s := by
    intro s member
    have part := length_arg member
    rw [encodedCommand, List.length_append, length_encode] at small
    unfold Wraps
    unfold MAX_MESSAGE_SIZE at small
    omega
  have found : frames.next (frame (encodedCommand commands)) = .item commands [] := by
    have found := nextFrame_encoded small (parse_complete (length_le_args small) short) []
    rwa [List.append_nil] at found
  rw [Decoder.all_item found, Decoder.all_wait (show frames.next [] = .wait from rfl)]

/-! ### Executions in order -/

section Replays

variable {σ : Type} (request : Executor σ)

/-- Executing the commands one after the other gives these replies and this database. -/
inductive Replays : σ → List Done → σ → Prop where
  | nil (db : σ) : Replays db [] db
  | cons {db db' final : σ} {done : Done} {rest : List Done} :
      request db done.commandList = some (db', done.reply) → Replays db' rest final → Replays db (done :: rest) final

variable {request}

theorem Replays.trans {db db' final : σ} {left right : List Done} (first : Replays request db left db')
    (second : Replays request db' right final) : Replays request db (left ++ right) final := by
  induction first with
  | nil => exact second
  | cons result _ ih => exact .cons result (ih second)

theorem Replays.of_nil {db final : σ} (replays : Replays request db [] final) : final = db := by
  cases replays
  rfl

theorem Replays.extends {db db₁ db₂ : σ} {left right : List Done} (first : Replays request db left db₁)
    (second : Replays request db right db₂)
    (same : left.map Done.commandList <+: right.map Done.commandList) :
    ∃ rest, right = left ++ rest ∧ Replays request db₁ rest db₂ := by
  induction first generalizing right with
  | nil => exact ⟨right, rfl, second⟩
  | @cons db db' final done left result _ ih =>
      cases second with
      | nil => simp at same
      | @cons _ db'' _ other right result' second =>
          simp only [List.map_cons, List.cons_prefix_cons] at same
          obtain ⟨commandList, reply⟩ := done
          obtain ⟨commandList', reply'⟩ := other
          obtain ⟨rfl, same⟩ := same
          cases result.symm.trans result'
          obtain ⟨rest, rfl, replays⟩ := ih second same
          exact ⟨rest, rfl, replays⟩

end Replays

end Coxx.Common
