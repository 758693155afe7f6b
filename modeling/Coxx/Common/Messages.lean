import Mathlib.Algebra.GroupWithZero.Nat
import Coxx.Common.Transfers

/-! The transfers of common/socket.cxx on their buffers, and messages that are sent and received one after the other. -/

set_option autoImplicit false

namespace Coxx.Common

namespace InPlace

/-- The end is cut off or filled up with NULs. -/
def resize (buffer : Bytes) (size : Nat) : Bytes := (buffer ++ List.replicate (size - buffer.length) 0).take size

/-- The bytes from `&buffer[position]` on; none when the buffer has less of them. -/
def load (buffer : Bytes) (position size : Nat) : Option Bytes :=
  if position + size ≤ buffer.length then some ((buffer.drop position).take size) else none

/-- The buffer after a call has put `data` at `&buffer[position]`. -/
def store (buffer : Bytes) (position : Nat) (data : Bytes) : Option Bytes :=
  if position + data.length ≤ buffer.length then
    some (buffer.take position ++ data ++ buffer.drop (position + data.length))
  else none

def readLoop (chan : Channel) (buffer : Bytes) (bytesRead numberOfBytes : Nat) : Option (Int × Bytes × Channel) :=
  if bytesRead < numberOfBytes then
    match chan.read (numberOfBytes - bytesRead) with
    | (.ok (readBytes + 1), data, chan) => do
      let buffer ← store buffer bytesRead data
      readLoop chan buffer (bytesRead + (readBytes + 1)) numberOfBytes
    -- an error, or an unexpected EOF
    | (_, _, chan) => some (-1, buffer, chan)
  else some (0, resize buffer bytesRead, chan)
termination_by numberOfBytes - bytesRead

/-- The result, the buffer and the descriptor; none when the call leaves its buffer. -/
def readFull (chan : Channel) (buffer : Bytes) (numberOfBytes : Nat) : Option (Int × Bytes × Channel) :=
  readLoop chan (resize buffer numberOfBytes) 0 numberOfBytes

def writeLoop (chan : Channel) (buffer : Bytes) (bytesWrote numberOfBytes : Nat) : Option (Int × Bytes × Channel) :=
  if bytesWrote < numberOfBytes then do
    let data ← load buffer bytesWrote (numberOfBytes - bytesWrote)
    match chan.write data with
    | (.ok (writtenBytes + 1), chan) => writeLoop chan buffer (bytesWrote + (writtenBytes + 1)) numberOfBytes
    | (_, chan) => some (-1, buffer, chan)
  else some (0, resize buffer bytesWrote, chan)
termination_by numberOfBytes - bytesWrote

def writeAll (chan : Channel) (buffer : Bytes) (numberOfBytes : Nat) : Option (Int × Bytes × Channel) :=
  writeLoop chan (resize buffer numberOfBytes) 0 numberOfBytes

@[simp] theorem length_resize (buffer : Bytes) (size : Nat) : (resize buffer size).length = size := by
  rw [resize, List.length_take, List.length_append, List.length_replicate]
  omega

theorem resize_of_le {buffer : Bytes} {size : Nat} (inside : size ≤ buffer.length) :
    resize buffer size = buffer.take size :=
  List.take_append_of_le_length inside

@[simp] theorem resize_length (buffer : Bytes) : resize buffer buffer.length = buffer := by
  rw [resize_of_le (le_refl _), List.take_length]

theorem load_rest {buffer : Bytes} {position : Nat} (inside : position ≤ buffer.length) :
    load buffer position (buffer.length - position) = some (buffer.drop position) := by
  rw [load, if_pos (by omega), List.take_of_length_le (by rw [List.length_drop])]

theorem store_eq {buffer data : Bytes} {position : Nat} (inside : position + data.length ≤ buffer.length) :
    ∃ buffer', store buffer position data = some buffer' ∧ buffer'.length = buffer.length ∧
      buffer'.take (position + data.length) = buffer.take position ++ data := by
  have front : (buffer.take position ++ data).length = position + data.length := by
    rw [List.length_append, List.length_take, Nat.min_eq_left (by omega)]
  refine ⟨_, if_pos inside, ?_, ?_⟩
  · rw [List.length_append, front, List.length_drop]
    omega
  · exact List.take_left' front

/-! ### The loops -/

theorem writeLoop_done (chan : Channel) (buffer : Bytes) :
    writeLoop chan buffer buffer.length buffer.length = some (0, buffer, chan) := by
  rw [writeLoop, if_neg (lt_irrefl _), resize_length]

theorem writeLoop_failed {chan chan1 : Channel} {buffer : Bytes} {bytesWrote : Nat} {answer : Answer}
    (more : bytesWrote < buffer.length) (wrote : chan.write (buffer.drop bytesWrote) = (answer, chan1))
    (failed : ∀ count, answer ≠ .ok (count + 1)) :
    writeLoop chan buffer bytesWrote buffer.length = some (-1, buffer, chan1) := by
  rw [writeLoop, if_pos more, load_rest more.le, Option.bind_eq_bind, Option.bind_some, wrote]
  split
  · rename_i called
    cases called
    exact absurd rfl (failed _)
  · rename_i called
    cases called
    rfl

theorem writeLoop_taken {chan chan1 : Channel} {buffer : Bytes} {bytesWrote count : Nat}
    (more : bytesWrote < buffer.length) (wrote : chan.write (buffer.drop bytesWrote) = (.ok (count + 1), chan1)) :
    writeLoop chan buffer bytesWrote buffer.length =
      writeLoop chan1 buffer (bytesWrote + (count + 1)) buffer.length := by
  conv_lhs => rw [writeLoop, if_pos more, load_rest more.le, Option.bind_eq_bind, Option.bind_some, wrote]

theorem writeLoop_eq {fuel : Nat} {chan : Channel} {buffer : Bytes} {bytesWrote : Nat}
    (inside : bytesWrote ≤ buffer.length) (enough : buffer.length ≤ bytesWrote + fuel) :
    writeLoop chan buffer bytesWrote buffer.length =
      some ((Socket.writeFrom fuel chan (buffer.drop bytesWrote)).1, buffer,
        (Socket.writeFrom fuel chan (buffer.drop bytesWrote)).2) := by
  induction fuel generalizing chan bytesWrote with
  | zero =>
      obtain rfl : bytesWrote = buffer.length := by omega
      rw [writeLoop_done, List.drop_length, Socket.writeFrom]
  | succ fuel ih =>
      rcases inside.lt_or_eq with more | rfl
      · have some : buffer.drop bytesWrote ≠ [] := by
          intro none
          have := List.drop_eq_nil_iff.mp none
          omega
        obtain ⟨answer, chan1, sent, wrote, _, failed | taken⟩ := chan.write_steady some
        · rw [writeLoop_failed more wrote failed.2.1, writeFrom_failed some wrote failed.2.1]
        · obtain ⟨count, rfl, rfl, fits, _⟩ := taken
          rw [List.length_drop] at fits
          rw [writeLoop_taken more wrote, writeFrom_taken some wrote, List.drop_drop]
          exact ih (by omega) (by omega)
      · rw [writeLoop_done, List.drop_length, Socket.writeFrom]

theorem readLoop_done (chan : Channel) (buffer : Bytes) :
    readLoop chan buffer buffer.length buffer.length = some (0, buffer, chan) := by
  rw [readLoop, if_neg (lt_irrefl _), resize_length]

theorem readLoop_failed {chan chan1 : Channel} {buffer got : Bytes} {bytesRead numberOfBytes : Nat} {answer : Answer}
    (more : bytesRead < numberOfBytes) (called : chan.read (numberOfBytes - bytesRead) = (answer, got, chan1))
    (failed : ∀ count, answer ≠ .ok (count + 1)) :
    readLoop chan buffer bytesRead numberOfBytes = some (-1, buffer, chan1) := by
  rw [readLoop, if_pos more, called]
  split
  · rename_i result
    cases result
    exact absurd rfl (failed _)
  · rename_i result
    cases result
    rfl

theorem readLoop_taken {chan chan1 : Channel} {buffer buffer1 got : Bytes} {bytesRead numberOfBytes count : Nat}
    (more : bytesRead < numberOfBytes)
    (called : chan.read (numberOfBytes - bytesRead) = (.ok (count + 1), got, chan1))
    (stored : store buffer bytesRead got = some buffer1) :
    readLoop chan buffer bytesRead numberOfBytes = readLoop chan1 buffer1 (bytesRead + (count + 1)) numberOfBytes := by
  conv_lhs => rw [readLoop, if_pos more, called]
  simp only [stored, Option.bind_eq_bind, Option.bind_some]

theorem readLoop_eq {fuel : Nat} {chan chan' : Channel} {buffer : Bytes} {bytesRead : Nat} {result : Option Bytes}
    (inside : bytesRead ≤ buffer.length) (enough : buffer.length ≤ bytesRead + fuel)
    (read : Socket.readFrom fuel chan (buffer.take bytesRead) buffer.length = (result, chan')) :
    (∃ full, result = some full ∧ readLoop chan buffer bytesRead buffer.length = some (0, full, chan')) ∨
    ∃ buffer', result = none ∧ readLoop chan buffer bytesRead buffer.length = some (-1, buffer', chan') := by
  induction fuel generalizing chan buffer bytesRead with
  | zero =>
      obtain rfl : bytesRead = buffer.length := by omega
      rw [List.take_length, readFrom_done] at read
      cases read
      exact .inl ⟨_, rfl, readLoop_done _ _⟩
  | succ fuel ih =>
      rcases inside.lt_or_eq with more | rfl
      · have start : (buffer.take bytesRead).length = bytesRead := by rw [List.length_take, Nat.min_eq_left inside]
        have short : (buffer.take bytesRead).length < buffer.length := by rwa [start]
        obtain ⟨answer, got, chan1, called, _, _, _, failed | taken⟩ :=
          @Channel.read_steady chan (buffer.length - bytesRead) (by omega)
        · rw [readFrom_failed short (by rwa [start]) failed.2.1] at read
          cases read
          exact .inr ⟨_, rfl, readLoop_failed more called failed.2.1⟩
        · obtain ⟨count, rfl, size, fits⟩ := taken
          obtain ⟨buffer1, stored, sized, front⟩ := @store_eq buffer got bytesRead (by omega)
          rw [readFrom_taken short (by rwa [start]), ← front, size, ← sized] at read
          rw [readLoop_taken more called stored, ← sized]
          exact ih (by omega) (by omega) read
      · rw [List.take_length, readFrom_done] at read
        cases read
        exact .inl ⟨_, rfl, readLoop_done _ _⟩

/-! ### One call -/

theorem writeAll_eq (chan : Channel) (buffer : Bytes) (size : Nat) :
    writeAll chan buffer size =
      some ((Socket.writeAll chan buffer size).1, resize buffer size, (Socket.writeAll chan buffer size).2) := by
  have loop := @writeLoop_eq size chan (resize buffer size) 0 (Nat.zero_le _)
  rw [length_resize, List.drop_zero] at loop
  exact loop (by omega)

theorem readFull_eq {chan chan' : Channel} {buffer : Bytes} {size : Nat} {result : Option Bytes}
    (read : Socket.readFull chan size = (result, chan')) :
    (∃ full, result = some full ∧ readFull chan buffer size = some (0, full, chan')) ∨
    ∃ buffer', result = none ∧ readFull chan buffer size = some (-1, buffer', chan') := by
  have loop := @readLoop_eq size chan chan' (resize buffer size) 0 result (Nat.zero_le _)
  rw [length_resize, List.take_zero] at loop
  exact loop (by omega) read

/-- What a call of `writeAll` with this message did: it has written the bytes `sent`, and failed only where the
kernel did. -/
structure Sends (chan chan' : Channel) (message : Bytes) (code : Int) (sent : Bytes) : Prop where
  written : chan'.written = chan.written ++ sent
  start : sent <+: message
  outcome : code = 0 ∧ sent = message ∨ code = -1 ∧ ¬Steady chan.writes
  steady : Steady chan.writes → Steady chan'.writes

/-- What a call of `readFull` did: it has taken the bytes `got` from the stream, and failed only where the kernel
did or where the stream was too short. -/
structure Takes (chan chan' : Channel) (size : Nat) (code : Int) (buffer got : Bytes) : Prop where
  taken : chan.incoming = got ++ chan'.incoming
  outcome : code = 0 ∧ buffer = got ∧ got.length = size ∨
    code = -1 ∧ got.length < size ∧ (Steady chan.reads → chan'.incoming = [])
  steady : Steady chan.reads → Steady chan'.reads

theorem writeAll_sends (chan : Channel) (buffer : Bytes) (size : Nat) :
    ∃ code chan' sent, writeAll chan buffer size = some (code, resize buffer size, chan') ∧
      Sends chan chan' (resize buffer size) code sent := by
  obtain ⟨code, chan', sent, wrote, written, start, steady, outcome⟩ :=
    @writeFrom_spec size chan (resize buffer size) (le_of_eq (length_resize _ _))
  have list : Socket.writeAll chan buffer size = (code, chan') := wrote
  refine ⟨code, chan', sent, ?_, written, start, outcome, steady⟩
  rw [writeAll_eq, list]

theorem readFull_takes (chan : Channel) (buffer : Bytes) (size : Nat) :
    ∃ code buffer' chan' got, readFull chan buffer size = some (code, buffer', chan') ∧
      Takes chan chan' size code buffer' got := by
  obtain ⟨result, chan', got, read, taken, _, steady, outcome⟩ :=
    @readFrom_spec size chan [] size (Nat.zero_le _) (by omega)
  rw [List.nil_append] at outcome
  rcases @readFull_eq chan chan' buffer size result read with ⟨full, rfl, returned⟩ | ⟨buffer', rfl, returned⟩
  · rcases outcome with ⟨same, whole⟩ | ⟨wrong, _⟩
    · exact ⟨0, full, chan', got, returned, taken, .inl ⟨rfl, Option.some.inj same, whole⟩, steady⟩
    · cases wrong
  · rcases outcome with ⟨wrong, _⟩ | ⟨_, short, stuck⟩
    · cases wrong
    · exact ⟨-1, buffer', chan', got, returned, taken, .inr ⟨rfl, short, stuck⟩, steady⟩

/-! ### Messages one after the other -/

def each (call : Channel → Bytes → Nat → Option (Int × Bytes × Channel)) (chan : Channel) :
    List (Bytes × Nat) → Option (List (Int × Bytes) × Channel)
  | [] => some ([], chan)
  | (buffer, size) :: calls => do
    let (code, buffer, chan) ← call chan buffer size
    let (results, chan) ← each call chan calls
    some ((code, buffer) :: results, chan)

def Succeed (results : List (Int × Bytes)) : Prop := ∀ result ∈ results, result.1 = 0

def buffers (results : List (Int × Bytes)) : List Bytes := results.map fun result => result.2

def sizes (calls : List (Bytes × Nat)) : List Nat := calls.map fun call => call.2

theorem succeed_cons {code : Int} {buffer : Bytes} {results : List (Int × Bytes)} :
    Succeed ((code, buffer) :: results) ↔ code = 0 ∧ Succeed results := List.forall_mem_cons

theorem each_cons {call : Channel → Bytes → Nat → Option (Int × Bytes × Channel)} {chan chan1 chan2 : Channel}
    {buffer buffer' : Bytes} {size : Nat} {code : Int} {calls : List (Bytes × Nat)} {results : List (Int × Bytes)}
    (first : call chan buffer size = some (code, buffer', chan1)) (rest : each call chan1 calls = some (results, chan2)) :
    each call chan ((buffer, size) :: calls) = some ((code, buffer') :: results, chan2) := by
  simp only [each, first, rest, Option.bind_eq_bind, Option.bind_some]

theorem writeAll_each (chan : Channel) (messages : List (Bytes × Nat)) :
    ∃ results chan', each writeAll chan messages = some (results, chan') ∧
      buffers results = messages.map (fun message => resize message.1 message.2) ∧
      (Steady chan.writes → Succeed results) ∧
      (Succeed results → chan'.written = chan.written ++ (buffers results).flatten) := by
  induction messages generalizing chan with
  | nil => exact ⟨[], chan, rfl, rfl, fun _ => List.forall_mem_nil _, fun _ => (List.append_nil _).symm⟩
  | cons message messages ih =>
      obtain ⟨buffer, size⟩ := message
      obtain ⟨code, chan1, sent, first, sends⟩ := writeAll_sends chan buffer size
      obtain ⟨results, chan2, rest, same, steady, written⟩ := ih chan1
      refine ⟨_, chan2, each_cons first rest, congrArg (List.cons _) same, ?_, ?_⟩
      · intro all
        apply succeed_cons.mpr
        rcases sends.outcome with ⟨done, _⟩ | ⟨_, failed⟩
        · exact ⟨done, steady (sends.steady all)⟩
        · exact absurd all failed
      · intro all
        obtain ⟨rfl, later⟩ := succeed_cons.mp all
        rcases sends.outcome with ⟨_, whole⟩ | ⟨wrong, _⟩
        · rw [written later, sends.written, whole, List.append_assoc]
          rfl
        · cases wrong

/-- Reads that all succeed cut the stream at the sizes that were asked for, and steady ones succeed while the stream
has the bytes. -/
theorem readFull_each (chan : Channel) (calls : List (Bytes × Nat)) :
    ∃ results chan', each readFull chan calls = some (results, chan') ∧
      (Steady chan.reads → (sizes calls).sum ≤ chan.incoming.length → Succeed results) ∧
      (Succeed results → chan.incoming = (buffers results).flatten ++ chan'.incoming ∧
        (buffers results).map List.length = sizes calls) := by
  induction calls generalizing chan with
  | nil => exact ⟨[], chan, rfl, fun _ _ => List.forall_mem_nil _, fun _ => ⟨rfl, rfl⟩⟩
  | cons call calls ih =>
      obtain ⟨buffer, size⟩ := call
      obtain ⟨code, buffer', chan1, got, first, takes⟩ := readFull_takes chan buffer size
      obtain ⟨results, chan2, rest, steady, split⟩ := ih chan1
      have stream := congrArg List.length takes.taken
      rw [List.length_append] at stream
      refine ⟨_, chan2, each_cons first rest, ?_, ?_⟩
      · intro all enough
        have needed : size + (sizes calls).sum ≤ chan.incoming.length := enough
        apply succeed_cons.mpr
        rcases takes.outcome with ⟨done, _, whole⟩ | ⟨_, short, stuck⟩
        · exact ⟨done, steady (takes.steady all) (by omega)⟩
        · rw [stuck all, List.length_nil] at stream
          omega
      · intro all
        obtain ⟨rfl, later⟩ := succeed_cons.mp all
        obtain ⟨behind, lengths⟩ := split later
        rcases takes.outcome with ⟨_, rfl, whole⟩ | ⟨wrong, _⟩
        · constructor
          · rw [takes.taken, behind, ← List.append_assoc]
            rfl
          · exact congrArg₂ List.cons whole lengths
        · cases wrong

theorem parts_unique {α : Type} {parts parts' : List (List α)} {rest rest' : List α}
    (lengths : parts.map List.length = parts'.map List.length)
    (same : parts.flatten ++ rest = parts'.flatten ++ rest') : parts = parts' ∧ rest = rest' := by
  have total : parts.flatten.length = parts'.flatten.length := by
    rw [List.length_flatten, List.length_flatten, lengths]
  obtain ⟨flat, later⟩ := List.append_inj same total
  exact ⟨List.eq_iff_flatten_eq.mpr ⟨flat, lengths⟩, later⟩

/-- However the stream is cut, whole messages are sent and received. -/
theorem full_transfers :
    (∀ (chan : Channel) (buffer : Bytes) (size : Nat), ∃ code chan' sent,
      writeAll chan buffer size = some (code, resize buffer size, chan') ∧
      (size ≤ buffer.length → resize buffer size = buffer.take size) ∧
      Sends chan chan' (resize buffer size) code sent) ∧
    (∀ (chan : Channel) (buffer : Bytes) (size : Nat), ∃ code buffer' chan' got,
      readFull chan buffer size = some (code, buffer', chan') ∧ Takes chan chan' size code buffer' got) ∧
    ∀ (sender receiver : Channel) (messages calls : List (Bytes × Nat)) (rest : Bytes), sizes messages = sizes calls →
      ∃ wrote sender' read receiver', each writeAll sender messages = some (wrote, sender') ∧
        each readFull receiver calls = some (read, receiver') ∧
        buffers wrote = messages.map (fun message => resize message.1 message.2) ∧
        (Steady sender.writes → Succeed wrote) ∧
        (Succeed wrote → sender'.written = sender.written ++ (buffers wrote).flatten ∧
          (receiver.incoming = (buffers wrote).flatten ++ rest →
            (Steady receiver.reads → Succeed read) ∧
            (Succeed read → buffers read = buffers wrote ∧ receiver'.incoming = rest))) := by
  refine ⟨?_, readFull_takes, ?_⟩
  · intro chan buffer size
    obtain ⟨code, chan', sent, returned, sends⟩ := writeAll_sends chan buffer size
    exact ⟨code, chan', sent, returned, resize_of_le, sends⟩
  · intro sender receiver messages calls rest agreed
    obtain ⟨wrote, sender', writes, same, willing, written⟩ := writeAll_each sender messages
    obtain ⟨read, receiver', reads, steady, split⟩ := readFull_each receiver calls
    have lengths : (buffers wrote).map List.length = sizes calls := by
      rw [same, List.map_map, ← agreed]
      exact List.map_congr_left fun message _ => length_resize message.1 message.2
    refine ⟨wrote, sender', read, receiver', writes, reads, same, willing, ?_⟩
    intro sent
    refine ⟨written sent, fun stream => ⟨?_, ?_⟩⟩
    · intro all
      apply steady all
      rw [stream, List.length_append, List.length_flatten, lengths]
      exact Nat.le_add_right _ _
    · intro received
      obtain ⟨taken, cut⟩ := split received
      exact parts_unique (cut.trans lengths.symm) (taken.symm.trans stream)

/-- Two messages that leave as 1, 2 and 2 bytes arrive as 2, 1, 1 and 1 bytes. -/
theorem full_transfers_cut : ∃ read receiver',
    each readFull ⟨[97, 98, 99, 100, 101, 7], false, [.ok 2, .ok 5, .ok 1], [], [], [], none⟩ [([], 3), ([9], 2)] =
      some (read, receiver') ∧
    buffers read = [[97, 98, 99], [100, 101]] ∧ receiver'.incoming = [7] := by
  obtain ⟨wrote, _, read, receiver', _, reads, same, willing, sent⟩ :=
    full_transfers.2.2 ⟨[], false, [], [.ok 1, .ok 4], [], [], none⟩
      ⟨[97, 98, 99, 100, 101, 7], false, [.ok 2, .ok 5, .ok 1], [], [], [], none⟩
      [([97, 98, 99], 3), ([100, 101, 102], 2)] [([], 3), ([9], 2)] [7] rfl
  have texts : buffers wrote = [[97, 98, 99], [100, 101]] := same
  obtain ⟨_, arrived⟩ := sent (willing (by simp [Steady]))
  obtain ⟨steady, cut⟩ := arrived (by rw [texts]; rfl)
  obtain ⟨whole, left⟩ := cut (steady (by simp [Steady]))
  exact ⟨read, receiver', reads, whole.trans texts, left⟩

end InPlace

end Coxx.Common
