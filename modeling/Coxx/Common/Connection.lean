import Coxx.Common.Request
import Coxx.Common.Socket
import Coxx.Library.Loop

/-! The connection of common/conn.cxx: two buffers, their counters, and the loops around read() and write().

A fault is an assertion that fails, a copy that leaves a buffer, a difference that underflows, or a
command that has no result. The database and the execution of a command on it are parameters here.
-/

set_option autoImplicit false

namespace Coxx.Common

open Library

inductive ConnectionState where
  | REQ
  | RES
  | END
  deriving DecidableEq, Repr

inductive Fault where
  /-- `assert(readBufferSize < readBuffer.capacity())` -/
  | room
  /-- `assert(readBufferSize <= readBuffer.capacity())` -/
  | filled
  /-- `assert(writeBufferSent <= writeBufferSize)` -/
  | flushed
  /-- `assert(0)` of `io` -/
  | notExpected
  | bounds
  | underflow
  | command
  /-- a loop does not end -/
  | loop
  deriving DecidableEq, Repr

/-- The memory that `reserve` gives to a vector. -/
structure Buffer where
  bytes : Bytes
  sized : bytes.length = 4 + MAX_MESSAGE_SIZE

namespace Buffer

def capacity (_ : Buffer) : Nat := 4 + MAX_MESSAGE_SIZE

def zeros : Buffer := ⟨List.replicate (4 + MAX_MESSAGE_SIZE) 0, List.length_replicate⟩

def load (buffer : Buffer) (position size : Nat) : Except Fault Bytes :=
  if position + size ≤ buffer.capacity then .ok ((buffer.bytes.drop position).take size) else .error .bounds

def store (buffer : Buffer) (position : Nat) (data : Bytes) : Except Fault Buffer :=
  if inside : position + data.length ≤ buffer.capacity then
    .ok ⟨buffer.bytes.take position ++ data ++ buffer.bytes.drop (position + data.length), by
      have := buffer.sized
      simp only [capacity] at inside
      simp only [List.length_append, List.length_take, List.length_drop]
      omega⟩
  else .error .bounds

/-- memmove to the front, when there is anything to move. -/
def move (buffer : Buffer) (position size : Nat) : Except Fault Buffer :=
  if size = 0 then .ok buffer
  else do
    let rest ← buffer.load position size
    buffer.store 0 rest

end Buffer

structure Connection where
  fd : Int
  state : ConnectionState
  readBuffer : Buffer
  writeBuffer : Buffer
  writeBufferSent : Nat
  writeBufferSize : Nat
  readBufferSize : Nat

/-- The constructor. What the memory of the buffers holds is not specified. -/
def newConnection (fd : Int) (state : ConnectionState) (writeBufferSent : Nat) (readBuffer writeBuffer : Buffer) :
    Connection where
  fd := fd
  state := state
  readBuffer := readBuffer
  writeBuffer := writeBuffer
  writeBufferSent := writeBufferSent
  writeBufferSize := 0
  readBufferSize := 0

/-- A connection with its descriptor. The requests that it executed are only recorded, with their replies. -/
structure Peer where
  conn : Connection
  chan : Channel
  executed : List Done

/-- What a call of a method of the connection can reach. -/
structure Session (σ : Type) extends Peer where
  db : σ

abbrev Executor (σ : Type) := σ → List Bytes → Option (σ × Bytes)

/-- The reply as it is packed: an error instead of a reply that is too big. -/
def packed (output : Bytes) : Bytes :=
  if 4 + output.length > MAX_MESSAGE_SIZE then
    Out.err [] Error.TOO_BIG.code (text "response is too big")
  else output

def minus (left right : Nat) : Except Fault Nat :=
  if right ≤ left then .ok (left - right) else .error .underflow

namespace Session

variable {σ : Type}

def setState (s : Session σ) (state : ConnectionState) : Session σ :=
  { s with conn.state := state }

def tryFlushBuffer (s : Session σ) : Except Fault (Bool × Session σ) := do
  let remainingSize ← minus s.conn.writeBufferSize s.conn.writeBufferSent
  let data ← s.conn.writeBuffer.load s.conn.writeBufferSent remainingSize
  match s.chan.writeAgain s.chan.writes.length data with
  | (.ok writtenBytes, chan) =>
    -- the counter advances by what the kernel took, and is checked afterwards
    let writeBufferSent := s.conn.writeBufferSent + writtenBytes
    if s.conn.writeBufferSize < writeBufferSent then .error .flushed
    else if writeBufferSent = s.conn.writeBufferSize then
      .ok (false, { s with chan := chan, conn.state := .REQ, conn.writeBufferSent := 0, conn.writeBufferSize := 0 })
    else .ok (true, { s with chan := chan, conn.writeBufferSent := writeBufferSent })
  | (.EAGAIN, chan) => .ok (false, { s with chan := chan })
  | (_, chan) => .ok (false, { s with chan := chan, conn.state := .END })

/-- `while (tryFlushBuffer())`. Every round but the last takes an answer of the kernel. -/
def flushLoop (fuel : Nat) (s : Session σ) : Except Fault (Session σ) := do
  let (again, s) ← s.tryFlushBuffer
  if again then
    match fuel with
    | 0 => .error .loop
    | fuel + 1 => flushLoop fuel s
  else .ok s

def stateResponse (s : Session σ) : Except Fault (Session σ) := flushLoop s.chan.writes.length s

variable (request : Executor σ)

/-- `tryOneRequest` once a command is there: execute it, pack the reply, move the rest of the buffer to the front. -/
def respond (s : Session σ) (commandList : List Bytes) (messageLength : Nat) : Except Fault (Session σ) :=
  match request s.db commandList with
  | none => .error .command
  | some (db, output) => do
    let executed := s.executed ++ [⟨commandList, output⟩]
    -- a reply that is too big is replaced before it is copied
    let output := packed output
    let writeLength := output.length % 2 ^ 32
    let writeBuffer ← s.conn.writeBuffer.store 0 (encode 4 writeLength)
    let writeBuffer ← writeBuffer.store 4 output
    let remainingSize ← minus s.conn.readBufferSize (4 + messageLength)
    -- the frame is consumed before the reply is flushed
    let readBuffer ← s.conn.readBuffer.move (4 + messageLength) remainingSize
    stateResponse { s with
      db := db
      executed := executed
      conn.writeBuffer := writeBuffer
      conn.writeBufferSize := 4 + writeLength
      conn.readBuffer := readBuffer
      conn.readBufferSize := remainingSize
      conn.state := .RES }

def tryOneRequest (s : Session σ) : Except Fault (Bool × Session σ) :=
  if s.conn.readBufferSize < 4 then .ok (false, s)
  else do
    let messageLength := decode (← s.conn.readBuffer.load 0 4)
    if messageLength > MAX_MESSAGE_SIZE then .ok (false, s.setState .END)
    else if 4 + messageLength > s.conn.readBufferSize then .ok (false, s)
    else
      let requestData ← s.conn.readBuffer.load 4 messageLength
      match Request.parse requestData messageLength with
      | none => .ok (false, s.setState .END)
      | some commandList =>
        let s ← respond request s commandList messageLength
        -- another request is tried only after the reply is drained
        .ok (s.conn.state == .REQ, s)

/-- `while (tryOneRequest())`. Every round but the last takes bytes out of the buffer. -/
def requestLoop (fuel : Nat) (s : Session σ) : Except Fault (Session σ) := do
  let (again, s) ← s.tryOneRequest request
  if again then
    match fuel with
    | 0 => .error .loop
    | fuel + 1 => requestLoop fuel s
  else .ok s

def tryFillBuffer (s : Session σ) : Except Fault (Bool × Session σ) := do
  if s.conn.readBuffer.capacity ≤ s.conn.readBufferSize then .error .room
  let availableCapacity ← minus s.conn.readBuffer.capacity s.conn.readBufferSize
  match s.chan.readAgain s.chan.reads.length availableCapacity with
  -- EOF
  | (.ok 0, _, chan) => .ok (false, { s with chan := chan, conn.state := .END })
  | (.ok readBytes, data, chan) =>
    let readBuffer ← s.conn.readBuffer.store s.conn.readBufferSize data
    let readBufferSize := s.conn.readBufferSize + readBytes
    if readBuffer.capacity < readBufferSize then .error .filled
    else
      let s : Session σ := { s with chan := chan, conn.readBuffer := readBuffer, conn.readBufferSize := readBufferSize }
      let s ← s.requestLoop request readBufferSize
      .ok (s.conn.state == .REQ, s)
  | (.EAGAIN, _, chan) => .ok (false, { s with chan := chan })
  | (_, _, chan) => .ok (false, { s with chan := chan, conn.state := .END })

/-- `while (tryFillBuffer())`. Every round but the last takes bytes of the input. -/
def fillLoop (fuel : Nat) (s : Session σ) : Except Fault (Session σ) := do
  let (again, s) ← s.tryFillBuffer request
  if again then
    match fuel with
    | 0 => .error .loop
    | fuel + 1 => fillLoop fuel s
  else .ok s

def stateRequest (s : Session σ) : Except Fault (Session σ) := fillLoop request s.chan.incoming.length s

def io (s : Session σ) : Except Fault (Session σ) :=
  match s.conn.state with
  | .REQ => s.stateRequest request
  | .RES => s.stateResponse
  | .END => .error .notExpected

/-! ### The loops as do-while loops -/

theorem flushLoop_doWhile (fuel : Nat) (s : Session σ) : s.flushLoop fuel = doWhile tryFlushBuffer .loop fuel s := by
  induction fuel generalizing s with
  | zero => rfl
  | succ fuel ih =>
      unfold flushLoop doWhile
      simp only [ih]

theorem requestLoop_doWhile (fuel : Nat) (s : Session σ) :
    s.requestLoop request fuel = doWhile (tryOneRequest request) .loop fuel s := by
  induction fuel generalizing s with
  | zero => rfl
  | succ fuel ih =>
      unfold requestLoop doWhile
      simp only [ih]

theorem fillLoop_doWhile (fuel : Nat) (s : Session σ) :
    s.fillLoop request fuel = doWhile (tryFillBuffer request) .loop fuel s := by
  induction fuel generalizing s with
  | zero => rfl
  | succ fuel ih =>
      unfold fillLoop doWhile
      simp only [ih]

end Session

end Coxx.Common
