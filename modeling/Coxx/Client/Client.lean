import Coxx.Common.Connection

/-! The client of client/client.cxx: sending a request, and decoding the response. -/

set_option autoImplicit false

namespace Coxx.Client

open Library Common

/-! ### Requests -/

/-- The loop that adds up the sizes, in 32 bits. -/
def totalLength (commands : List Bytes) : Nat :=
  commands.foldl (fun messageLength s => (messageLength + (4 + s.length)) % 2 ^ 32) 4

def copyStrings (writeBuffer : Buffer) (current : Nat) : List Bytes → Except Fault Buffer
  | [] => .ok writeBuffer
  | s :: rest => do
    let writeBuffer ← writeBuffer.store current (encode 4 s.length)
    let writeBuffer ← writeBuffer.store (current + 4) s
    copyStrings writeBuffer (current + 4 + s.length) rest

/-- What `memcpy(_, &n, messageLength)` copies: the four bytes of `n`, and what lies behind them. -/
def copied (n : Nat) (behind : Nat → UInt8) (messageLength : Nat) : Bytes :=
  (encode 4 n ++ (List.range (messageLength - 4)).map behind).take messageLength

def sendRequest (chan : Channel) (behind : Nat → UInt8) (commands : List Bytes) : Except Fault (Int × Channel) :=
  let messageLength := totalLength commands
  if messageLength > MAX_MESSAGE_SIZE then .ok (-1, chan)
  else do
    let writeBuffer ← Buffer.zeros.store 0 (encode 4 messageLength)
    -- only the first four of these bytes are meant; the strings overwrite the others
    let writeBuffer ← writeBuffer.store 4 (copied commands.length behind messageLength)
    let writeBuffer ← copyStrings writeBuffer 8 commands
    .ok (Socket.writeAll chan writeBuffer.bytes (4 + messageLength))

/-! ### Responses -/

inductive Line where
  | eof
  | tooLong
  | badResponse
  | nil
  | err (code : Int) (msg : Bytes)
  | str (val : Bytes)
  | int (val : Int)
  | double (val : Double)
  | arr (len : Nat)
  | arrEnd

def signedOf (bytes : Bytes) : Int :=
  let value := decode bytes
  if 2 * value < 256 ^ bytes.length then value else (value : Int) - (256 ^ bytes.length : Nat)

/-- The value of a 32-bit result that is given as an unsigned one. -/
def int32 (value : Nat) : Int := signedOf (encode 4 value)

/-- A view of `len` bytes; none when it leaves the data. -/
def view (data : Bytes) (start len : Nat) : Option Bytes :=
  if start + len ≤ data.length then some ((data.drop start).take len) else none

/-- The loop over the items of an array. `substr` throws when it starts behind the end. -/
def readItems (read : Bytes → Option (Int × List Line)) (data : Bytes) (left arrayBytes : Nat) (lines : List Line) :
    Option (Int × List Line) :=
  match left with
  | 0 => some (int32 arrayBytes, lines ++ [.arrEnd])
  | left + 1 =>
    if data.length < arrayBytes then none
    else do
      let (responseValue, printed) ← read (data.drop arrayBytes)
      if responseValue < 0 then some (responseValue, lines ++ printed)
      else readItems read data left (arrayBytes + responseValue.toNat) (lines ++ printed)

/-- The result, and what is printed. `fuel` bounds the depth of the calls; none is a read outside the data or a
throw. -/
def deserialize (fuel : Nat) (data : Bytes) : Option (Int × List Line) :=
  match fuel with
  | 0 => none
  | fuel + 1 =>
    match data with
    | [] => some (-1, [.badResponse])
    | type :: _ =>
      if type = Serialize.NIL.tag then some (1, [.nil])
      else if type = Serialize.ERR.tag then
        if data.length < 1 + 8 then some (-1, [.badResponse])
        else
          let code := signedOf ((data.drop 1).take 4)
          let len := decode ((data.drop (1 + 4)).take 4)
          -- the sum is taken in 32 bits
          if data.length < (1 + 8 + len) % 2 ^ 32 then some (-1, [.badResponse])
          else (view data (1 + 8) len).map fun msg => (int32 (1 + 8 + len), [.err code msg])
      else if type = Serialize.STR.tag then
        if data.length < 1 + 4 then some (-1, [.badResponse])
        else
          let len := decode ((data.drop 1).take 4)
          if data.length < (1 + 4 + len) % 2 ^ 32 then some (-1, [.badResponse])
          else (view data (1 + 4) len).map fun val => (int32 (1 + 4 + len), [.str val])
      else if type = Serialize.INT.tag then
        if data.length < 1 + 8 then some (-1, [.badResponse])
        else some (1 + 8, [.int (signedOf ((data.drop 1).take 8))])
      else if type = Serialize.DBL.tag then
        if data.length < 1 + 8 then some (-1, [.badResponse])
        else some (1 + 8, [.double ⟨BitVec.ofNat 64 (decode ((data.drop 1).take 8))⟩])
      else if type = Serialize.ARR.tag then
        if data.length < 1 + 4 then some (-1, [.badResponse])
        else
          let len := decode ((data.drop 1).take 4)
          readItems (deserialize fuel) data len (1 + 4) [.arr len]
      else some (-1, [.badResponse])

structure Response where
  result : Int
  lines : List Line
  chan : Channel

/-- Why no result is returned: `read` waits for more input, or there was a read outside the data or a throw. -/
inductive Stop where
  | waits (chan : Channel)
  | fault

/-- `readFull` on the socket of the client, which is blocking: while nothing has come, `read` does not return. -/
def awaitFull (chan : Channel) (numberOfBytes : Nat) : Except Stop (Option Bytes × Channel) :=
  match Socket.readFull chan numberOfBytes with
  | (none, chan) => if chan.lastRead = some .EAGAIN then .error (.waits chan) else .ok (none, chan)
  | (some buffer, chan) => .ok (some buffer, chan)

/-- `readResponse`. Its lines on the error output are left out. -/
def readResponse (chan : Channel) : Except Stop Response := do
  match ← awaitFull chan 4 with
  -- errno has just been set to 0, so every error is taken for the end of the input
  | (none, chan) => .ok ⟨-1, [.eof], chan⟩
  | (some header, chan) =>
    let messageLength := decode header
    if messageLength > MAX_MESSAGE_SIZE then .ok ⟨-1, [.tooLong], chan⟩
    else
      match ← awaitFull chan messageLength with
      | (none, chan) => .ok ⟨-1, [], chan⟩
      | (some responseBody, chan) =>
        match deserialize (messageLength + 1) responseBody with
        | none => .error .fault
        | some (responseValue, lines) =>
          -- a positive result is compared with the length, as unsigned numbers
          if 0 < responseValue ∧ (responseValue % 2 ^ 32).toNat ≠ messageLength then
            .ok ⟨-1, lines ++ [.badResponse], chan⟩
          else .ok ⟨responseValue, lines, chan⟩

end Coxx.Client
