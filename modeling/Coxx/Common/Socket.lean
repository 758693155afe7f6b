import Coxx.Bytes

/-! The calls read() and write() on a descriptor, and the transfers of common/socket.cxx.

The kernel answers every call from a list of answers that is given with the descriptor. When the
list is used up it transfers as much as it can.
-/

set_option autoImplicit false

namespace Coxx.Common

/-- The result of a call: a count, or -1 with an errno. -/
inductive Answer where
  | ok (count : Nat)
  | EAGAIN
  | EINTR
  | error
  deriving DecidableEq, Repr

/-- A descriptor. The bytes that were read and written so far and the last answer to a read are only recorded. -/
structure Channel where
  incoming : Bytes
  closed : Bool
  reads : List Answer
  writes : List Answer
  received : Bytes
  written : Bytes
  lastRead : Option Answer

namespace Channel

/-- A read that takes up to `size` bytes. At the end of the input it is EOF or there is nothing yet. -/
def take (chan : Channel) (size : Nat) : Answer × Bytes × Channel :=
  match chan.incoming with
  | [] =>
    let answer := if chan.closed then .ok 0 else .EAGAIN
    (answer, [], { chan with lastRead := some answer })
  | _ :: _ =>
    let data := chan.incoming.take size
    (.ok data.length, data, { chan with
      incoming := chan.incoming.drop size
      received := chan.received ++ data
      lastRead := some (.ok data.length) })

/-- `read(fd, _, size)`: the answer, and the bytes put into the buffer. A positive count is at most `size`. -/
def read (chan : Channel) (size : Nat) : Answer × Bytes × Channel :=
  match chan.reads with
  | [] => chan.take size
  | .ok count :: rest => { chan with reads := rest }.take (min size (max 1 count))
  | answer :: rest => (answer, [], { chan with reads := rest, lastRead := some answer })

def write (chan : Channel) (data : Bytes) : Answer × Channel :=
  match chan.writes with
  | [] => (.ok data.length, { chan with written := chan.written ++ data })
  | .ok count :: rest =>
    (.ok (min count data.length), { chan with writes := rest, written := chan.written ++ data.take count })
  | answer :: rest => (answer, { chan with writes := rest })

/-- A call that is repeated while it is interrupted; `fuel` repetitions are possible. -/
def readAgain (fuel : Nat) (chan : Channel) (size : Nat) : Answer × Bytes × Channel :=
  match fuel with
  | 0 => chan.read size
  | fuel + 1 =>
    match chan.read size with
    | (.EINTR, _, chan) => readAgain fuel chan size
    | result => result

def writeAgain (fuel : Nat) (chan : Channel) (data : Bytes) : Answer × Channel :=
  match fuel with
  | 0 => chan.write data
  | fuel + 1 =>
    match chan.write data with
    | (.EINTR, chan) => writeAgain fuel chan data
    | result => result

end Channel

namespace Socket

/-- The loop of `readFull`, which has read `buffer` already. -/
def readFrom (fuel : Nat) (chan : Channel) (buffer : Bytes) (numberOfBytes : Nat) : Option Bytes × Channel :=
  if buffer.length < numberOfBytes then
    match fuel, chan.read (numberOfBytes - buffer.length) with
    | fuel + 1, (.ok (_ + 1), data, chan) => readFrom fuel chan (buffer ++ data) numberOfBytes
    | _, (_, _, chan) => (none, chan)
  else (some buffer, chan)

/-- The buffer is none for the result -1. Every call reads at least one byte. -/
def readFull (chan : Channel) (numberOfBytes : Nat) : Option Bytes × Channel :=
  readFrom numberOfBytes chan [] numberOfBytes

/-- The loop of `writeAll`, which has the bytes of `buffer` left to write. -/
def writeFrom (fuel : Nat) (chan : Channel) (buffer : Bytes) : Int × Channel :=
  match buffer with
  | [] => (0, chan)
  | _ :: _ =>
    match fuel, chan.write buffer with
    | fuel + 1, (.ok (count + 1), chan) => writeFrom fuel chan (buffer.drop (count + 1))
    | _, (_, chan) => (-1, chan)

/-- The buffer is first resized to the size that is to be written. -/
def writeAll (chan : Channel) (buffer : Bytes) (numberOfBytes : Nat) : Int × Channel :=
  writeFrom numberOfBytes chan ((buffer ++ List.replicate (numberOfBytes - buffer.length) 0).take numberOfBytes)

end Socket

end Coxx.Common
