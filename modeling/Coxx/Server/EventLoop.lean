import Coxx.Common.Effects
import Coxx.Server.Connections

/-! The event loop of server/server.cxx, one event at a time.

The calls that it makes on descriptors are recorded. Which descriptors are open, and which events of them epoll reports,
is read off this record; what the kernel answers is given with each event.
-/

set_option autoImplicit false

namespace Coxx.Server

open Library Common

def MAX_EVENTS : Nat := 32

/-- The flags of an `epoll_event`. EPOLLET is set on every descriptor. -/
structure Events where
  EPOLLIN : Bool
  EPOLLOUT : Bool
  EPOLLRDHUP : Bool
  EPOLLHUP : Bool
  deriving DecidableEq, Repr

def Events.ready (events : Events) : Bool := events.EPOLLIN || events.EPOLLOUT

def Events.hangsUp (events : Events) : Bool := events.EPOLLRDHUP || events.EPOLLHUP

structure Event where
  fd : Int
  events : Events
  deriving DecidableEq, Repr

inductive Syscall where
  /-- an `accept` that returned `fd` -/
  | accept (fd : Int)
  /-- `epoll_ctl` with EPOLL_CTL_ADD -/
  | add (fd : Int) (events : Events)
  /-- `epoll_ctl` with EPOLL_CTL_DEL -/
  | del (fd : Int)
  /-- the reads and writes of a call of `Connection::io` -/
  | io (fd : Int)
  | close (fd : Int)
  deriving DecidableEq, Repr

/-- What is undefined, or fails an assertion, in the loop. -/
inductive Crash where
  /-- an index outside of `connectionByFileDescriptor` -/
  | outside
  /-- a call through an empty pointer -/
  | noConnection
  | io (fault : Fault)
  deriving DecidableEq, Repr

/-! ### The kernel -/

def opens (fd : Int) (isOpen : Bool) : Syscall → Bool
  | .accept target => if target = fd then true else isOpen
  | .close target => if target = fd then false else isOpen
  | _ => isOpen

/-- What a call does to the interest list of epoll. A descriptor that is closed leaves it. -/
def registers (fd : Int) (registered : Option Events) : Syscall → Option Events
  | .add target events => if target = fd then some events else registered
  | .del target | .close target => if target = fd then none else registered
  | _ => registered

def openAfter (before : Bool) (log : List Syscall) (fd : Int) : Bool := log.foldl (opens fd) before

def interest (log : List Syscall) (fd : Int) : Option Events := log.foldl (registers fd) none

/-! ### The loop -/

/-- The variables of `Server::run`, and the calls it has made. -/
structure Loop where
  /-- `socket.getFd()` -/
  listener : Int
  connectionByFileDescriptor : List (Option Peer)
  db : Database
  log : List Syscall

/-- What the kernel gives while an event is handled: the result of `accept`, memory for the buffers of a connection, and
the answers to the reads and writes. -/
structure Input where
  accepted : Int
  readBuffer : Buffer
  writeBuffer : Buffer
  reads : List Answer
  writes : List Answer

def Input.session (input : Input) (peer : Peer) (db : Database) : Session Database where
  conn := peer.conn
  chan := { peer.chan with reads := input.reads, writes := input.writes, lastRead := none }
  executed := peer.executed
  db := db

/-- The state in front of the loop: the listening socket is registered. -/
def newLoop (listener : Int) (db : Database) : Loop where
  listener := listener
  connectionByFileDescriptor := List.replicate MAX_EVENTS none
  db := db
  log := [.add listener ⟨true, true, false, false⟩]

namespace Loop

/-- Whether a descriptor is open: the listening socket from the start on. -/
def isOpen (s : Loop) (fd : Int) : Bool := openAfter (fd == s.listener) s.log fd

def connected (s : Loop) (fd : Int) : Bool := openAfter false s.log fd

def call (s : Loop) (call : Syscall) : Loop := { s with log := s.log ++ [call] }

/-- `connectionByFileDescriptor[fd]`; none outside of the vector. -/
def slot (s : Loop) (fd : Int) : Option (Option Peer) :=
  if fd < 0 then none else s.connectionByFileDescriptor[fd.toNat]?

def setSlot (s : Loop) (fd : Int) (conn : Option Peer) : Loop :=
  { s with connectionByFileDescriptor := s.connectionByFileDescriptor.set fd.toNat conn }

def destroy (s : Loop) (conn : Option Peer) : Loop :=
  match conn with
  | none => s
  | some peer => s.call (.close peer.conn.fd)

/-- `connectionByFileDescriptor[fd].reset()` -/
def reset (s : Loop) (fd : Int) : Except Crash Loop :=
  match s.slot fd with
  | none => .error .outside
  | some conn => .ok ((s.setSlot fd none).destroy conn)

/-- `connectionByFileDescriptor.resize(connectionFd + 1)` where the vector is too small. -/
def resize (s : Loop) (connectionFd : Int) : Loop :=
  { s with connectionByFileDescriptor := s.connectionByFileDescriptor ++
      List.replicate (connectionFd.toNat + 1 - s.connectionByFileDescriptor.length) none }

/-- A connection that was accepted takes its slot, and what the slot held is destroyed. -/
def accept (s : Loop) (input : Input) : Except Crash Loop :=
  let connectionFd := input.accepted
  let s := s.call (.accept connectionFd)
  let s := s.call (.add connectionFd ⟨true, false, true, true⟩)
  let s := s.resize connectionFd
  match s.slot connectionFd with
  | none => .error .outside
  | some conn => .ok ((s.setSlot connectionFd (some (newPeer connectionFd input.readBuffer input.writeBuffer))).destroy conn)

def serve (s : Loop) (input : Input) (event : Event) : Except Crash Loop :=
  match s.slot event.fd with
  | none => .error .outside
  -- an empty pointer is reported, and used all the same
  | some conn =>
    if event.events.ready then
      match conn with
      | none => .error .noConnection
      | some peer =>
        match (input.session peer s.db).io execute with
        | .error fault => .error (.io fault)
        | .ok session =>
          let s := (({ s with db := session.db }).call (.io peer.conn.fd)).setSlot event.fd (some session.toPeer)
          if session.conn.state = .END then (s.call (.del session.conn.fd)).reset session.conn.fd else .ok s
    else .ok s

/-- The end of the loop for every event but a failed `accept`. -/
def hangUp (s : Loop) (event : Event) : Except Crash Loop :=
  if event.events.hangsUp then ((s.call (.del event.fd)).call (.close event.fd)).reset event.fd else .ok s

def handle (s : Loop) (input : Input) (event : Event) : Except Crash Loop :=
  if event.fd = s.listener then
    if input.accepted < 0 then .ok s
    else s.accept input >>= fun s => s.hangUp event
  else s.serve input event >>= fun s => s.hangUp event

/-- Data from a client, or the end of it. -/
def deliver (s : Loop) (fd : Int) (data : Bytes) (closed : Bool) : Loop :=
  match s.slot fd with
  | some (some peer) => s.setSlot fd (some { peer with chan := { peer.chan with
      incoming := peer.chan.incoming ++ data, closed := peer.chan.closed || closed } })
  | _ => s

end Loop

/-- `accept` returns a negative value, or a number that is not open. -/
def Input.Valid (input : Input) (s : Loop) : Prop := input.accepted < 0 ∨ s.isOpen input.accepted = false

/-- Runs of the loop: the events handled so far, and those of the batch still to be handled. -/
inductive Loop.Run (start : Loop) : Loop → List Event → List Event → Prop where
  | start : Run start start [] []
  | wait {s : Loop} {handled batch : List Event} : Run start s handled [] → (batch.map Event.fd).Nodup →
      (∀ event ∈ batch, (interest s.log event.fd).isSome) → Run start s handled batch
  | deliver {s : Loop} {handled rest : List Event} (fd : Int) (data : Bytes) (closed : Bool) :
      Run start s handled rest → Run start (s.deliver fd data closed) handled rest
  | handle {s s' : Loop} {handled rest : List Event} {event : Event} {input : Input} :
      Run start s handled (event :: rest) → input.Valid s → s.handle input event = .ok s' →
      Run start s' (handled ++ [event]) rest

end Coxx.Server
