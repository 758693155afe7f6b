import Coxx.Common.Service

/-! Connections that share the database of the server, in any interleaving of their calls of `io`. -/

set_option autoImplicit false

namespace Coxx.Server

open Library Common

/-- The static `commandMap`, with what lies behind the strings of the commands still to come. -/
structure Database where
  commandMap : CommandMap
  around : Nat → Surroundings

/-- `request(command, output)` with an empty output. -/
def execute : Executor Database := fun db commandList =>
  (Request.run db.commandMap (db.around 0) commandList []).map fun (commandMap, output) =>
    (⟨commandMap, fun n => db.around (n + 1)⟩, output)

def newDatabase : Database := ⟨initCommandMap, fun _ => ⟨.guarded, .guarded⟩⟩

/-- The connections of the server, by number. The order of all executed requests is only recorded. -/
structure Connections where
  peers : Nat → Peer
  db : Database
  order : List (Nat × Done)

def newPeer (fd : Int) (readBuffer writeBuffer : Buffer) : Peer where
  conn := newConnection fd .REQ 0 readBuffer writeBuffer
  chan := ⟨[], false, [], [], [], [], none⟩
  executed := []

namespace Connections

def setChannel (conns : Connections) (i : Nat) (chan : Channel) : Connections :=
  { conns with peers := Function.update conns.peers i { conns.peers i with chan := chan } }

@[simp] theorem setChannel_conn (conns : Connections) (i j : Nat) (chan : Channel) :
    ((conns.setChannel i chan).peers j).conn = (conns.peers j).conn := by
  by_cases same : j = i
  · subst same
    simp [setChannel]
  · simp [setChannel, same]

def arrive (conns : Connections) (i : Nat) (data : Bytes) : Connections :=
  conns.setChannel i { (conns.peers i).chan with incoming := (conns.peers i).chan.incoming ++ data }

def close (conns : Connections) (i : Nat) : Connections :=
  conns.setChannel i { (conns.peers i).chan with closed := true }

def session (conns : Connections) (i : Nat) (reads writes : List Answer) : Session Database where
  conn := (conns.peers i).conn
  chan := { (conns.peers i).chan with reads := reads, writes := writes, lastRead := none }
  executed := (conns.peers i).executed
  db := conns.db

def after (conns : Connections) (i : Nat) (s : Session Database) : Connections where
  peers := Function.update conns.peers i s.toPeer
  db := s.db
  order := conns.order ++ (s.executed.drop (conns.peers i).executed.length).map fun done => (i, done)

def own (conns : Connections) (i : Nat) : List Done :=
  (conns.order.filter fun (j, _) => j == i).map Prod.snd

end Connections

/-- A call of `io`: the connection before and after it, and the answers to its writes. -/
structure Call where
  before : Peer
  writes : List Answer
  after : Peer

inductive Run (db : Database) : Connections → List Call → Prop where
  | start (fds : Nat → Int) (readBuffers writeBuffers : Nat → Buffer) :
      Run db ⟨fun i => newPeer (fds i) (readBuffers i) (writeBuffers i), db, []⟩ []
  | arrive {conns : Connections} {calls : List Call} (i : Nat) (data : Bytes) :
      Run db conns calls → Run db (conns.arrive i data) calls
  | close {conns : Connections} {calls : List Call} (i : Nat) : Run db conns calls → Run db (conns.close i) calls
  | io {conns : Connections} {calls : List Call} {i : Nat} {reads writes : List Answer} {s : Session Database} :
      Run db conns calls → (conns.session i reads writes).io execute = .ok s →
      Run db (conns.after i s) (calls ++ [⟨conns.peers i, writes, s.toPeer⟩])

/-- A frame with an empty command, and two fresh connections to send it to. -/
def emptyFrame : Bytes := frame [0, 0, 0, 0]

def fresh : Connections := ⟨fun i => newPeer i .zeros .zeros, newDatabase, []⟩

theorem fresh_run : Run newDatabase fresh [] := .start _ _ _

/-! ### The invariant -/

/-- A connection between two calls: the account of its streams, and room for more input. -/
structure Ready (peer : Peer) : Prop where
  sound : peer.Sound
  room : peer.conn.state ≠ .END → peer.conn.pending.length < 4 + MAX_MESSAGE_SIZE

structure Sound (db : Database) (conns : Connections) : Prop where
  ready : ∀ i, Ready (conns.peers i)
  own : ∀ i, (conns.peers i).executed = conns.own i
  replays : Replays execute db (conns.order.map Prod.snd) conns.db

section Sound

variable {db : Database} {conns : Connections} {calls : List Call} {i : Nat}

theorem newPeer_ready (fd : Int) (readBuffer writeBuffer : Buffer) : Ready (newPeer fd readBuffer writeBuffer) := by
  have nothing : (newPeer fd readBuffer writeBuffer).conn.pending = [] := List.take_zero
  have unsent : (newPeer fd readBuffer writeBuffer).conn.unsent = [] := List.take_zero
  exact {
    sound := {
      conn := ⟨le_refl _, Nat.zero_le _, Nat.zero_le _, fun _ => ⟨rfl, rfl⟩, fun wrong => by cases wrong⟩
      reads := by rw [nothing]; exact .nil _
      replies := by rw [unsent]; rfl
      whole := List.prefix_refl _ }
    room := fun _ => by rw [nothing]; decide }

theorem Sound.setChannel (sound : Sound db conns) {chan : Channel} (received : chan.received = (conns.peers i).chan.received)
    (written : chan.written = (conns.peers i).chan.written) : Sound db (conns.setChannel i chan) where
  ready := by
    intro j
    by_cases same : j = i
    · subst same
      have ready := sound.ready j
      simp only [Connections.setChannel, Function.update_self]
      refine ⟨⟨ready.sound.conn, ?_, ?_, ?_⟩, ready.room⟩
      · rw [received]; exact ready.sound.reads
      · rw [written]; exact ready.sound.replies
      · rw [written]; exact ready.sound.whole
    · simp only [Connections.setChannel, Function.update_of_ne same]
      exact sound.ready j
  own := by
    intro j
    by_cases same : j = i
    · subst same
      simp only [Connections.setChannel, Function.update_self]
      exact sound.own j
    · simp only [Connections.setChannel, Function.update_of_ne same]
      exact sound.own j
  replays := sound.replays

theorem Sound.io_ends (sound : Sound db conns) (state : (conns.peers i).conn.state ≠ .END) (reads writes : List Answer) :
    Ends (Stuck execute (conns.session i reads writes))
      (fun s => s.toPeer.Sound ∧ Progress execute (conns.session i reads writes) s ∧
        Handled (conns.session i reads writes) s)
      ((conns.session i reads writes).io execute) := by
  have ready := sound.ready i
  exact Common.io_ends ⟨ready.sound.conn, ready.sound.reads, ready.sound.replies, ready.sound.whole⟩ (ready.room state)
    state

section Result

variable {reads writes : List Answer} {s : Session Database}

theorem io_end (ended : (conns.peers i).conn.state = .END) (reads writes : List Answer) :
    (conns.session i reads writes).io execute = .error .notExpected := by
  unfold Session.io
  rw [show (conns.session i reads writes).conn.state = .END from ended]

theorem open_of_ok (result : (conns.session i reads writes).io execute = .ok s) :
    (conns.peers i).conn.state ≠ .END := by
  intro ended
  rw [io_end ended] at result
  cases result

theorem Sound.io_ok (sound : Sound db conns) (result : (conns.session i reads writes).io execute = .ok s) :
    s.toPeer.Sound ∧ Progress execute (conns.session i reads writes) s ∧ Handled (conns.session i reads writes) s := by
  have ends := sound.io_ends (open_of_ok result) reads writes
  rw [result] at ends
  exact ends

end Result

theorem own_after (conns : Connections) (i j : Nat) (s : Session Database) :
    (conns.after i s).own j =
      conns.own j ++ if j = i then s.executed.drop (conns.peers i).executed.length else [] := by
  unfold Connections.own Connections.after
  simp only
  generalize s.executed.drop (conns.peers i).executed.length = new
  rw [List.filter_append, List.map_append]
  congr 1
  by_cases same : j = i
  · rw [if_pos same, List.filter_eq_self.mpr]
    · simp [Function.comp_def]
    · intro entry member
      obtain ⟨done, _, rfl⟩ := List.mem_map.mp member
      simp [same]
  · rw [if_neg same, List.filter_eq_nil_iff.mpr]
    · rfl
    · intro entry member
      obtain ⟨done, _, rfl⟩ := List.mem_map.mp member
      simpa using fun equal => same equal.symm

theorem Sound.io {reads writes : List Answer} {s : Session Database} (sound : Sound db conns)
    (result : (conns.session i reads writes).io execute = .ok s) : Sound db (conns.after i s) := by
  obtain ⟨sound', progress, handled⟩ := sound.io_ok result
  -- what is appended to the order is exactly what the call executed
  obtain ⟨new, executed, replays⟩ := progress.follows
  have fresh : s.executed.drop (conns.peers i).executed.length = new := by
    rw [executed]
    exact List.drop_left
  exact {
    ready := by
      intro j
      by_cases same : j = i
      · subst same
        simp only [Connections.after, Function.update_self]
        exact ⟨sound', handled.room ((sound.ready j).room (open_of_ok result))⟩
      · simp only [Connections.after, Function.update_of_ne same]
        exact sound.ready j
    own := by
      intro j
      rw [own_after, fresh, ← sound.own j]
      by_cases same : j = i
      · subst same
        simp only [Connections.after, Function.update_self, if_pos]
        exact executed
      · simp only [Connections.after, Function.update_of_ne same, if_neg same, List.append_nil]
    replays := by
      simp only [Connections.after, fresh, List.map_append, List.map_map, Function.comp_def, List.map_id']
      exact sound.replays.trans replays }

theorem Run.sound (run : Run db conns calls) : Sound db conns := by
  induction run with
  | start fds readBuffers writeBuffers =>
      exact ⟨fun i => newPeer_ready _ _ _, fun i => rfl, .nil db⟩
  | arrive i data _ ih => exact ih.setChannel rfl rfl
  | close i _ ih => exact ih.setChannel rfl rfl
  | io _ result ih => exact ih.io result

end Sound

/-! ### Serial processing -/

/-- The executed requests of all connections form one serial history of the database. Those of a connection are the
first frames of its input, and its output is a prefix of their replies that lacks a part of the last one at most. -/
theorem serial_processing {db : Database} {conns : Connections} {calls : List Call} (run : Run db conns calls) :
    Replays execute db (conns.order.map Prod.snd) conns.db ∧
    ∀ i,
      (conns.own i).map Done.commandList <+: frames.all (conns.peers i).chan.received ∧
      (conns.peers i).chan.written <+: framedReplies (conns.own i) ∧
      framedReplies (conns.own i).dropLast <+: (conns.peers i).chan.written := by
  have sound := run.sound
  refine ⟨sound.replays, fun i => ?_⟩
  have account := (sound.ready i).sound
  rw [← sound.own i]
  refine ⟨?_, ?_, account.whole⟩
  · have first := account.reads.isPrefix []
    rwa [List.append_nil] at first
  · rw [← account.replies]
    exact List.prefix_append _ _

/-- Two requests in one read, the first reply cut after 9 bytes. -/
theorem serial_processing_pipelined : ∃ conns calls, Run newDatabase conns calls ∧
    ((conns.own 0).map Done.commandList = [[]] ∧ (conns.peers 0).chan.written.length = 9) ∧
    (conns.own 0).map Done.commandList <+: frames.all (conns.peers 0).chan.received ∧
    (conns.peers 0).chan.written <+: framedReplies (conns.own 0) := by
  have run := (fresh_run.arrive 0 (emptyFrame ++ emptyFrame)).io
    (show ((fresh.arrive 0 (emptyFrame ++ emptyFrame)).session 0 [] [.ok 9, .EAGAIN]).io execute = .ok _ from rfl)
  have serial := (serial_processing run).2 0
  exact ⟨_, _, run, ⟨rfl, rfl⟩, serial.1, serial.2.1⟩

end Coxx.Server
