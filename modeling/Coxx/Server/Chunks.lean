import Coxx.Common.Parsing
import Coxx.Common.Surroundings
import Coxx.Server.Connections

/-! One connection whose writes never block: however its input is cut, it executes every complete frame. -/

set_option autoImplicit false

namespace Coxx.Server

open Library Common

/-- Bytes that arrive, and the answers of the kernel to the call of `io` that they cause. -/
structure Delivery where
  bytes : Bytes
  reads : List Answer
  writes : List Answer

/-- Every read and every write transfers something, or is interrupted. -/
def Delivery.Willing (d : Delivery) : Prop := Common.Willing d.reads ∧ Common.Willing d.writes

/-- The bytes arrive, and the end of the input with them if `eof` is set. -/
def arrival (eof : Bool) (s : Session Database) (d : Delivery) : Session Database :=
  { s with chan := { s.chan with
    incoming := s.chan.incoming ++ d.bytes, closed := eof, reads := d.reads, writes := d.writes, lastRead := none } }

/-- `io` on what has arrived. In END the connection is given up. -/
def deliver (eof : Bool) (s : Session Database) (d : Delivery) : Except Fault (Session Database) :=
  if (arrival eof s d).conn.state = .END then .ok (arrival eof s d) else (arrival eof s d).io execute

def feed (s : Session Database) : List Delivery → Except Fault (Session Database)
  | [] => .ok s
  | d :: rest => do
    let s ← deliver false s d
    feed s rest

/-- A stream in pieces. The last of them may end it. -/
structure Splitting where
  front : List Delivery
  last : Delivery

def Splitting.stream (p : Splitting) : Bytes := (p.front.map Delivery.bytes).flatten ++ p.last.bytes

def Splitting.Willing (p : Splitting) : Prop := (∀ d ∈ p.front, d.Willing) ∧ p.last.Willing

def serve (peer : Peer) (db : Database) (eof : Bool) (p : Splitting) : Except Fault (Session Database) := do
  let s ← feed ⟨peer, db⟩ p.front
  deliver eof s p.last

/-- What has become of a connection that was fed a stream: every complete frame is executed and answered, and the
connection has ended if the stream has, or holds a malformed frame. -/
structure Complete (db : Database) (stream : Bytes) (eof : Bool) (s : Session Database) : Prop where
  executed : s.executed.map Done.commandList = frames.all stream
  written : s.chan.written = framedReplies s.executed
  state : s.conn.state = if (frames.reason stream).isSome ∨ eof then .END else .REQ
  replays : Replays execute db s.executed s.db

/-- The same end of two connections: both stop at a command that has no result, or nothing tells them apart but the memory
behind the strings of commands still to come. -/
inductive SameEnd : Except Fault (Session Database) → Except Fault (Session Database) → Prop where
  | stuck : SameEnd (.error .command) (.error .command)
  | ok {s s' : Session Database} (db : s'.db.commandMap = s.db.commandMap) (written : s'.chan.written = s.chan.written)
      (executed : s'.executed = s.executed) (state : s'.conn.state = s.conn.state) : SameEnd (.ok s) (.ok s')

theorem SameEnd.of_ok {s : Session Database} {other : Except Fault (Session Database)} (same : SameEnd (.ok s) other) :
    ∃ s', other = .ok s' ∧ s'.db.commandMap = s.db.commandMap ∧ s'.chan.written = s.chan.written := by
  cases same with
  | ok db written _ _ => exact ⟨_, rfl, db, written⟩

section Fed

variable {db : Database} {stream : Bytes} {eof : Bool} {s : Session Database}

inductive Standing (eof : Bool) (s : Session Database) : Prop where
  | waiting (state : s.conn.state = .REQ) (wait : nextFrame s.conn.pending = .wait) (empty : s.chan.incoming = [])
      (more : eof = false)
  | stopped {reason : Malformed} (state : s.conn.state = .END) (stop : nextFrame s.conn.pending = .stop reason)
  | finished (state : s.conn.state = .END) (wait : nextFrame s.conn.pending = .wait) (empty : s.chan.incoming = [])
      (closed : eof = true)

structure Fed (db : Database) (stream : Bytes) (eof : Bool) (s : Session Database) : Prop where
  sound : s.toPeer.Sound
  delivered : s.chan.received ++ s.chan.incoming = stream
  replays : Replays execute db s.executed s.db
  whole : s.conn.unsent = []
  standing : Standing eof s

/-- Executing the frames of the stream meets a command without a result. -/
def StuckAt (db : Database) (stream : Bytes) : Prop :=
  ∃ new db' commandList, Replays execute db new db' ∧ execute db' commandList = none ∧
    new.map Done.commandList ++ [commandList] <+: frames.all stream

theorem StuckAt.append (stuck : StuckAt db stream) (more : Bytes) : StuckAt db (stream ++ more) := by
  obtain ⟨new, db', commandList, replays, none, before⟩ := stuck
  exact ⟨new, db', commandList, replays, none, before.trans (Decoder.all_append _ _)⟩

theorem Fed.complete (fed : Fed db stream eof s) : Complete db stream eof s := by
  have reads := fed.sound.reads.append s.chan.incoming
  rw [fed.delivered] at reads
  have written := fed.sound.replies
  rw [fed.whole, List.append_nil] at written
  cases fed.standing with
  | waiting state wait empty more =>
      rw [empty, List.append_nil] at reads
      refine ⟨?_, written, ?_, fed.replays⟩
      · rw [reads.all_eq, Decoder.all_wait wait, List.append_nil]
      · rw [reads.reason_eq, Decoder.reason_wait wait, more]
        exact state
  | stopped state stop =>
      -- a malformed frame stays malformed whatever follows, so the unread rest does not matter
      have stop' := frames.stop_append s.chan.incoming stop
      refine ⟨?_, written, ?_, fed.replays⟩
      · rw [reads.all_eq, Decoder.all_stop stop', List.append_nil]
      · rw [reads.reason_eq, Decoder.reason_stop stop']
        simpa using state
  | finished state wait empty closed =>
      rw [empty, List.append_nil] at reads
      refine ⟨?_, written, ?_, fed.replays⟩
      · rw [reads.all_eq, Decoder.all_wait wait, List.append_nil]
      · rw [closed]
        simpa using state

theorem not_mem_willing {answers : List Answer} (willing : Common.Willing answers) :
    .EAGAIN ∉ answers ∧ .error ∉ answers := by
  constructor
  · intro member
    rcases willing _ member with wrong | ⟨_, wrong⟩ <;> cases wrong
  · intro member
    rcases willing _ member with wrong | ⟨_, wrong⟩ <;> cases wrong

theorem deliver_fed (fed : Fed db stream false s) {d : Delivery} (willing : d.Willing) (eof : Bool) :
    Ends (StuckAt db (stream ++ d.bytes)) (Fed db (stream ++ d.bytes) eof) (deliver eof s d) := by
  have delivered : (arrival eof s d).chan.received ++ (arrival eof s d).chan.incoming = stream ++ d.bytes := by
    unfold arrival
    rw [← List.append_assoc, fed.delivered]
  have sound : (arrival eof s d).toPeer.Sound := ⟨fed.sound.conn, fed.sound.reads, fed.sound.replies, fed.sound.whole⟩
  unfold deliver
  cases fed.standing with
  | finished _ _ _ wrong => cases wrong
  | stopped state stop =>
      rw [if_pos (show (arrival eof s d).conn.state = .END from state)]
      exact ⟨sound, delivered, fed.replays, fed.whole, .stopped state stop⟩
  | waiting state wait empty more =>
      have going : ¬ (arrival eof s d).conn.state = .END := fun wrong => by cases state.symm.trans wrong
      rw [if_neg going]
      apply (io_ends sound (length_of_wait wait) going).mono
      · rintro ⟨new, db', commandList, replays, none, before⟩
        refine ⟨s.executed ++ new, db', commandList, fed.replays.trans replays, none, ?_⟩
        rw [← delivered]
        exact before
      · rintro s' ⟨sound', progress, handled⟩
        obtain ⟨new, executed, replays⟩ := progress.follows
        have replays' : Replays execute db s'.executed s'.db := by
          rw [executed]
          exact fed.replays.trans replays
        have closed : s'.chan.closed = eof := progress.closed
        cases handled with
        | flushed busy _ => cases state.symm.trans busy
        | read _ filled =>
            cases filled with
            | waiting state' _ wait' _ cause =>
                -- no EAGAIN was answered, so the loop stopped because the input was used up
                rcases cause with wrong | ⟨empty', open'⟩
                · exact absurd wrong (not_mem_willing willing.1).1
                · exact ⟨sound', progress.delivered.trans delivered, replays', sound'.conn.unsent_idle state',
                    .waiting state' (wait' wait) empty' (closed.symm.trans open')⟩
            | stopped state' stop whole =>
                exact ⟨sound', progress.delivered.trans delivered, replays', whole, .stopped state' stop⟩
            | finished state' empty' closed' whole wait' =>
                exact ⟨sound', progress.delivered.trans delivered, replays', whole,
                  .finished state' (wait' wait) empty' (closed.symm.trans closed')⟩
            | failed _ wrong => exact absurd wrong (not_mem_willing willing.1).2
            | blocked _ _ short => exact absurd willing.2 short

theorem feed_fed (fed : Fed db stream false s) {ds : List Delivery} (willing : ∀ d ∈ ds, d.Willing) :
    Ends (StuckAt db (stream ++ (ds.map Delivery.bytes).flatten))
      (Fed db (stream ++ (ds.map Delivery.bytes).flatten) false) (feed s ds) := by
  induction ds generalizing s stream with
  | nil =>
      rw [List.map_nil, List.flatten_nil, List.append_nil]
      exact fed
  | cons d ds ih =>
      rw [List.map_cons, List.flatten_cons, ← List.append_assoc]
      unfold feed
      apply Ends.bind ((deliver_fed fed (willing d (by simp)) false).mono (fun stuck => stuck.append _) fun _ fed => fed)
      intro s' fed'
      exact ih fed' fun d member => willing d (by simp [member])

theorem serve_fed {fd : Int} {readBuffer writeBuffer : Buffer} {p : Splitting} (willing : p.Willing) :
    Ends (StuckAt db p.stream) (Fed db p.stream eof) (serve (newPeer fd readBuffer writeBuffer) db eof p) := by
  have ready := newPeer_ready fd readBuffer writeBuffer
  have start : Fed db [] false ⟨newPeer fd readBuffer writeBuffer, db⟩ := by
    refine ⟨ready.sound, rfl, .nil db, List.take_zero, .waiting rfl ?_ rfl rfl⟩
    rw [show (newPeer fd readBuffer writeBuffer).conn.pending = [] from List.take_zero]
    rfl
  unfold serve Splitting.stream
  apply Ends.bind ((feed_fed start willing.1).mono (fun stuck => stuck.append _) fun _ fed => fed)
  intro s' fed'
  exact deliver_fed fed' willing.2 eof

theorem Complete.not_stuck (complete : Complete db stream eof s) : ¬ StuckAt db stream := by
  rintro ⟨new, db', commandList, replays, none, before⟩
  rw [← complete.executed] at before
  -- execution is a function of the commands: the stuck run is a part of the completed one
  obtain ⟨rest, same, later⟩ := replays.extends complete.replays ((List.prefix_append _ _).trans before)
  rw [same, List.map_append, List.prefix_append_right_inj] at before
  cases later with
  | nil => simp at before
  | @cons _ _ _ done rest result _ =>
      simp only [List.map_cons, List.cons_prefix_cons] at before
      rw [before.1, result] at none
      cases none

end Fed

/-! ### Two memories -/

/-- Commands, none of which hands a sorted set a name with a NUL byte when it comes to it. -/
def Harmless (cm : CommandMap) : List (List Bytes) → Prop
  | [] => True
  | commandList :: rest => ¬(Request.command commandList).Spills cm ∧
      ∀ around cm' reply, Request.run cm around commandList [] = some (cm', reply) → Harmless cm' rest

section Harmless

variable {cm : CommandMap} {around around' : Nat → Surroundings} {stream : Bytes} {eof : Bool} {s s' : Session Database}

theorem harmless_of_clean {commands : List (List Bytes)}
    (clean : ∀ commandList ∈ commands, ∀ name ∈ (Request.command commandList).names, Zset.Clean name) :
    Harmless cm commands := by
  induction commands generalizing cm with
  | nil => trivial
  | cons commandList rest ih =>
      obtain ⟨first, later⟩ := List.forall_mem_cons.mp clean
      exact ⟨Request.Command.not_spills_of_clean first cm, fun _ _ _ _ => ih later⟩

theorem execute_around {commandList : List Bytes} (kept : ¬(Request.command commandList).Spills cm) :
    (execute ⟨cm, around⟩ commandList).map (fun (db, reply) => (db.commandMap, reply)) =
      (execute ⟨cm, around'⟩ commandList).map fun (db, reply) => (db.commandMap, reply) := by
  simp only [execute, Option.map_map, Function.comp_def]
  rw [run_around kept (around 0) (around' 0)]

theorem Harmless.replays {new : List Done} {more : List (List Bytes)} {db : Database}
    (harmless : Harmless cm (new.map Done.commandList ++ more)) (replays : Replays execute ⟨cm, around⟩ new db) :
    ∃ later, Replays execute ⟨cm, around'⟩ new ⟨db.commandMap, later⟩ ∧ Harmless db.commandMap more := by
  induction new generalizing cm around around' with
  | nil =>
      cases replays
      exact ⟨around', .nil _, harmless⟩
  | cons done rest ih =>
      obtain ⟨kept, next⟩ := harmless
      cases replays with
      | @cons _ db1 _ _ _ result replays =>
          obtain ⟨⟨cm1, reply⟩, ran, same⟩ := Option.map_eq_some_iff.mp result
          cases same
          obtain ⟨later, replays', harmless'⟩ := @ih _ _ (fun n => around' (n + 1)) (next _ _ _ ran) replays
          refine ⟨later, .cons ?_ replays', harmless'⟩
          rw [run_around kept (around 0) (around' 0)] at ran
          simp [execute, ran]

theorem StuckAt.elsewhere (harmless : Harmless cm (frames.all stream)) (stuck : StuckAt ⟨cm, around⟩ stream) :
    StuckAt ⟨cm, around'⟩ stream := by
  obtain ⟨new, db, commandList, replays, none, more, before⟩ := stuck
  rw [← before, List.append_assoc] at harmless
  obtain ⟨later, replays', kept, _⟩ := harmless.replays replays
  refine ⟨new, _, commandList, replays', ?_, more, before⟩
  have same := @execute_around _ db.around later _ kept
  rw [none, Option.map_none] at same
  exact Option.map_eq_none_iff.mp same.symm

theorem Complete.sameEnd (harmless : Harmless cm (frames.all stream)) (left : Complete ⟨cm, around⟩ stream eof s)
    (right : Complete ⟨cm, around'⟩ stream eof s') : SameEnd (.ok s) (.ok s') := by
  have commands : s.executed.map Done.commandList ++ [] = frames.all stream := by rw [List.append_nil, left.executed]
  rw [← commands] at harmless
  obtain ⟨later, replays, _⟩ := harmless.replays left.replays
  obtain ⟨rest, more, after⟩ := replays.extends right.replays (by rw [left.executed, right.executed])
  have none : rest = [] := by
    have sizes := congrArg List.length (left.executed.trans right.executed.symm)
    rw [more] at sizes
    simpa using sizes
  rw [none, List.append_nil] at more
  rw [none] at after
  exact .ok (by rw [after.of_nil]) (by rw [left.written, right.written, more]) more (by rw [left.state, right.state])

end Harmless

/-- Feeding a stream to a connection executes all its complete frames and answers them completely, unless a command has
no result. Two ways of cutting the stream, on any two fresh connections and whatever lies in memory behind the strings of
the commands, come to the same end, unless a sorted set is handed a name with a NUL byte.
-/
theorem chunking_irrelevant {cm : CommandMap} {around around' : Nat → Surroundings} {eof : Bool} {p p' : Splitting}
    (same : p.stream = p'.stream) (willing : p.Willing) (willing' : p'.Willing) {fd fd' : Int}
    {readBuffer writeBuffer readBuffer' writeBuffer' : Buffer} :
    Ends (StuckAt ⟨cm, around⟩ p.stream) (Complete ⟨cm, around⟩ p.stream eof)
      (serve (newPeer fd readBuffer writeBuffer) ⟨cm, around⟩ eof p) ∧
    (Harmless cm (frames.all p.stream) →
      SameEnd (serve (newPeer fd readBuffer writeBuffer) ⟨cm, around⟩ eof p)
        (serve (newPeer fd' readBuffer' writeBuffer') ⟨cm, around'⟩ eof p')) := by
  have first := (@serve_fed ⟨cm, around⟩ eof fd readBuffer writeBuffer p willing).mono id fun _ fed => fed.complete
  have second := (@serve_fed ⟨cm, around'⟩ eof fd' readBuffer' writeBuffer' p' willing').mono id fun _ fed => fed.complete
  rw [← same] at second
  refine ⟨first, fun harmless => ?_⟩
  generalize serve (newPeer fd readBuffer writeBuffer) ⟨cm, around⟩ eof p = result at first
  generalize serve (newPeer fd' readBuffer' writeBuffer') ⟨cm, around'⟩ eof p' = result' at second
  -- one side done and the other stuck is impossible on the same stream
  cases result with
  | ok s =>
      cases result' with
      | ok s' => exact Complete.sameEnd harmless first second
      | error fault => exact absurd (StuckAt.elsewhere harmless second.2) (Complete.not_stuck first)
  | error fault =>
      cases result' with
      | ok s' => exact absurd (StuckAt.elsewhere harmless first.2) (Complete.not_stuck second)
      | error fault' =>
          rw [first.1, second.1]
          exact .stuck

/-! ### One request in pieces -/

def adding (name : Bytes) : List Bytes := [text "zadd", text "k", text "1", name]

def onePiece (stream : Bytes) : Splitting := ⟨[], ⟨stream, [], []⟩⟩

def twoPieces (stream : Bytes) : Splitting :=
  ⟨[⟨stream.take 5, [.ok 1], []⟩], ⟨stream.drop 5, [.EINTR], [.ok 7]⟩⟩

/-- A database that finds one byte wherever it reads behind a string. -/
def beyond (byte : UInt8) : Database := ⟨initCommandMap, fun _ => ⟨.memory fun _ => some byte, .memory fun _ => some byte⟩⟩

section Pieces

variable (stream : Bytes)

theorem twoPieces_stream : (twoPieces stream).stream = stream := by
  simp [twoPieces, Splitting.stream]

theorem onePiece_willing : (onePiece stream).Willing :=
  ⟨by simp [onePiece], by simp [onePiece, Delivery.Willing, Willing]⟩

theorem twoPieces_willing : (twoPieces stream).Willing :=
  ⟨by simp [twoPieces, Delivery.Willing, Willing], by simp [twoPieces, Delivery.Willing, Willing]⟩

end Pieces

theorem serve_request {db : Database} {p : Splitting} {commandList : List Bytes} (willing : p.Willing)
    (asked : frames.all p.stream = [commandList]) {cm : CommandMap} {reply : Bytes}
    (result : Request.run db.commandMap (db.around 0) commandList [] = some (cm, reply)) (fd : Int) :
    ∃ s, serve (newPeer fd .zeros .zeros) db false p = .ok s ∧ s.db.commandMap = cm ∧ s.executed.length = 1 := by
  have executed : execute db commandList = some (⟨cm, fun n => db.around (n + 1)⟩, reply) := by simp [execute, result]
  have ends := @serve_fed db false fd .zeros .zeros p willing
  generalize serve (newPeer fd .zeros .zeros) db false p = outcome at ends
  cases outcome with
  | error fault =>
      obtain ⟨_, new, db', other, replays, none, before⟩ := ends
      rw [asked] at before
      have first : new = [] := by
        have short := before.length_le
        rw [List.length_append, List.length_map, List.length_singleton, List.length_singleton] at short
        exact List.length_eq_zero_iff.mp (by omega)
      rw [first, List.map_nil, List.nil_append, List.cons_prefix_cons] at before
      rw [first] at replays
      rw [replays.of_nil, before.1, executed] at none
      cases none
  | ok s =>
      have complete := Fed.complete ends
      have commands := complete.executed
      rw [asked] at commands
      obtain ⟨done, only, rfl⟩ := List.map_eq_singleton_iff.mp commands
      have replays := complete.replays
      rw [only] at replays
      refine ⟨s, rfl, ?_, by rw [only]; rfl⟩
      cases replays with
      | cons first rest =>
          cases first.symm.trans executed
          rw [rest.of_nil]

/-- One request with a clean name, in two memories. -/
theorem chunking_irrelevant_pieces : ∃ s s',
    serve (newPeer 0 .zeros .zeros) (beyond 7) false (onePiece (frame (encodedCommand (adding (text "m"))))) = .ok s ∧
    serve (newPeer 1 .zeros .zeros) (beyond 8) false (twoPieces (frame (encodedCommand (adding (text "m"))))) = .ok s' ∧
    s'.db.commandMap = s.db.commandMap ∧ s'.chan.written = s.chan.written ∧ s.executed.length = 1 := by
  have asked := @frames_encoded (adding (text "m")) (by decide)
  generalize frame (encodedCommand (adding (text "m"))) = stream at asked
  obtain ⟨cm, result⟩ : ∃ cm, Request.run (beyond 7).commandMap ((beyond 7).around 0) (adding (text "m")) [] =
      some (cm, Out.num [] 1) := ⟨_, rfl⟩
  have harmless : Harmless initCommandMap (frames.all stream) := by
    rw [asked]
    exact harmless_of_clean (by decide)
  obtain ⟨_, same⟩ := @chunking_irrelevant initCommandMap (beyond 7).around (beyond 8).around false (onePiece stream)
    (twoPieces stream) (twoPieces_stream stream).symm (onePiece_willing stream) (twoPieces_willing stream) 0 1
    .zeros .zeros .zeros .zeros
  obtain ⟨s, served, _, one⟩ := serve_request (onePiece_willing stream) asked result 0
  have ends := same harmless
  rw [show serve (newPeer 0 .zeros .zeros) ⟨initCommandMap, (beyond 7).around⟩ false (onePiece stream) = .ok s from served]
    at ends
  obtain ⟨s', second, db, written⟩ := ends.of_ok
  exact ⟨s, s', served, second, db, written, one⟩

/-- A name with a NUL byte is stored with a byte from behind the string, so two memories tell the ends apart. -/
theorem memory_decides : ∃ p p' : Splitting, p.stream = p'.stream ∧ p.Willing ∧ p'.Willing ∧
    ¬SameEnd (serve (newPeer 0 .zeros .zeros) (beyond 7) false p)
      (serve (newPeer 1 .zeros .zeros) (beyond 8) false p') := by
  have asked := @frames_encoded (adding [110, 0, 120]) (by decide)
  generalize frame (encodedCommand (adding [110, 0, 120])) = stream at asked
  obtain ⟨cm, first, seven⟩ : ∃ cm, Request.run (beyond 7).commandMap ((beyond 7).around 0) (adding [110, 0, 120]) [] =
      some (cm, Out.num [] 1) ∧ ((cm.entries 0).set.map fun set => (set.nodes 0).name) = some [110, 0, 7] := ⟨_, rfl, rfl⟩
  obtain ⟨cm', second, eight⟩ : ∃ cm, Request.run (beyond 8).commandMap ((beyond 8).around 0) (adding [110, 0, 120]) [] =
      some (cm, Out.num [] 1) ∧ ((cm.entries 0).set.map fun set => (set.nodes 0).name) = some [110, 0, 8] := ⟨_, rfl, rfl⟩
  obtain ⟨s, served, rfl, _⟩ := serve_request (onePiece_willing stream) asked first 0
  obtain ⟨s', served', rfl, _⟩ := serve_request (twoPieces_willing stream) ((twoPieces_stream stream).symm ▸ asked) second 1
  refine ⟨onePiece stream, twoPieces stream, (twoPieces_stream stream).symm, onePiece_willing stream,
    twoPieces_willing stream, fun same => ?_⟩
  rw [served, served'] at same
  cases same with
  | ok db _ _ _ =>
      rw [db, seven] at eight
      exact absurd eight (by decide)

end Coxx.Server
