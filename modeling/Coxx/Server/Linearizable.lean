import Coxx.Common.Serving
import Coxx.Server.Connections

/-! The server as one store that answers its clients one request at a time: the order of the requests fits the order in
which clients see their replies and send their next requests.
-/

set_option autoImplicit false

namespace Coxx.Server

open Library Common

/-! ### Replies on the wire -/

/-- A reply is a 32-bit length and a body. -/
def nextReply (stream : Bytes) : Next UInt8 Bytes Malformed :=
  if stream.length < 4 then .wait
  else
    let messageLength := decode (stream.take 4)
    if stream.length < 4 + messageLength then .wait
    else .item ((stream.drop 4).take messageLength) (stream.drop (4 + messageLength))

theorem nextReply_item {stream body rest : Bytes} (found : nextReply stream = .item body rest) :
    4 + decode (stream.take 4) ≤ stream.length ∧ body = (stream.drop 4).take (decode (stream.take 4)) ∧
      rest = stream.drop (4 + decode (stream.take 4)) := by
  unfold nextReply at found
  dsimp only at found
  split at found
  · cases found
  · split at found
    · cases found
    · cases found
      exact ⟨by omega, rfl, rfl⟩

theorem nextReply_shorter {stream body rest : Bytes} (found : nextReply stream = .item body rest) :
    rest.length < stream.length := by
  obtain ⟨whole, _, rfl⟩ := nextReply_item found
  rw [List.length_drop]
  omega

theorem nextReply_append {stream body rest : Bytes} (more : Bytes) (found : nextReply stream = .item body rest) :
    nextReply (stream ++ more) = .item body (rest ++ more) := by
  obtain ⟨whole, rfl, rfl⟩ := nextReply_item found
  unfold nextReply
  simp only [header_append (show 4 ≤ stream.length by omega), body_append whole, List.length_append]
  rw [if_neg (by omega), if_neg (by omega), List.drop_append_of_le_length whole]

theorem nextReply_ne_stop (stream : Bytes) (reason : Malformed) : nextReply stream ≠ .stop reason := by
  unfold nextReply
  dsimp only
  split
  · simp
  · split <;> simp

def replies : Decoder UInt8 Bytes Malformed where
  next := nextReply
  item_shorter := nextReply_shorter
  item_append := nextReply_append
  stop_append _ found := absurd found (nextReply_ne_stop _ _)

theorem nextReply_frame {body : Bytes} (short : body.length < 2 ^ 32) (rest : Bytes) :
    nextReply (frame body ++ rest) = .item body rest := by
  have header : (frame body ++ rest).take 4 = encode 4 body.length := by
    rw [frame, List.append_assoc]
    exact List.take_left' (by simp)
  have size : decode (encode 4 body.length) = body.length := decode_encode (by omega)
  have tail : (frame body ++ rest).drop 4 = body ++ rest := by
    rw [frame, List.append_assoc]
    exact List.drop_left' (by simp)
  unfold nextReply
  simp only [header, size, List.length_append, length_frame]
  rw [if_neg (by omega), if_neg (by omega), tail, List.take_left, ← length_frame, List.drop_left]

theorem replies_next_frame {body : Bytes} (short : body.length < 2 ^ 32) (rest : Bytes) :
    replies.next (frame body ++ rest) = .item body rest := by
  rw [show replies.next = nextReply from rfl]
  exact nextReply_frame short rest

theorem replies_framed (executed : List Done) :
    replies.all (framedReplies executed) = executed.map fun done => packed done.reply := by
  induction executed with
  | nil => exact Decoder.all_wait rfl
  | cons done executed ih =>
      have short := length_packed done.reply
      unfold MAX_MESSAGE_SIZE at short
      have split : framedReplies (done :: executed) = frame (packed done.reply) ++ framedReplies executed := rfl
      have first := replies_next_frame (show (packed done.reply).length < 2 ^ 32 by omega) (framedReplies executed)
      rw [split, Decoder.all_item first, ih, List.map_cons]

/-! ### Real time -/

/-- What has become of the connections in the meantime. -/
inductive Since (earlier : Connections) : Connections → Prop where
  | now : Since earlier earlier
  | arrive {conns : Connections} (i : Nat) (data : Bytes) : Since earlier conns → Since earlier (conns.arrive i data)
  | close {conns : Connections} (i : Nat) : Since earlier conns → Since earlier (conns.close i)
  | io {conns : Connections} {i : Nat} {reads writes : List Answer} {s : Session Database} : Since earlier conns →
      (conns.session i reads writes).io execute = .ok s → Since earlier (conns.after i s)

/-- In an order of requests, request `k` of one connection comes before request `m` of another, if that comes at all. -/
def Precedes (order : List (Nat × Done)) (first second : Nat × Nat) : Prop :=
  ∃ front, front <+: order ∧ first.2 < front.countP (fun entry => entry.1 == first.1) ∧
    front.countP (fun entry => entry.1 == second.1) ≤ second.2

section RealTime

variable {db : Database} {earlier conns : Connections} {calls : List Call}

theorem length_own (conns : Connections) (i : Nat) :
    (conns.own i).length = conns.order.countP fun entry => entry.1 == i := by
  rw [Connections.own, List.length_map, List.countP_eq_length_filter]

theorem Since.order_isPrefix (since : Since earlier conns) : earlier.order <+: conns.order := by
  induction since with
  | now => exact List.prefix_refl _
  | arrive i data _ ih => exact ih
  | close i _ ih => exact ih
  | io _ _ ih => exact ih.trans (List.prefix_append _ _)

theorem Since.run (before : Run db earlier calls) (since : Since earlier conns) : ∃ calls, Run db conns calls := by
  induction since with
  | now => exact ⟨_, before⟩
  | arrive i data _ ih => exact ⟨_, ih.choose_spec.arrive i data⟩
  | close i _ ih => exact ⟨_, ih.choose_spec.close i⟩
  | io _ result ih => exact ⟨_, ih.choose_spec.io result⟩

/-- The whole replies that were written are those of the first requests of the connection. -/
theorem Sound.replies_isPrefix (sound : Sound db conns) (i : Nat) :
    replies.all (conns.peers i).chan.written <+: (conns.own i).map fun done => packed done.reply := by
  rw [← replies_framed, ← sound.own i, ← (sound.ready i).sound.replies]
  exact Decoder.all_append _ _

theorem Sound.requests_isPrefix (sound : Sound db conns) (i : Nat) :
    (conns.own i).map Done.commandList <+: frames.all (conns.peers i).chan.received := by
  rw [← sound.own i]
  simpa using (sound.ready i).sound.reads.isPrefix []

theorem Sound.precedes (sound : Sound db earlier) (since : Since earlier conns) {i k j m : Nat}
    (seen : k < (replies.all (earlier.peers i).chan.written).length)
    (unsent : (frames.all ((earlier.peers j).chan.received ++ (earlier.peers j).chan.incoming)).length ≤ m) :
    Precedes conns.order (i, k) (j, m) := by
  refine ⟨earlier.order, since.order_isPrefix, ?_, ?_⟩
  · have answered := (sound.replies_isPrefix i).length_le
    rw [List.length_map, length_own] at answered
    exact lt_of_lt_of_le seen answered
  · have executed := ((sound.requests_isPrefix j).trans (Decoder.all_append _ (earlier.peers j).chan.incoming)).length_le
    rw [List.length_map, length_own] at executed
    exact executed.trans unsent

end RealTime

/-! ### The server as a store -/

theorem Replays.cleanRun {db db' : Database} {trace new : List Done} (run : CleanRun db.commandMap trace)
    (replays : Replays execute db new db') (clean : ∀ done ∈ new, ∀ name ∈ done.command.names, Zset.Clean name) :
    CleanRun db'.commandMap (trace ++ new) := by
  induction replays generalizing trace with
  | nil => simpa using run
  | cons result _ ih =>
      obtain ⟨⟨cm, reply⟩, executed, value⟩ := Option.map_eq_some_iff.mp result
      obtain ⟨rfl, rfl⟩ := Prod.mk.inj value
      have next := ih (run.step (clean _ List.mem_cons_self) executed) fun done inside =>
        clean done (List.mem_cons_of_mem _ inside)
      simpa using next

theorem Run.serves {around : Nat → Surroundings} {conns : Connections} {calls : List Call}
    (run : Run ⟨initCommandMap, around⟩ conns calls)
    (clean : ∀ entry ∈ conns.order, ∀ name ∈ entry.2.command.names, Zset.Clean name) :
    ∃ contents, Contents.Serves (conns.order.map Prod.snd) contents := by
  have executed := Replays.cleanRun CleanRun.start run.sound.replays fun done member => by
    obtain ⟨entry, inside, rfl⟩ := List.mem_map.mp member
    exact clean entry inside
  obtain ⟨contents, _, serves, _⟩ := executed.serves
  exact ⟨contents, serves⟩

/-- All clients together are answered by one store, one request after the other. Each of them is answered to its own
requests, in the order in which it sent them; and no request comes before one whose reply had been seen before it was
sent. -/
theorem linearizable {around : Nat → Surroundings} {conns : Connections} {calls : List Call}
    (run : Run ⟨initCommandMap, around⟩ conns calls)
    (clean : ∀ entry ∈ conns.order, ∀ name ∈ entry.2.command.names, Zset.Clean name) :
    (∃ contents, Contents.Serves (conns.order.map Prod.snd) contents) ∧
    (∀ i, (conns.own i).map Done.commandList <+: frames.all (conns.peers i).chan.received ∧
      replies.all (conns.peers i).chan.written <+: (conns.own i).map fun done => packed done.reply) ∧
    ∀ earlier calls, Run ⟨initCommandMap, around⟩ earlier calls → Since earlier conns → ∀ i k j m,
      k < (replies.all (earlier.peers i).chan.written).length →
      (frames.all ((earlier.peers j).chan.received ++ (earlier.peers j).chan.incoming)).length ≤ m →
      Precedes conns.order (i, k) (j, m) := by
  have sound := run.sound
  refine ⟨run.serves clean, fun i => ⟨sound.requests_isPrefix i, sound.replies_isPrefix i⟩, ?_⟩
  intro earlier calls before since i k j m seen unsent
  exact before.sound.precedes since seen unsent

def emptyDone : Done := ⟨[], Out.err [] Error.UNKNOWN.code (text "Unknown cmd")⟩

/-- A client whose request arrives after another client has its reply. -/
theorem linearizable_two : ∃ conns calls, Run newDatabase conns calls ∧ conns.order.length = 1 ∧
    (∃ contents, Contents.Serves (conns.order.map Prod.snd) contents) ∧ Precedes conns.order (0, 0) (1, 0) := by
  have evaluated : ∃ s, ((fresh.arrive 0 emptyFrame).session 0 [] []).io execute = .ok s ∧
      s.executed = [emptyDone] ∧ s.conn.state = .REQ :=
    ⟨_, rfl, rfl, rfl⟩
  obtain ⟨s, result, executed, idle⟩ := evaluated
  have before := (fresh_run.arrive 0 emptyFrame).io result
  have entries : (((fresh.arrive 0 emptyFrame).after 0 s).arrive 1 emptyFrame).order = [(0, emptyDone)] := by
    rw [Connections.arrive, Connections.setChannel, Connections.after, executed]
    rfl
  obtain ⟨served, _, order⟩ := linearizable (before.arrive 1 emptyFrame) (by
    rw [entries]
    intro entry member
    rw [List.mem_singleton.mp member]
    exact (List.forall_mem_nil _))
  have precedes := order _ _ before (Since.now.arrive 1 emptyFrame) 0 0 1 0
  refine ⟨_, _, before.arrive 1 emptyFrame, by rw [entries]; rfl, served, precedes ?_ ?_⟩
  · have account := (before.sound.ready 0).sound
    have peer : ((fresh.arrive 0 emptyFrame).after 0 s).peers 0 = s.toPeer := by simp [Connections.after]
    rw [peer] at account ⊢
    have written := account.replies
    rw [account.conn.unsent_idle idle, List.append_nil, executed] at written
    rw [written, replies_framed]
    decide
  · exact (congrArg List.length (Decoder.all_wait (show frames.next [] = .wait from rfl))).le

end Coxx.Server
