import Coxx.Client.Copies
import Coxx.Client.Replies
import Coxx.Server.Linearizable

/-! A whole run of the client against a connection of the server: what it prints is the answer of the store. -/

set_option autoImplicit false

namespace Coxx.Client

open Library Common Server

/-- What `run` reports on the error output. -/
inductive Failure where
  | sendRequest
  | readResponse
  deriving DecidableEq, Repr

/-- `waits` says that the last `read` has not returned. -/
structure Report where
  lines : List Line
  failures : List Failure
  chan : Channel
  waits : Bool

/-- What is reported of a response that is read after a request was sent with the result `sendErr`. -/
def reported (sendErr : Int) : Except Stop Response → Except Fault Report
  | .error .fault => .error .bounds
  | .error (.waits chan) => .ok ⟨[], if sendErr ≠ 0 then [.sendRequest] else [], chan, true⟩
  | .ok response => .ok ⟨response.lines, (if sendErr ≠ 0 then [.sendRequest] else []) ++
      if response.result = -1 then [.readResponse] else [], response.chan, false⟩

/-- `Client::run` on a connected socket. A response is read even when the request was not sent. -/
def run (chan : Channel) (behind : Nat → UInt8) (commands : List Bytes) : Except Fault Report := do
  let (sendErr, chan) ← sendRequest chan behind commands
  reported sendErr (readResponse chan)

/-! ### Sending -/

structure SameInput (chan chan' : Channel) : Prop where
  incoming : chan'.incoming = chan.incoming
  closed : chan'.closed = chan.closed
  reads : chan'.reads = chan.reads

theorem SameInput.trans {chan1 chan2 chan3 : Channel} (first : SameInput chan1 chan2) (second : SameInput chan2 chan3) :
    SameInput chan1 chan3 :=
  ⟨second.incoming.trans first.incoming, second.closed.trans first.closed, second.reads.trans first.reads⟩

theorem write_input (chan : Channel) (data : Bytes) : SameInput chan (chan.write data).2 := by
  unfold Channel.write
  split <;> exact ⟨rfl, rfl, rfl⟩

theorem writeFrom_input (fuel : Nat) (chan : Channel) (buffer : Bytes) :
    SameInput chan (Socket.writeFrom fuel chan buffer).2 := by
  induction fuel generalizing chan buffer with
  | zero =>
      unfold Socket.writeFrom
      cases buffer with
      | nil => exact ⟨rfl, rfl, rfl⟩
      | cons first rest => exact write_input chan _
  | succ fuel ih =>
      by_cases none : buffer = []
      · subst none
        unfold Socket.writeFrom
        exact ⟨rfl, rfl, rfl⟩
      · have kept := write_input chan buffer
        obtain ⟨answer, chan1, sent, wrote, _, ⟨_, failed, _⟩ | ⟨count, rfl, _⟩⟩ := chan.write_steady none
        all_goals rw [wrote] at kept
        · rw [writeFrom_failed none wrote failed]
          exact kept
        · rw [writeFrom_taken none wrote]
          exact kept.trans (ih _ _)

theorem writeFrom_code {fuel : Nat} {chan : Channel} {buffer : Bytes} (enough : buffer.length ≤ fuel)
    (whole : (Socket.writeFrom fuel chan buffer).2.written = chan.written ++ buffer) :
    (Socket.writeFrom fuel chan buffer).1 = 0 := by
  induction fuel generalizing chan buffer with
  | zero =>
      obtain rfl : buffer = [] := List.length_eq_zero_iff.mp (by omega)
      unfold Socket.writeFrom
      rfl
  | succ fuel ih =>
      by_cases none : buffer = []
      · subst none
        unfold Socket.writeFrom
        rfl
      · obtain ⟨answer, chan1, sent, wrote, written, failed | taken⟩ := chan.write_steady none
        · obtain ⟨rfl, failed, _⟩ := failed
          rw [writeFrom_failed none wrote failed, written, List.append_nil] at whole
          exact absurd (List.self_eq_append_right.mp whole) none
        · obtain ⟨count, rfl, rfl, inside, _⟩ := taken
          rw [writeFrom_taken none wrote] at whole ⊢
          refine ih (by rw [List.length_drop]; omega) ?_
          rw [whole, written, List.append_assoc, List.take_append_drop]

theorem frame_header {data body : Bytes} (start : data <+: frame body) (header : 4 ≤ data.length)
    (short : body.length < 2 ^ 32) : decode (data.take 4) = body.length := by
  obtain ⟨more, same⟩ := start
  have front : (frame body).take 4 = encode 4 body.length := List.take_left' (by simp)
  rw [← header_append header more, same, front]
  exact decode_encode (by omega)

/-- What a client has sent, when it has not overrun its buffer. -/
structure Sent (chan chan' : Channel) (commands : List Bytes) (code : Int) (sent : Bytes) : Prop
    extends SameInput chan chan' where
  written : chan'.written = chan.written ++ sent
  start : sent <+: frame (encodedCommand commands)
  small : sent ≠ [] → (encodedCommand commands).length ≤ MAX_MESSAGE_SIZE
  whole : code = 0 ↔ sent = frame (encodedCommand commands)

theorem sendRequest_sent {chan chan' : Channel} {behind : Nat → UInt8} {commands : List Bytes} {code : Int}
    (result : sendRequest chan behind commands = .ok (code, chan')) : ∃ sent, Sent chan chan' commands code sent := by
  have size : (encodedCommand commands).length = trueLength commands := by rw [length_encodedCommand, trueLength]
  by_cases accepted : totalLength commands ≤ MAX_MESSAGE_SIZE
  · -- a size that wraps around to a small one overruns the buffer
    have true : trueLength commands ≤ MAX_MESSAGE_SIZE := by
      by_contra long
      rw [sendRequest_overruns (by omega) (totalLength_mod commands ▸ accepted)] at result
      cases result
    have narrow : (encodedCommand commands).length < 2 ^ 32 := by
      unfold MAX_MESSAGE_SIZE at true
      omega
    rw [sendRequest_eq narrow accepted] at result
    obtain ⟨code', chan'', sent, wrote, written, start, _, outcome⟩ :=
      @writeFrom_spec (frame (encodedCommand commands)).length chan _ (le_refl _)
    have input := writeFrom_input (frame (encodedCommand commands)).length chan (frame (encodedCommand commands))
    have failed := @writeFrom_code (frame (encodedCommand commands)).length chan _ (le_refl _)
    rw [wrote] at result input failed
    cases result
    refine ⟨sent, input, written, start, fun _ => by omega, fun done => ?_, fun all => failed (all ▸ written)⟩
    rcases outcome with ⟨_, all⟩ | ⟨wrong, _⟩
    · exact all
    · rw [done] at wrong
      cases wrong
  · have refused : sendRequest chan behind commands = .ok (-1, chan) := if_pos (by omega)
    rw [refused] at result
    cases result
    refine ⟨[], ⟨rfl, rfl, rfl⟩, (List.append_nil _).symm, List.nil_prefix, fun wrong => absurd rfl wrong, iff_of_false ?_ ?_⟩
    · decide
    · intro wrong
      have wrong := congrArg List.length wrong
      rw [length_frame, List.length_nil] at wrong
      omega

theorem Sent.frames_isPrefix {chan chan' : Channel} {commands : List Bytes} {code : Int} {sent data : Bytes}
    (shipped : Sent chan chan' commands code sent) (arrived : data <+: sent) : frames.all data <+: [commands] := by
  by_cases none : sent = []
  · rw [none, List.prefix_nil] at arrived
    subst arrived
    rw [Decoder.all_wait (show frames.next [] = .wait from rfl)]
    exact List.nil_prefix
  · obtain ⟨more, same⟩ := arrived.trans shipped.start
    have first := @Decoder.all_append _ _ _ frames data more
    rwa [same, frames_encoded (shipped.small none)] at first

theorem Sent.whole_of_frames {chan chan' : Channel} {commands : List Bytes} {code : Int} {sent data : Bytes}
    (shipped : Sent chan chan' commands code sent) (arrived : data <+: sent) (found : frames.all data ≠ []) :
    sent = frame (encodedCommand commands) := by
  have start := arrived.trans shipped.start
  obtain ⟨command, rest, item⟩ : ∃ command rest, nextFrame data = .item command rest := by
    by_contra blocked
    exact found (Decoder.all_none fun value rest item => blocked ⟨value, rest, item⟩ : frames.all data = [])
  obtain ⟨header, _, whole, _, _⟩ := nextFrame_item item
  have small := shipped.small fun none => found (by
    rw [none, List.prefix_nil] at arrived
    rw [arrived]
    exact Decoder.all_wait rfl)
  rw [frame_header start header (by unfold MAX_MESSAGE_SIZE at small; omega)] at whole
  refine shipped.start.eq_of_length_le ?_
  rw [length_frame]
  exact whole.trans arrived.length_le

/-! ### Reading -/

/-- The value that reaches the client in place of a reply that is too big. -/
def delivered (value : Value) : Value :=
  if 4 + value.encoded.length > MAX_MESSAGE_SIZE then .err Error.TOO_BIG.code (text "response is too big") else value

theorem packed_encoded (value : Value) : packed value.encoded = (delivered value).encoded := by
  unfold packed delivered
  split <;> rfl

theorem delivered_ranged {value : Value} (ranged : value.Ranged) : (delivered value).Ranged := by
  unfold delivered
  split
  · exact ranged_error _ _
  · exact ranged

theorem frame_short {data body : Bytes} (start : data <+: frame body) (short : data ≠ frame body) :
    data.length < 4 + body.length := by
  have le := start.length_le
  rw [length_frame] at le
  exact lt_of_le_of_ne le fun same => short (start.eq_of_length (by rw [length_frame]; exact same))

theorem replies_short {data body : Bytes} (small : body.length ≤ MAX_MESSAGE_SIZE) (start : data <+: frame body)
    (short : data ≠ frame body) : replies.all data = [] := by
  have less := frame_short start short
  refine Decoder.all_wait (show nextReply data = .wait from ?_)
  unfold nextReply
  by_cases header : data.length < 4
  · rw [if_pos header]
  · simp only [frame_header start (by omega) (show body.length < 2 ^ 32 by unfold MAX_MESSAGE_SIZE at small; omega)]
    rw [if_neg header, if_pos less]

theorem replies_frame {body : Bytes} (small : body.length ≤ MAX_MESSAGE_SIZE) : replies.all (frame body) ≠ [] := by
  have found := replies_next_frame (show body.length < 2 ^ 32 by unfold MAX_MESSAGE_SIZE at small; omega) []
  rw [List.append_nil] at found
  rw [Decoder.all_item found]
  exact List.cons_ne_nil _ _

theorem awaitFull_short {chan : Channel} {numberOfBytes : Nat} (steady : Steady chan.reads)
    (short : chan.incoming.length < numberOfBytes) :
    ∃ chan', awaitFull chan numberOfBytes = if chan.closed then .ok (none, chan') else .error (.waits chan') := by
  obtain ⟨result, chan', got, read, split, _, _, outcome⟩ :=
    @readFrom_spec numberOfBytes chan [] numberOfBytes (Nat.zero_le _) (by simp)
  rcases outcome with ⟨rfl, all⟩ | ⟨rfl, _⟩
  · rw [List.nil_append] at all
    rw [split, List.length_append, all] at short
    omega
  · have last := readFrom_end (by simp) steady read
    refine ⟨chan', ?_⟩
    simp only [awaitFull, Socket.readFull, read, last]
    cases chan.closed <;> rfl

/-- A client without its whole reply: it waits for more of it, and once the server has closed it has failed to read. -/
structure Report.Unanswered (report : Report) (chan : Channel) : Prop where
  waits : report.waits = !chan.closed
  lines : report.lines = if chan.closed ∧ chan.incoming.length < 4 then [.eof] else []
  failed : .readResponse ∈ report.failures ↔ chan.closed = true

theorem readResponse_short {chan : Channel} {body : Bytes} (small : body.length ≤ MAX_MESSAGE_SIZE)
    (start : chan.incoming <+: frame body) (short : chan.incoming ≠ frame body) (steady : Steady chan.reads) :
    ∃ chan', readResponse chan = if chan.closed then
        .ok ⟨-1, if chan.incoming.length < 4 then [.eof] else [], chan'⟩ else .error (.waits chan') := by
  have less := frame_short start short
  unfold readResponse
  by_cases header : chan.incoming.length < 4
  · obtain ⟨chan', read⟩ := awaitFull_short steady header
    refine ⟨chan', ?_⟩
    rw [read, if_pos header]
    cases chan.closed <;> rfl
  · have front : (chan.incoming.take 4).length = 4 := List.length_take_of_le (by omega)
    obtain ⟨chan1, read, behind, steady1, closed⟩ := awaitFull_arrived (List.take_append_drop 4 _).symm steady
    rw [front] at read
    obtain ⟨chan2, read2⟩ := @awaitFull_short chan1 body.length steady1 (by rw [behind, List.length_drop]; omega)
    refine ⟨chan2, ?_⟩
    simp only [read, bind, Except.bind,
      frame_header start (by omega) (show body.length < 2 ^ 32 by unfold MAX_MESSAGE_SIZE at small; omega)]
    rw [if_neg (by omega), read2, closed, if_neg header]
    cases chan.closed <;> rfl

theorem awaitFull_written {chan : Channel} {numberOfBytes : Nat} :
    (∀ {result chan'}, awaitFull chan numberOfBytes = .ok (result, chan') → chan'.written = chan.written) ∧
      ∀ {chan'}, awaitFull chan numberOfBytes = .error (.waits chan') → chan'.written = chan.written := by
  have kept := (readFrom_kept numberOfBytes chan [] numberOfBytes).2
  unfold awaitFull Socket.readFull
  generalize Socket.readFrom numberOfBytes chan [] numberOfBytes = read at kept
  obtain ⟨_ | buffer, chan1⟩ := read
  · simp only
    split
    · exact ⟨(by rintro _ _ ⟨⟩), by rintro _ ⟨⟩; exact kept⟩
    · exact ⟨(by rintro _ _ ⟨⟩; exact kept), by rintro _ ⟨⟩⟩
  · exact ⟨(by rintro _ _ ⟨⟩; exact kept), by rintro _ ⟨⟩⟩

theorem reported_written {chan : Channel} {sendErr : Int} {report : Report}
    (result : reported sendErr (readResponse chan) = .ok report) : report.chan.written = chan.written := by
  unfold readResponse at result
  cases read : awaitFull chan 4 with
  | error stop =>
      rw [read] at result
      cases stop with
      | waits chan1 => cases result; exact awaitFull_written.2 read
      | fault => cases result
  | ok first =>
      obtain ⟨_ | header, chan1⟩ := first
      · rw [read] at result
        cases result
        exact awaitFull_written.1 read
      · have header' := awaitFull_written.1 read
        simp only [read, bind, Except.bind] at result
        split at result
        · cases result
          exact header'
        · cases read2 : awaitFull chan1 (decode header) with
          | error stop =>
              rw [read2] at result
              cases stop with
              | waits chan2 => cases result; exact (awaitFull_written.2 read2).trans header'
              | fault => cases result
          | ok second =>
              have body := (awaitFull_written.1 read2).trans header'
              rw [read2] at result
              obtain ⟨_ | text, chan2⟩ := second
              · cases result
                exact body
              · simp only at result
                split at result
                · cases result
                · split at result <;> cases result <;> exact body

/-! ### The whole run -/

/-- The store has a place in its order for the command of the client, and what was printed is its answer there. -/
def Answered (order : List (Nat × Done)) (i : Nat) (commands : List Bytes) (lines : List Line) : Prop :=
  ∃ front later done contents value, order = front ++ (i, done) :: later ∧ done.commandList = commands ∧
    Contents.Serves (front.map Prod.snd) contents ∧ contents.Answers (Request.command commands) value ∧
    lines = printed (delivered value)

theorem serves_split {front later : List Done} {done : Done} {contents : Contents}
    (serves : Contents.Serves (front ++ done :: later) contents) :
    ∃ before value, Contents.Serves front before ∧ value.Ranged ∧
      Contents.Answers before done.command value ∧ done.reply = value.encoded := by
  induction later using List.reverseRecOn generalizing contents with
  | nil =>
      generalize whole : front ++ [done] = trace at serves
      cases serves with
      | start => simp at whole
      | @answer _ before _ value serves ranged answers =>
          obtain ⟨rfl, rfl⟩ := List.append_inj' whole rfl |>.imp id List.singleton_inj.mp
          exact ⟨before, value, serves, ranged, answers, rfl⟩
  | append_singleton later last ih =>
      rw [← List.cons_append, ← List.append_assoc] at serves
      generalize whole : front ++ done :: later ++ [last] = trace at serves
      cases serves with
      | start => simp at whole
      | answer serves _ _ =>
          obtain ⟨rfl, _⟩ := List.append_inj' whole rfl
          exact ih serves

/-- What is sent for a request of a connection: the answer of the store, in a form that the client can read. -/
theorem reply_answers {around : Nat → Surroundings} {conns : Connections} {calls : List Call}
    (served : Server.Run ⟨initCommandMap, around⟩ conns calls)
    (clean : ∀ entry ∈ conns.order, ∀ name ∈ entry.2.command.names, Zset.Clean name) {i : Nat} {done : Done}
    (member : done ∈ conns.own i) :
    ∃ value : Value, value.Fits ∧ value.encoded.length ≤ MAX_MESSAGE_SIZE ∧ packed done.reply = value.encoded ∧
      Answered conns.order i done.commandList (printed value) := by
  obtain ⟨front, later, order⟩ : ∃ front later, conns.order = front ++ (i, done) :: later := by
    obtain ⟨⟨j, _⟩, chosen, rfl⟩ := List.mem_map.mp member
    obtain ⟨inside, same⟩ := List.mem_filter.mp chosen
    obtain rfl : j = i := by simpa using same
    exact List.append_of_mem inside
  obtain ⟨_, serves⟩ := served.serves clean
  rw [order, List.map_append, List.map_cons] at serves
  obtain ⟨contents, value, before, ranged, answers, encoded⟩ := serves_split serves
  have small := length_packed done.reply
  rw [encoded, packed_encoded] at small
  refine ⟨delivered value, ?_, by omega, by rw [encoded, packed_encoded], ?_⟩
  · exact Value.fits_of_short (delivered_ranged ranged) (by unfold MAX_MESSAGE_SIZE at small; omega)
  · exact ⟨front, later, done, contents, value, order, rfl, before, answers, rfl⟩

theorem run_parts {chan : Channel} {behind : Nat → UInt8} {commands : List Bytes} {report : Report}
    (ran : run chan behind commands = .ok report) :
    ∃ sendErr chan' sent, Sent chan chan' commands sendErr sent ∧
      reported sendErr (readResponse chan') = .ok report := by
  unfold run at ran
  cases sending : sendRequest chan behind commands with
  | error fault => rw [sending] at ran; cases ran
  | ok result =>
      rw [sending] at ran
      obtain ⟨sent, shipped⟩ := sendRequest_sent sending
      exact ⟨result.1, result.2, sent, shipped, ran⟩

theorem reported_short {chan : Channel} {body : Bytes} {sendErr : Int} {report : Report}
    (small : body.length ≤ MAX_MESSAGE_SIZE) (start : chan.incoming <+: frame body)
    (short : chan.incoming ≠ frame body) (steady : Steady chan.reads)
    (result : reported sendErr (readResponse chan) = .ok report) :
    report.Unanswered chan ∧ report.failures =
      (if sendErr ≠ 0 then [.sendRequest] else []) ++ if chan.closed then [.readResponse] else [] := by
  obtain ⟨chan', reading⟩ := readResponse_short small start short steady
  rw [reading] at result
  cases closed : chan.closed with
  | true =>
      rw [closed] at result
      cases result
      exact ⟨⟨by rw [closed]; rfl, by simp [closed], by simp [closed]⟩, rfl⟩
  | false =>
      rw [closed] at result
      cases result
      exact ⟨⟨by rw [closed]; rfl, by simp [closed], by simp [closed]⟩, (List.append_nil _).symm⟩

theorem reported_frame {value : Value} (fits : value.Fits) (small : value.encoded.length ≤ MAX_MESSAGE_SIZE)
    {chan : Channel} {report : Report} (arrived : chan.incoming = frame value.encoded) (steady : Steady chan.reads)
    (result : reported 0 (readResponse chan) = .ok report) :
    report.lines = printed value ∧ report.failures = [] ∧ report.waits = false := by
  obtain ⟨chan', reading, _⟩ :=
    readResponse_frame fits small (arrived.trans (List.append_nil _).symm) steady
  rw [reading] at result
  cases result
  refine ⟨rfl, ?_, rfl⟩
  rw [if_neg (not_not.mpr rfl), if_neg (show ¬(value.encoded.length : Int) = -1 by omega)]
  rfl

/-- A client prints the answer of the store to its command, or no reply has come through whole. -/
theorem client_prints_answer {around : Nat → Surroundings} {conns : Connections} {calls : List Call}
    (served : Server.Run ⟨initCommandMap, around⟩ conns calls)
    (clean : ∀ entry ∈ conns.order, ∀ name ∈ entry.2.command.names, Zset.Clean name) {i : Nat} {chan : Channel}
    {behind : Nat → UInt8} {commands : List Bytes} {report : Report} (fresh : chan.written = [])
    (steady : Steady chan.reads) (ran : run chan behind commands = .ok report)
    (sent : (conns.peers i).chan.received ++ (conns.peers i).chan.incoming <+: report.chan.written)
    (answered : chan.incoming <+: (conns.peers i).chan.written) :
    (replies.all chan.incoming = [] ∧ report.Unanswered chan) ∨
    (replies.all chan.incoming ≠ [] ∧ Answered conns.order i commands report.lines ∧ report.failures = [] ∧
      report.waits = false) := by
  have sound := served.sound
  obtain ⟨sendErr, chan1, out, shipped, result⟩ := run_parts ran
  have arrived : (conns.peers i).chan.received ++ (conns.peers i).chan.incoming <+: out := by
    rwa [reported_written result, shipped.written, fresh, List.nil_append] at sent
  have requests := ((sound.requests_isPrefix i).trans (Decoder.all_append _ (conns.peers i).chan.incoming)).trans
    (shipped.frames_isPrefix arrived)
  have account := (sound.ready i).sound.replies
  rw [sound.own i] at account
  have replied := answered.trans ⟨_, account⟩
  rw [← shipped.incoming] at replied ⊢
  have steady1 : Steady chan1.reads := shipped.reads ▸ steady
  have unanswered {body : Bytes} (small : body.length ≤ MAX_MESSAGE_SIZE) (start : chan1.incoming <+: frame body)
      (short : chan1.incoming ≠ frame body) : report.Unanswered chan := by
    obtain ⟨waits, lines, failed⟩ := (reported_short small start short steady1 result).1
    rw [shipped.closed] at waits lines failed
    rw [shipped.incoming] at lines
    exact ⟨waits, lines, failed⟩
  cases own : conns.own i with
  | nil =>
      rw [own] at replied
      obtain none : chan1.incoming = [] := List.prefix_nil.mp replied
      exact .inl ⟨by rw [none]; exact Decoder.all_wait rfl,
        @unanswered [] (by decide) (none ▸ List.nil_prefix) (by rw [none]; decide)⟩
  | cons done rest =>
      rw [own] at requests replied
      obtain ⟨rfl, rfl⟩ : done.commandList = commands ∧ rest = [] := by
        rw [List.map_cons, List.cons_prefix_cons, List.prefix_nil, List.map_eq_nil_iff] at requests
        exact requests
      obtain ⟨value, fits, small, encoded, answers⟩ := reply_answers served clean (show done ∈ conns.own i by rw [own]; simp)
      rw [framedReplies, List.map_singleton, List.flatten_singleton, encoded] at replied
      by_cases whole : chan1.incoming = frame value.encoded
      · have some : frames.all ((conns.peers i).chan.received ++ (conns.peers i).chan.incoming) ≠ [] := by
          intro none
          have first := (sound.requests_isPrefix i).trans (Decoder.all_append _ (conns.peers i).chan.incoming)
          rw [none, own] at first
          exact List.cons_ne_nil _ _ (List.prefix_nil.mp first)
        obtain rfl := shipped.whole.mpr (shipped.whole_of_frames arrived some)
        obtain ⟨lines, failures, waits⟩ := reported_frame fits small whole steady1 result
        exact .inr ⟨by rw [whole]; exact replies_frame small, lines ▸ answers, failures, waits⟩
      · exact .inl ⟨replies_short small replied whole, unanswered small replied whole⟩

theorem run_empty : ∃ report : Report,
    run ⟨framedReplies [emptyDone], false, [], [], [], [], none⟩ (fun _ => 0) [] = .ok report ∧
      report.chan.written = emptyFrame := by
  have sending : sendRequest ⟨framedReplies [emptyDone], false, [], [], [], [], none⟩ (fun _ => 0) [] =
      .ok (0, ⟨framedReplies [emptyDone], false, [], [], [], emptyFrame, none⟩) := rfl
  obtain ⟨report, result⟩ : ∃ report, reported 0
      (readResponse ⟨framedReplies [emptyDone], false, [], [], [], emptyFrame, none⟩) = .ok report := ⟨_, rfl⟩
  unfold run
  simp only [sending, bind, Except.bind]
  exact ⟨report, result, reported_written result⟩

/-- An empty command, which the server does not know. -/
theorem client_prints_answer_unknown : ∃ (conns : Connections) (calls : List Call) (report : Report),
    Server.Run newDatabase conns calls ∧ Answered conns.order 0 [] report.lines ∧ report.failures = [] ∧
    report.waits = false := by
  have evaluated : ∃ s, ((fresh.arrive 0 emptyFrame).session 0 [] []).io execute = .ok s ∧
      s.executed = [emptyDone] ∧ s.conn.state = .REQ ∧ s.chan.received ++ s.chan.incoming = emptyFrame :=
    ⟨_, rfl, rfl, rfl, rfl⟩
  obtain ⟨s, result, executed, idle, arrived⟩ := evaluated
  have served := (fresh_run.arrive 0 emptyFrame).io result
  have peer : ((fresh.arrive 0 emptyFrame).after 0 s).peers 0 = s.toPeer := by simp [Connections.after]
  have entries : ((fresh.arrive 0 emptyFrame).after 0 s).order = [(0, emptyDone)] := by
    rw [Connections.after, executed]
    rfl
  have account := (served.sound.ready 0).sound
  rw [peer] at account
  have written := account.replies
  rw [account.conn.unsent_idle idle, List.append_nil, executed] at written
  obtain ⟨report, ran, sent⟩ := run_empty
  rcases client_prints_answer served (by rw [entries]; decide) rfl (by intro answer member; cases member) ran
    (by rw [peer, sent]; exact ⟨[], by rw [List.append_nil]; exact arrived⟩)
    (by rw [peer]; exact ⟨[], by rw [List.append_nil]; exact written.symm⟩) with ⟨missing, _⟩ | ⟨_, answered, fine⟩
  · rw [replies_framed] at missing
    cases missing
  · exact ⟨_, _, report, served, answered, fine⟩

end Coxx.Client