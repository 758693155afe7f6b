import Coxx.Common.Responses

/-! The request loops of a connection, from any mix of answers of the kernel.

What is kept is an account of the two byte streams: the bytes read so far decode into the
executed requests and the pending bytes, and the bytes written so far, with the unsent ones, are
the replies to these requests.
-/

set_option autoImplicit false

namespace Coxx.Common

open Library

/-- A call ends with such a result, unless a command has none. -/
def Ends {α : Type} (stuck : Prop) (post : α → Prop) : Except Fault α → Prop
  | .ok result => post result
  | .error fault => fault = .command ∧ stuck

theorem Ends.mono {α : Type} {stuck stuck' : Prop} {post post' : α → Prop} {call : Except Fault α}
    (ends : Ends stuck post call) (worse : stuck → stuck') (weaker : ∀ result, post result → post' result) :
    Ends stuck' post' call := by
  cases call with
  | ok result => exact weaker result ends
  | error fault => exact ⟨ends.1, worse ends.2⟩

theorem Ends.bind {α β : Type} {stuck : Prop} {mid : α → Prop} {post : β → Prop} {call : Except Fault α}
    {next : α → Except Fault β} (first : Ends stuck mid call) (then' : ∀ result, mid result → Ends stuck post (next result)) :
    Ends stuck post (call >>= next) := by
  cases call with
  | ok result => exact then' result first
  | error fault => exact first

structure Peer.Sound (peer : Peer) : Prop where
  conn : peer.conn.Sound
  reads : frames.Reads peer.chan.received (peer.executed.map Done.commandList) peer.conn.pending
  replies : peer.chan.written ++ peer.conn.unsent = framedReplies peer.executed
  whole : framedReplies peer.executed.dropLast <+: peer.chan.written

section Service

variable {σ : Type} {request : Executor σ} {start s s' : Session σ}

/-- Some command of the delivered input has no result once those before it are executed. -/
def Stuck (request : Executor σ) (start : Session σ) : Prop :=
  ∃ new db commandList, Replays request start.db new db ∧ request db commandList = none ∧
    (start.executed ++ new).map Done.commandList ++ [commandList] <+:
      frames.all (start.chan.received ++ start.chan.incoming)

/-- What a connection does from `start` on: it executes requests in order, and its input only moves on. -/
structure Progress (request : Executor σ) (start s : Session σ) : Prop where
  follows : ∃ new, s.executed = start.executed ++ new ∧ Replays request start.db new s.db
  delivered : s.chan.received ++ s.chan.incoming = start.chan.received ++ start.chan.incoming
  closed : s.chan.closed = start.chan.closed
  reads : s.chan.reads <:+ start.chan.reads
  willing : Willing start.chan.writes → Willing s.chan.writes

theorem Progress.refl (s : Session σ) : Progress request s s :=
  ⟨⟨[], (List.append_nil _).symm, .nil _⟩, rfl, rfl, List.suffix_refl _, id⟩

theorem Progress.trans (first : Progress request start s) (second : Progress request s s') :
    Progress request start s' := by
  obtain ⟨new, executed, replays⟩ := first.follows
  obtain ⟨new', executed', replays'⟩ := second.follows
  refine ⟨⟨new ++ new', ?_, replays.trans replays'⟩, second.delivered.trans first.delivered,
    second.closed.trans first.closed, second.reads.trans first.reads, fun willing => second.willing (first.willing willing)⟩
  rw [executed', executed, List.append_assoc]

theorem Stuck.of_progress (first : Progress request start s) (stuck : Stuck request s) : Stuck request start := by
  obtain ⟨new, executed, replays⟩ := first.follows
  obtain ⟨new', db, commandList, replays', none, before⟩ := stuck
  refine ⟨new ++ new', db, commandList, replays.trans replays', none, ?_⟩
  rw [executed, first.delivered, List.append_assoc] at before
  exact before

/-! ### One request -/

theorem Session.Served.progress {done : Done} (served : Session.Served request s done s') : Progress request s s' := by
  have channel := served.channel
  refine ⟨⟨[done], served.executed, .cons served.result (.nil _)⟩, ?_, ?_, ?_, ?_⟩
  · rw [channel]
  · rw [channel]
  · rw [channel]
  · intro willing
    rw [channel]
    exact (flush_willing willing _).2

theorem Session.Served.account {done : Done} (served : Session.Served request s done s') (sound : s.toPeer.Sound)
    (idle : s.conn.state = .REQ) (found : nextFrame s.conn.pending = .item done.commandList s'.conn.pending) :
    s'.toPeer.Sound where
  conn := served.sound
  reads := by
    have received : s'.chan.received = s.chan.received := by rw [served.channel]
    rw [received, served.executed, List.map_append]
    exact sound.reads.concat found
  replies := by
    have before := sound.replies
    rw [sound.conn.unsent_idle idle, List.append_nil] at before
    rw [served.replies, served.executed, framedReplies_concat, before]
  whole := by
    have before := sound.replies
    rw [sound.conn.unsent_idle idle, List.append_nil] at before
    rw [served.executed, List.dropLast_concat, ← before]
    exact served.kept

theorem Peer.Sound.setEnd (sound : s.toPeer.Sound) : (s.setState .END).toPeer.Sound where
  conn := {
    sent := sound.conn.sent
    size := sound.conn.size
    filled := sound.conn.filled
    idle := fun wrong => by cases wrong
    busy := fun wrong => by cases wrong }
  reads := sound.reads
  replies := sound.replies
  whole := sound.whole

def Session.answered (s : Session σ) (reads : List Answer) (last : Option Answer) : Session σ :=
  { s with chan := { s.chan with reads := reads, lastRead := last } }

theorem Peer.Sound.answered (sound : s.toPeer.Sound) (reads : List Answer) (last : Option Answer) :
    (s.answered reads last).toPeer.Sound :=
  ⟨sound.conn, sound.reads, sound.replies, sound.whole⟩

theorem Progress.answered {reads : List Answer} (later : reads <:+ s.chan.reads) (last : Option Answer) :
    Progress request s (s.answered reads last) :=
  ⟨⟨[], (List.append_nil _).symm, .nil _⟩, rfl, rfl, later, id⟩

theorem Progress.setState (s : Session σ) (state : ConnectionState) : Progress request s (s.setState state) :=
  ⟨⟨[], (List.append_nil _).symm, .nil _⟩, rfl, rfl, List.suffix_refl _, id⟩

/-- How the request loop leaves a connection. -/
inductive Parsed (s s' : Session σ) : Prop where
  | waiting (state : s'.conn.state = .REQ) (wait : nextFrame s'.conn.pending = .wait)
  | stopped {reason : Malformed} (state : s'.conn.state = .END) (stop : nextFrame s'.conn.pending = .stop reason)
      (whole : s'.conn.unsent = [])
  | blocked (state : s'.conn.state ≠ .REQ) (room : s'.conn.pending.length < 4 + MAX_MESSAGE_SIZE)
      (short : ¬Willing s.chan.writes)

theorem Parsed.after (parsed : Parsed s s') (progress : Progress request start s) : Parsed start s' := by
  cases parsed with
  | waiting state wait => exact .waiting state wait
  | stopped state stop whole => exact .stopped state stop whole
  | blocked state room short => exact .blocked state room fun willing => short (progress.willing willing)

/-- The input of a connection after a call that does not read. -/
def SameInput (s s' : Session σ) : Prop :=
  s'.chan = { s.chan with writes := s'.chan.writes, written := s'.chan.written }

theorem SameInput.trans (first : SameInput start s) (second : SameInput s s') : SameInput start s' := by
  unfold SameInput at *
  rw [second, first]

theorem tryOneRequest_ends (sound : s.toPeer.Sound) (idle : s.conn.state = .REQ) :
    Ends (Stuck request s) (fun (again, s') => s'.toPeer.Sound ∧ Progress request s s' ∧ SameInput s s' ∧
        (again = true → s'.conn.state = .REQ ∧ s'.conn.pending.length < s.conn.pending.length) ∧
        (again = false → Parsed s s'))
      (s.tryOneRequest request) := by
  have step := @Session.tryOneRequest_eq _ request s sound.conn idle
  cases found : nextFrame s.conn.pending with
  | wait =>
      simp only [found] at step
      rw [step]
      exact ⟨sound, .refl s, rfl, fun wrong => (nomatch wrong), fun _ => .waiting idle found⟩
  | stop reason =>
      simp only [found] at step
      rw [step]
      exact ⟨sound.setEnd, .setState s .END, rfl, fun wrong => (nomatch wrong),
        fun _ => .stopped rfl found (sound.conn.unsent_idle idle)⟩
  | item commandList rest =>
      simp only [found] at step
      cases result : request s.db commandList with
      | none =>
          rw [result] at step
          rw [step]
          -- the command without a result is the next frame of what was delivered
          refine ⟨rfl, [], s.db, commandList, .nil _, result, ?_⟩
          rw [List.append_nil]
          exact (sound.reads.concat found).isPrefix _
      | some answer =>
          rw [result] at step
          obtain ⟨s', done, served, rfl⟩ := step
          rw [done]
          have shorter := frames.item_shorter found
          have filled := sound.conn.filled
          rw [← sound.conn.length_pending] at filled
          refine ⟨served.account sound idle found, served.progress, ?_, ?_, ?_⟩
          · have channel := served.channel
            unfold SameInput
            rw [channel]
          · intro again
            exact ⟨by simpa using again, shorter⟩
          · intro stopped
            have state : s'.conn.state ≠ .REQ := by simpa using stopped
            -- only a reply that could not be flushed keeps the connection from its next request
            refine .blocked state (by omega) fun willing => state ?_
            rw [served.state, (flush_willing willing _).1]
            rfl

theorem requestLoop_ends {fuel : Nat} (sound : s.toPeer.Sound) (idle : s.conn.state = .REQ)
    (enough : s.conn.pending.length ≤ fuel) :
    Ends (Stuck request s) (fun s' => s'.toPeer.Sound ∧ Progress request s s' ∧ SameInput s s' ∧ Parsed s s')
      (s.requestLoop request fuel) := by
  rw [Session.requestLoop_doWhile]
  -- the pending bytes shrink with every request, so the fuel is never spent
  refine @doWhile_total _ _ _ _ _ s (fun s => s.toPeer.Sound ∧ s.conn.state = .REQ) (fun s => s.conn.pending.length)
    (fun s => Ends (Stuck request s) fun s' => s'.toPeer.Sound ∧ Progress request s s' ∧ SameInput s s' ∧ Parsed s s')
    ?_ ⟨sound, idle⟩ enough
  rintro s ⟨sound, idle⟩
  have round := @tryOneRequest_ends _ request s sound idle
  generalize s.tryOneRequest request = result at round
  cases result with
  | error fault => exact round
  | ok next =>
      obtain ⟨again, s'⟩ := next
      obtain ⟨sound', progress, same, more, last⟩ := round
      cases again with
      | false => exact ⟨sound', progress, same, last rfl⟩
      | true =>
          obtain ⟨idle', shorter⟩ := more rfl
          refine ⟨⟨sound', idle'⟩, shorter, fun result ends => ends.mono (Stuck.of_progress progress) ?_⟩
          rintro final ⟨soundF, progressF, sameF, parsed⟩
          exact ⟨soundF, progress.trans progressF, same.trans sameF, parsed.after progress⟩

/-! ### Reading -/

def Session.stored (s : Session σ) (data incoming : Bytes) (reads : List Answer) (buffer : Buffer) : Session σ :=
  { s with
    chan := { s.chan with
      incoming := incoming, received := s.chan.received ++ data, reads := reads, lastRead := some (.ok data.length) }
    conn.readBuffer := buffer
    conn.readBufferSize := s.conn.readBufferSize + data.length }

theorem Session.pending_stored {data incoming : Bytes} {reads : List Answer} {buffer : Buffer} (sound : s.conn.Sound)
    (bytes : buffer.bytes = s.conn.readBuffer.bytes.take s.conn.readBufferSize ++ data ++
      s.conn.readBuffer.bytes.drop (s.conn.readBufferSize + data.length)) :
    (s.stored data incoming reads buffer).conn.pending = s.conn.pending ++ data := by
  have long := sound.length_pending
  unfold Connection.pending at long ⊢
  simp only [stored]
  rw [bytes]
  apply List.take_left'
  rw [List.length_append, long]

theorem Peer.Sound.stored {data incoming : Bytes} {reads : List Answer} {buffer : Buffer} (sound : s.toPeer.Sound)
    (idle : s.conn.state = .REQ) (fits : s.conn.readBufferSize + data.length ≤ 4 + MAX_MESSAGE_SIZE)
    (joined : (s.stored data incoming reads buffer).conn.pending = s.conn.pending ++ data) :
    (s.stored data incoming reads buffer).toPeer.Sound where
  conn := {
    sent := sound.conn.sent
    size := sound.conn.size
    filled := fits
    idle := sound.conn.idle
    busy := fun wrong => by cases idle.symm.trans wrong }
  reads := by
    have more := sound.reads.append data
    rw [← joined] at more
    exact more
  replies := sound.replies
  whole := sound.whole

theorem Progress.stored {data incoming : Bytes} {reads : List Answer} (split : s.chan.incoming = data ++ incoming)
    (later : reads <:+ s.chan.reads) (buffer : Buffer) :
    Progress request s (s.stored data incoming reads buffer) := by
  refine ⟨⟨[], (List.append_nil _).symm, .nil _⟩, ?_, rfl, later, id⟩
  simp only [Session.stored, split, List.append_assoc]

theorem Connection.available {conn : Connection} (room : conn.readBufferSize < 4 + MAX_MESSAGE_SIZE) :
    ¬ conn.readBuffer.capacity ≤ conn.readBufferSize ∧
    minus conn.readBuffer.capacity conn.readBufferSize = .ok (4 + MAX_MESSAGE_SIZE - conn.readBufferSize) := by
  constructor
  · unfold Buffer.capacity
    omega
  · exact minus_eq (by unfold Buffer.capacity; omega)

/-- A read that takes nothing ends the connection, unless there may be more to read later. -/
theorem tryFillBuffer_empty {answer : Answer} {chan : Channel} (room : s.conn.readBufferSize < 4 + MAX_MESSAGE_SIZE)
    (took : s.chan.readAgain s.chan.reads.length (4 + MAX_MESSAGE_SIZE - s.conn.readBufferSize) = (answer, [], chan))
    (nothing : ∀ count, answer ≠ .ok (count + 1)) :
    s.tryFillBuffer request =
      .ok (false, if answer = .EAGAIN then { s with chan := chan } else { s with chan := chan, conn.state := .END }) := by
  obtain ⟨open', available⟩ := Connection.available room
  unfold Session.tryFillBuffer
  rw [if_neg open', available]
  simp only [bind, Except.bind]
  rw [took]
  cases answer with
  | ok count =>
      cases count with
      | zero => rfl
      | succ count => exact absurd rfl (nothing count)
  | _ => rfl

/-- A read that takes bytes stores them, and the request loop runs over what is pending now. -/
theorem tryFillBuffer_stored {data incoming : Bytes} {reads : List Answer} (nonempty : data ≠ [])
    (fits : s.conn.readBufferSize + data.length ≤ 4 + MAX_MESSAGE_SIZE)
    (took : s.chan.readAgain s.chan.reads.length (4 + MAX_MESSAGE_SIZE - s.conn.readBufferSize) =
      (.ok data.length, data, { s.chan with
        incoming := incoming, received := s.chan.received ++ data, reads := reads, lastRead := some (.ok data.length) })) :
    ∃ buffer : Buffer, buffer.bytes = s.conn.readBuffer.bytes.take s.conn.readBufferSize ++ data ++
        s.conn.readBuffer.bytes.drop (s.conn.readBufferSize + data.length) ∧
      s.tryFillBuffer request = (do
        let s' ← (s.stored data incoming reads buffer).requestLoop request (s.conn.readBufferSize + data.length)
        .ok (s'.conn.state == .REQ, s')) := by
  obtain ⟨count, more⟩ : ∃ count, data.length = count + 1 :=
    ⟨data.length - 1, by have := List.length_pos_iff.mpr nonempty; omega⟩
  obtain ⟨buffer, stored, bytes⟩ := @Buffer.store_eq s.conn.readBuffer s.conn.readBufferSize data fits
  refine ⟨buffer, bytes, ?_⟩
  obtain ⟨open', available⟩ := @Connection.available s.conn (by omega)
  have fine : ¬ buffer.capacity < s.conn.readBufferSize + data.length := by
    unfold Buffer.capacity
    omega
  unfold Session.tryFillBuffer Session.stored
  rw [if_neg open', available]
  simp only [bind, Except.bind]
  rw [took]
  rw [more] at fine ⊢
  simp only [stored, if_neg fine]

/-- How reading leaves a connection: waiting for input, at the end of what it can decode, at the end of the
input, at a failed read, or at a reply that could not be written. -/
inductive Filled (s s' : Session σ) : Prop where
  | waiting (state : s'.conn.state = .REQ) (last : s'.chan.lastRead = some .EAGAIN)
      (wait : nextFrame s.conn.pending = .wait → nextFrame s'.conn.pending = .wait)
      (room : s'.conn.pending.length < 4 + MAX_MESSAGE_SIZE)
      (cause : .EAGAIN ∈ s.chan.reads ∨ s'.chan.incoming = [] ∧ s'.chan.closed = false)
  | stopped {reason : Malformed} (state : s'.conn.state = .END) (stop : nextFrame s'.conn.pending = .stop reason)
      (whole : s'.conn.unsent = [])
  | finished (state : s'.conn.state = .END) (empty : s'.chan.incoming = []) (closed : s'.chan.closed = true)
      (whole : s'.conn.unsent = []) (wait : nextFrame s.conn.pending = .wait → nextFrame s'.conn.pending = .wait)
  | failed (state : s'.conn.state = .END) (cause : .error ∈ s.chan.reads)
  | blocked (state : s'.conn.state ≠ .REQ) (room : s'.conn.pending.length < 4 + MAX_MESSAGE_SIZE)
      (short : ¬Willing s.chan.writes)

theorem Filled.after (filled : Filled s s') (progress : Progress request start s) (wait : nextFrame s.conn.pending = .wait) :
    Filled start s' := by
  cases filled with
  | waiting state last kept room cause =>
      exact .waiting state last (fun _ => kept wait) room (cause.imp_left fun member => progress.reads.mem member)
  | stopped state stop whole => exact .stopped state stop whole
  | finished state empty closed whole kept => exact .finished state empty closed whole fun _ => kept wait
  | failed state cause => exact .failed state (progress.reads.mem cause)
  | blocked state room short => exact .blocked state room fun willing => short (progress.willing willing)

theorem Parsed.filled (parsed : Parsed s s') (last : s'.conn.state ≠ .REQ) : Filled s s' := by
  cases parsed with
  | waiting wrong _ => exact absurd wrong last
  | stopped ended stop whole => exact .stopped ended stop whole
  | blocked ended room short => exact .blocked ended room short

theorem Parsed.wait (parsed : Parsed s s') (again : s'.conn.state = .REQ) : nextFrame s'.conn.pending = .wait := by
  cases parsed with
  | waiting _ wait => exact wait
  | stopped wrong _ _ => cases again.symm.trans wrong
  | blocked wrong _ _ => exact absurd again wrong

theorem tryFillBuffer_ends (sound : s.toPeer.Sound) (idle : s.conn.state = .REQ)
    (room : s.conn.pending.length < 4 + MAX_MESSAGE_SIZE) :
    Ends (Stuck request s) (fun (again, s') => s'.toPeer.Sound ∧ Progress request s s' ∧
        (again = true → s'.conn.state = .REQ ∧ nextFrame s'.conn.pending = .wait ∧
          s'.chan.incoming.length < s.chan.incoming.length) ∧
        (again = false → Filled s s'))
      (s.tryFillBuffer request) := by
  have long := sound.conn.length_pending
  have taken := @Channel.readAgain_taken s.chan.reads.length (4 + MAX_MESSAGE_SIZE - s.conn.readBufferSize) s.chan
    (le_refl _) (by omega)
  generalize took : s.chan.readAgain s.chan.reads.length (4 + MAX_MESSAGE_SIZE - s.conn.readBufferSize) = result at taken
  cases taken with
  | @eof reads empty closed later =>
      rw [tryFillBuffer_empty (by omega) took nofun]
      exact ⟨(sound.answered reads _).setEnd, (Progress.answered later _).trans (.setState _ .END),
        fun wrong => (nomatch wrong), fun _ => .finished rfl empty closed (sound.conn.unsent_idle idle) id⟩
  | @again reads cause later =>
      rw [tryFillBuffer_empty (by omega) took nofun]
      exact ⟨sound.answered reads _, .answered later _, fun wrong => (nomatch wrong),
        fun _ => .waiting idle rfl id room cause⟩
  | @error reads cause later =>
      rw [tryFillBuffer_empty (by omega) took nofun]
      exact ⟨(sound.answered reads _).setEnd, (Progress.answered later _).trans (.setState _ .END),
        fun wrong => (nomatch wrong), fun _ => .failed rfl cause⟩
  | @data data incoming reads split nonempty fits later =>
      obtain ⟨buffer, bytes, filling⟩ := @tryFillBuffer_stored _ request s data incoming reads nonempty (by omega) took
      have sound1 := @Peer.Sound.stored _ s data incoming reads buffer sound idle (by omega)
        (Session.pending_stored sound.conn bytes)
      have progress1 := @Progress.stored _ request s data incoming reads split later buffer
      have loop := @requestLoop_ends _ request _ (s.conn.readBufferSize + data.length) sound1 idle
        (le_of_eq sound1.conn.length_pending)
      rw [filling]
      apply Ends.bind (loop.mono (Stuck.of_progress progress1) fun _ post => post)
      rintro s' ⟨sound', progress', same, parsed⟩
      have shorter : s'.chan.incoming.length < s.chan.incoming.length := by
        have some := List.length_pos_iff.mpr nonempty
        rw [same, split, List.length_append]
        simp only [Session.stored]
        omega
      refine ⟨sound', progress1.trans progress', fun again => ?_, fun last => ?_⟩
      · have state : s'.conn.state = .REQ := by simpa using again
        exact ⟨state, parsed.wait state, shorter⟩
      · have state : s'.conn.state ≠ .REQ := by simpa using last
        exact (parsed.after progress1).filled state

theorem fillLoop_ends {fuel : Nat} (sound : s.toPeer.Sound) (idle : s.conn.state = .REQ)
    (room : s.conn.pending.length < 4 + MAX_MESSAGE_SIZE) (enough : s.chan.incoming.length ≤ fuel) :
    Ends (Stuck request s) (fun s' => s'.toPeer.Sound ∧ Progress request s s' ∧ Filled s s')
      (s.fillLoop request fuel) := by
  rw [Session.fillLoop_doWhile]
  -- as for the request loop, with the bytes that wait in the kernel as the measure
  refine @doWhile_total _ _ _ _ _ s
    (fun s => s.toPeer.Sound ∧ s.conn.state = .REQ ∧ s.conn.pending.length < 4 + MAX_MESSAGE_SIZE)
    (fun s => s.chan.incoming.length)
    (fun s => Ends (Stuck request s) fun s' => s'.toPeer.Sound ∧ Progress request s s' ∧ Filled s s')
    ?_ ⟨sound, idle, room⟩ enough
  rintro s ⟨sound, idle, room⟩
  have round := @tryFillBuffer_ends _ request s sound idle room
  generalize s.tryFillBuffer request = result at round
  cases result with
  | error fault => exact round
  | ok next =>
      obtain ⟨again, s'⟩ := next
      obtain ⟨sound', progress, more, last⟩ := round
      cases again with
      | false => exact ⟨sound', progress, last rfl⟩
      | true =>
          obtain ⟨idle', wait, shorter⟩ := more rfl
          refine ⟨⟨sound', idle', length_of_wait wait⟩, shorter, fun result ends => ends.mono (Stuck.of_progress progress) ?_⟩
          rintro final ⟨soundF, progressF, filled⟩
          exact ⟨soundF, progress.trans progressF, filled.after progress wait⟩

/-! ### The whole call -/

/-- How `io` leaves a connection. A flush that was left over from an earlier call reads nothing. -/
inductive Handled (s s' : Session σ) : Prop where
  | read (idle : s.conn.state = .REQ) (filled : Filled s s')
  | flushed (busy : s.conn.state = .RES) (result : Session.Flushed s (flush s.conn.unsent.length s.chan.writes) s')

theorem io_ends (sound : s.toPeer.Sound) (room : s.conn.pending.length < 4 + MAX_MESSAGE_SIZE)
    (state : s.conn.state ≠ .END) :
    Ends (Stuck request s) (fun s' => s'.toPeer.Sound ∧ Progress request s s' ∧ Handled s s') (s.io request) := by
  unfold Session.io
  cases kind : s.conn.state with
  | REQ =>
      apply (fillLoop_ends sound kind room (le_refl _)).mono id
      rintro s' ⟨sound', progress, filled⟩
      exact ⟨sound', progress, .read kind filled⟩
  | RES =>
      obtain ⟨s', done, flushed⟩ := Session.stateResponse_flushed sound.conn kind
      simp only [done]
      have channel := flushed.channel
      refine ⟨⟨flushed.sound, ?_, ?_, ?_⟩, ?_, .flushed kind flushed⟩
      · rw [channel, flushed.executed, flushed.pending]
        exact sound.reads
      · rw [flushed.replies, flushed.executed]
        exact sound.replies
      · rw [flushed.executed]
        exact sound.whole.trans flushed.kept
      · refine ⟨⟨[], by rw [flushed.executed, List.append_nil], by rw [flushed.db]; exact .nil _⟩, ?_, ?_, ?_, ?_⟩
        · rw [channel]
        · rw [channel]
        · rw [channel]
        · rw [channel]
          exact fun willing => (flush_willing willing _).2
  | END => exact absurd kind state

theorem Handled.room (handled : Handled s s')
    (before : s.conn.pending.length < 4 + MAX_MESSAGE_SIZE) (state : s'.conn.state ≠ .END) :
    s'.conn.pending.length < 4 + MAX_MESSAGE_SIZE := by
  cases handled with
  | flushed _ result =>
      rw [result.pending]
      exact before
  | read _ filled =>
      cases filled with
      | waiting _ _ _ room _ => exact room
      | blocked _ room _ => exact room
      | stopped ended _ _ => exact absurd ended state
      | finished ended _ _ _ _ => exact absurd ended state
      | failed ended _ => exact absurd ended state

end Service

end Coxx.Common
