import Coxx.Server.Blocking
import Coxx.Server.Interleaving

/-! Nothing that a client has sent is overlooked, although epoll reports it once only. A call of `io` reads until there is
nothing more, so that whatever arrives behind it is reported again.
-/

set_option autoImplicit false

namespace Coxx.Server

open Library Common

/-- A connection that answers nothing before it has read more. -/
structure Idle (peer : Peer) : Prop where
  state : peer.conn.state = .REQ
  wait : nextFrame peer.conn.pending = .wait

/-- An event of the descriptor is still to be handled. -/
def Kernel.Announced (k : Kernel) (fd : Int) : Prop := (k.queued fd).isSome ∨ fd ∈ k.rest.map Event.fd

/-- What was sent to a descriptor since it was accepted, after one more action. -/
def sentAfter (listener fd : Int) (sofar : Bytes) : Action → Bytes
  | .send target data _ => if target = fd then sofar ++ data else sofar
  | .handle event input => if event.fd = listener ∧ input.accepted = fd then [] else sofar
  | _ => sofar

def sentTo (listener fd : Int) (steps : List (Kernel × Action)) : Bytes :=
  (steps.map Prod.snd).foldl (sentAfter listener fd) []

/-- An action of the server in which no call is answered EAGAIN without need: a read finds that there is nothing more, and
a write is taken. -/
def Unhindered : Action → Prop
  | .handle _ input => .EAGAIN ∉ input.reads ∧ .EAGAIN ∉ input.writes
  | _ => True

/-- The invariant of the loop: of what was sent to a connection, only what is announced by an event is left to be read. -/
structure Attentive (k : Kernel) (sent : Int → Bytes) : Prop where
  idle : ∀ fd peer, k.loop.connection fd = some peer → Idle peer
  account : ∀ fd peer, k.loop.connection fd = some peer → peer.chan.received ++ peer.chan.incoming = sent fd
  announced : ∀ fd, k.unread fd = true → k.Announced fd

/-! ### One event -/

section Turn

variable {listener : Int} {s s' : Loop} {input : Input} {event : Event} {fd : Int} {peer : Peer}

/-- A connection that is open after an event of another descriptor is new, or was open before as it is now. -/
theorem Turn.elsewhere (turn : Turn s input event s') (apart : fd ≠ event.fd) (here : s'.connection fd = some peer) :
    event.fd = s.listener ∧ fd = input.accepted ∧ peer = newPeer input.accepted input.readBuffer input.writeBuffer ∨
      ¬(event.fd = s.listener ∧ input.accepted = fd) ∧ s.connection fd = some peer := by
  have ups : ∀ {mid : Loop}, HungUp mid event s' → mid.connection fd = some peer := by
    intro mid hungUp
    cases hungUp with
    | stays _ same => rwa [← same]
    | closes _ slots _ => rwa [slots, Function.update_of_ne apart] at here
  cases turn with
  | refused listening failed same =>
      subst same
      refine .inr ⟨?_, here⟩
      rintro ⟨_, rfl⟩
      -- a negative number is no index of the table
      have slot := Loop.connection_some.mp here
      rw [Loop.slot, if_pos failed] at slot
      cases slot
  | accepted listening _ accepted hungUp =>
      have mid := ups hungUp
      rw [accepted.slots] at mid
      by_cases new : fd = input.accepted
      · rw [new, Function.update_self] at mid
        exact .inl ⟨listening, new, (Option.some.inj mid).symm⟩
      · rw [Function.update_of_ne new] at mid
        exact .inr ⟨fun both => new both.2.symm, mid⟩
  | served other served hungUp =>
      have mid := ups hungUp
      refine .inr ⟨fun both => other both.1, ?_⟩
      cases served with
      | ignored _ same => rwa [← same]
      | kept _ _ _ _ slots _ => rwa [slots, Function.update_of_ne apart] at mid
      | ended _ _ _ slots _ => rwa [slots, Function.update_of_ne apart] at mid

/-- A connection that is open after an event of its own was called for it, if the event is one. -/
theorem Turn.called (turn : Turn s input event s') (other : event.fd ≠ s.listener) (some : event.events ≠ Events.none)
    (here : s'.connection event.fd = .some peer) :
    ∃ before session, s.connection event.fd = .some before ∧ (input.session before s.db).io execute = .ok session ∧
      session.conn.state ≠ .END ∧ peer = session.toPeer := by
  have ready := turn.ready_of_busy other some here
  cases turn with
  | refused listening _ _ => exact absurd listening other
  | accepted listening _ _ _ => exact absurd listening other
  | @served mid _ served hungUp =>
      have there : mid.connection event.fd = .some peer := by
        cases hungUp with
        | stays _ same => rwa [← same]
        | closes _ slots _ =>
            rw [slots, Function.update_self] at here
            cases here
      cases served with
      | ignored idle _ =>
          rw [ready] at idle
          cases idle
      | kept _ before done goesOn slots _ =>
          rw [slots, Function.update_self] at there
          cases there
          exact ⟨_, _, before, done, goesOn, rfl⟩
      | ended _ _ _ slots _ =>
          rw [slots, Function.update_self] at there
          cases there

end Turn

/-! ### What a call of `io` leaves behind -/

theorem newPeer_idle (fd : Int) (readBuffer writeBuffer : Buffer) : Idle (newPeer fd readBuffer writeBuffer) where
  state := rfl
  wait := congrArg nextFrame List.take_zero

/-- An unhindered call that does not end its connection has read everything and answered every request in it. -/
theorem idle_of_handled {session session' : Session Database} (handled : Handled session session')
    (idle : session.conn.state = .REQ) (wait : nextFrame session.conn.pending = .wait)
    (reads : .EAGAIN ∉ session.chan.reads) (goesOn : session'.conn.state ≠ .END) (drained : session'.conn.state ≠ .RES) :
    Idle session'.toPeer ∧ session'.chan.incoming = [] ∧ session'.chan.closed = false := by
  cases handled with
  | flushed busy _ => cases idle.symm.trans busy
  | read _ filled =>
      cases filled with
      | waiting state _ kept _ cause => exact ⟨⟨state, kept wait⟩, cause.resolve_left reads⟩
      | stopped ended _ _ => exact absurd ended goesOn
      | finished ended _ _ _ _ => exact absurd ended goesOn
      | failed ended _ => exact absurd ended goesOn
      | blocked stuck _ _ =>
          cases state : session'.conn.state with
          | REQ => exact absurd state stuck
          | RES => exact absurd state drained
          | END => exact absurd state goesOn

/-! ### One step -/

section Step

variable {listener : Int} {capacity : Nat} {k k' : Kernel} {action : Action} {sent : Int → Bytes} {fd : Int}
  {event : Event} {rest : List Event} {input : Input} {loop : Loop}

theorem unread_some {peer : Peer} (here : k.loop.connection fd = some peer) :
    k.unread fd = (!peer.chan.incoming.isEmpty || peer.chan.closed) := by
  simp only [Kernel.unread, here]

theorem Kernel.notify_unread (k : Kernel) (fd : Int) (condition : Events) : (k.notify fd condition).unread = k.unread := by
  unfold Kernel.unread
  rw [Kernel.notify_loop]

theorem Attentive.notify (attentive : Attentive k sent) (fd : Int) (condition : Events) :
    Attentive (k.notify fd condition) sent where
  idle := by simpa using attentive.idle
  account := by simpa using attentive.account
  announced := by
    intro other unread
    rw [Kernel.notify_unread] at unread
    refine (attentive.announced other unread).imp Kernel.notify_isSome ?_
    rw [Kernel.notify_rest]
    exact id

theorem Attentive.send (attentive : Attentive k sent) (tracked : Tracked listener k) {data : Bytes} {closed noticed : Bool}
    (live : k.loop.connected fd = true) (newly : k.unread fd = false → noticed = true) :
    Attentive
      (if noticed then { k with loop := k.loop.deliver fd data closed }.notify fd ⟨true, false, closed, false⟩
      else { k with loop := k.loop.deliver fd data closed })
      fun other => sentAfter listener other (sent other) (.send fd data closed) := by
  obtain ⟨peer, here⟩ := Option.isSome_iff_exists.mp (tracked.pending.consistent.filled fd live)
  obtain ⟨slots, _⟩ := deliver_slots here data closed
  have idle : ∀ other after, (k.loop.deliver fd data closed).connection other = some after → Idle after := by
    intro other after there
    rcases deliver_cases here there with ⟨_, rfl⟩ | ⟨_, before⟩
    · exact ⟨(attentive.idle fd peer here).state, (attentive.idle fd peer here).wait⟩
    · exact attentive.idle other after before
  have account : ∀ other after, (k.loop.deliver fd data closed).connection other = some after →
      after.chan.received ++ after.chan.incoming = sentAfter listener other (sent other) (.send fd data closed) := by
    intro other after there
    rcases deliver_cases here there with ⟨rfl, rfl⟩ | ⟨own, before⟩
    · simp only [sentAfter, if_pos]
      rw [← attentive.account other peer here, List.append_assoc]
    · rw [sentAfter, if_neg (Ne.symm own)]
      exact attentive.account other after before
  have others : ∀ other, other ≠ fd →
      ({ k with loop := k.loop.deliver fd data closed } : Kernel).unread other = k.unread other := by
    intro other own
    simp only [Kernel.unread, slots, Function.update_of_ne own]
  cases noticed with
  | false =>
      have before : k.unread fd = true := by simpa using newly
      refine ⟨idle, account, fun other unread => ?_⟩
      by_cases own : other = fd
      · rw [own]
        exact attentive.announced fd before
      · rw [if_neg Bool.false_ne_true, others other own] at unread
        exact attentive.announced other unread
  | true =>
      have registered : interest (k.loop.deliver fd data closed).log fd = some ⟨true, false, true, true⟩ := by
        rw [(deliver_log k.loop fd data closed).1]
        exact tracked.registers fd live
      refine ⟨by simpa using idle, by simpa using account, fun other unread => ?_⟩
      rw [if_pos rfl, Kernel.notify_unread] at unread
      by_cases own : other = fd
      · left
        have reported : Events.reported ⟨true, false, true, true⟩ ⟨true, false, closed, false⟩ ≠ Events.none := by
          simp [Events.reported, Events.none]
        rw [own, if_pos rfl]
        exact Option.isSome_iff_exists.mpr ⟨_, Kernel.notify_reported registered reported⟩
      · rw [others other own] at unread
        refine (attentive.announced other unread).imp ?_ ?_
        · intro queued
          rw [if_pos rfl]
          exact Kernel.notify_isSome queued
        · rw [if_pos rfl, Kernel.notify_rest]
          exact id

theorem Attentive.wait (attentive : Attentive k sent) {batch : List Event} (waits : k.rest = []) :
    Attentive { k with rest := batch, queued := fun fd => if fd ∈ batch.map Event.fd then none else k.queued fd } sent where
  idle := attentive.idle
  account := attentive.account
  announced := by
    intro fd unread
    have before := attentive.announced fd unread
    unfold Kernel.Announced at before ⊢
    rw [waits] at before
    by_cases inside : fd ∈ batch.map Event.fd
    · exact .inr inside
    · simpa [inside] using before

theorem Attentive.called (attentive : Attentive k sent) (tracked : Tracked listener k) (turn : Turn k.loop input event loop)
    (some : event.events ≠ Events.none) (unhindered : Unhindered (.handle event input)) {peer : Peer}
    (other : event.fd ≠ listener) (here : loop.connection event.fd = .some peer) :
    Idle peer ∧ peer.chan.incoming = [] ∧ peer.chan.closed = false ∧
      peer.chan.received ++ peer.chan.incoming = sent event.fd := by
  obtain ⟨before, session, there, done, goesOn, rfl⟩ := turn.called (tracked.pending.listener ▸ other) some here
  obtain ⟨_, progress, handled⟩ := (tracked.pending.consistent.held _ _ there).2.io_ok done
  have ready := attentive.idle _ _ there
  obtain ⟨idle, empty, attached⟩ := idle_of_handled handled ready.state ready.wait unhindered.1 goesOn fun busy =>
    unhindered.2 ((Session.io_answered done).blocked busy)
  have account := attentive.account _ _ there
  exact ⟨idle, empty, attached, progress.delivered.trans account⟩

theorem Attentive.handled (attentive : Attentive k sent) (tracked : Tracked listener k) (next : k.rest = event :: rest)
    (valid : input.Valid k.loop) (result : k.loop.handle input event = .ok loop) (some : event.events ≠ Events.none)
    (unhindered : Unhindered (.handle event input)) :
    Attentive (k.handled loop rest) fun fd => sentAfter listener fd (sent fd) (.handle event input) := by
  obtain ⟨tracked', turn⟩ := tracked.handled next valid result
  have listening := tracked.pending.listener
  have live : ∀ {fd peer}, loop.connection fd = .some peer → loop.connected fd = true := fun here =>
    (tracked'.pending.consistent.held _ _ here).1
  have cases : ∀ {fd peer}, loop.connection fd = .some peer → fd = event.fd ∧ event.fd ≠ listener ∨ fd ≠ event.fd ∧
      (event.fd = listener ∧ fd = input.accepted ∧ peer = newPeer input.accepted input.readBuffer input.writeBuffer ∨
        ¬(event.fd = listener ∧ input.accepted = fd) ∧ k.loop.connection fd = .some peer) := by
    intro fd peer here
    by_cases same : fd = event.fd
    · exact .inl ⟨same, same ▸ tracked'.ne_listener (live here)⟩
    · exact .inr ⟨same, listening ▸ turn.elsewhere same here⟩
  constructor
  · intro fd peer here
    rcases cases here with ⟨rfl, other⟩ | ⟨_, ⟨_, _, rfl⟩ | ⟨_, before⟩⟩
    · exact (attentive.called tracked turn some unhindered other here).1
    · exact newPeer_idle _ _ _
    · exact attentive.idle fd peer before
  · intro fd peer here
    rcases cases here with ⟨rfl, other⟩ | ⟨_, ⟨first, rfl, rfl⟩ | ⟨old, before⟩⟩
    · rw [sentAfter, if_neg fun both => other both.1]
      exact (attentive.called tracked turn some unhindered other here).2.2.2
    · rw [sentAfter, if_pos ⟨first, rfl⟩]
      rfl
    · rw [sentAfter, if_neg old]
      exact attentive.account fd peer before
  · intro fd unread
    cases here : loop.connection fd with
    | none => simp [Kernel.unread, Kernel.handled, here] at unread
    | some peer =>
        rw [@unread_some (k.handled loop rest) _ _ here] at unread
        rcases cases here with ⟨rfl, other⟩ | ⟨same, ⟨_, _, rfl⟩ | ⟨_, before⟩⟩
        · obtain ⟨_, empty, attached, _⟩ := attentive.called tracked turn some unhindered other here
          rw [empty, attached] at unread
          cases unread
        · cases unread
        · have registered := tracked'.registers fd (live here)
          refine (attentive.announced fd ((unread_some before).trans unread)).imp ?_ ?_
          · intro queued
            simpa [Kernel.handled, show interest loop.log fd = _ from registered] using queued
          · intro member
            rw [next, List.map_cons, List.mem_cons] at member
            exact member.resolve_left same

theorem Step.attentive (step : Step capacity k action k') (tracked : Tracked listener k)
    (some : ∀ event ∈ k.rest, event.events ≠ Events.none) (unhindered : Unhindered action)
    (attentive : Attentive k sent) : Attentive k' fun fd => sentAfter listener fd (sent fd) action := by
  cases step with
  | connect =>
      have same : Attentive { k with backlog := k.backlog + 1 } sent :=
        ⟨attentive.idle, attentive.account, attentive.announced⟩
      exact same.notify _ _
  | send live newly => exact attentive.send tracked live newly
  | @receive fd count _ _ _ =>
      split
      · have same : Attentive (k.setRoom fd count) sent := ⟨attentive.idle, attentive.account, attentive.announced⟩
        exact same.notify _ _
      · exact ⟨attentive.idle, attentive.account, attentive.announced⟩
  | wait waits _ _ _ => exact attentive.wait waits
  | @accept event rest input loop next _ valid _ result =>
      have handled := attentive.handled tracked next valid result (some event (by rw [next]; exact List.mem_cons_self))
        unhindered
      split
      · exact handled
      · exact ⟨handled.idle, handled.account, handled.announced⟩
  | @serve event rest input loop _ next _ valid result _ _ _ =>
      have handled := attentive.handled tracked next valid result (some event (by rw [next]; exact List.mem_cons_self))
        unhindered
      exact ⟨handled.idle, handled.account, handled.announced⟩

end Step

section Runs

variable {listener : Int} {db : Database} {waiting capacity : Nat} {k : Kernel} {steps : List (Kernel × Action)}

theorem sentTo_concat (listener fd : Int) (steps : List (Kernel × Action)) (k : Kernel) (action : Action) :
    sentTo listener fd (steps ++ [(k, action)]) = sentAfter listener fd (sentTo listener fd steps) action := by
  simp [sentTo]

theorem Polls.drained (polls : Polls capacity (newKernel listener db waiting) k steps)
    (unhindered : ∀ step ∈ steps, Unhindered step.2) : Drains k := by
  refine polls.drains (polls.resumed fun step member event input same => ?_).2
  have clear := unhindered step member
  rw [same] at clear
  exact clear.2

theorem Polls.attentive (polls : Polls capacity (newKernel listener db waiting) k steps)
    (unhindered : ∀ step ∈ steps, Unhindered step.2) : Attentive k fun fd => sentTo listener fd steps := by
  induction polls with
  | start =>
      have none : ∀ fd peer, (newKernel listener db waiting).loop.connection fd ≠ some peer := by
        intro fd peer here
        have live := ((newLoop_consistent listener db).held fd peer here).1
        cases live
      refine ⟨fun fd peer here => absurd here (none fd peer), fun fd peer here => absurd here (none fd peer), ?_⟩
      intro fd unread
      cases here : (newKernel listener db waiting).loop.connection fd with
      | none => simp [Kernel.unread, here] at unread
      | some peer => exact absurd here (none fd peer)
  | @step k k' steps action polls step ih =>
      have before : ∀ step ∈ steps, Unhindered step.2 := fun step member => unhindered step (List.mem_append_left _ member)
      have next := step.attentive polls.tracked (polls.drained before).rest (unhindered (k, action) (by simp)) (ih before)
      simpa only [sentTo_concat] using next

/-- What was heard on a connection is what was sent to its descriptor since it was accepted, at some time of the run. -/
theorem Polls.interleaved (polls : Polls capacity (newKernel listener db waiting) k steps)
    (unhindered : ∀ step ∈ steps, Unhindered step.2) :
    ∃ conns count number, Interleaved db k.loop conns count number ∧
      ∀ i, i < count → ∃ front fd, front <+: steps ∧ heard (conns.peers i) = sentTo listener fd front := by
  induction polls with
  | start => exact ⟨_, 0, _, newLoop_interleaved listener db, fun i inside => absurd inside (Nat.not_lt_zero i)⟩
  | @step k k' steps action polls step ih =>
      have before : ∀ step ∈ steps, Unhindered step.2 := fun step member => unhindered step (List.mem_append_left _ member)
      obtain ⟨conns, count, number, interleaved, sources⟩ := ih before
      have tracked := polls.tracked
      have attentive := polls.attentive before
      have earlier {stream : Bytes} (source : ∃ front fd, front <+: steps ∧ stream = sentTo listener fd front) :
          ∃ front fd, front <+: steps ++ [(k, action)] ∧ stream = sentTo listener fd front := by
        obtain ⟨front, fd, start, same⟩ := source
        exact ⟨front, fd, start.trans (List.prefix_append _ _), same⟩
      have handled {event : Event} {rest : List Event} {input : Input} {loop : Loop} (next : k.rest = event :: rest)
          (valid : input.Valid k.loop) (result : k.loop.handle input event = .ok loop) :
          ∃ conns count number, Interleaved db loop conns count number ∧ ∀ i, i < count →
            ∃ front fd, front <+: steps ++ [(k, action)] ∧ heard (conns.peers i) = sentTo listener fd front := by
        obtain ⟨conns', count', number', interleaved', streams⟩ := interleaved.handle tracked.pending.consistent valid
          (tracked.pending.registered event (by rw [next]; exact List.mem_cons_self)) result
        refine ⟨conns', count', number', interleaved', fun i inside => ?_⟩
        rcases streams i inside with ⟨old, same⟩ | new
        · rw [same]
          exact earlier (sources i old)
        · exact ⟨[], 0, List.nil_prefix, new⟩
      cases step with
      | connect => exact ⟨conns, count, number, by simpa using interleaved, fun i inside => earlier (sources i inside)⟩
      | @send fd data closed noticed _ _ =>
          obtain ⟨conns', interleaved', streams⟩ := interleaved.deliver tracked.pending.consistent fd data closed
          refine ⟨conns', count, number, by split <;> simpa using interleaved', fun i inside => ?_⟩
          rcases streams i with same | ⟨peer, here, more⟩
          · rw [same]
            exact earlier (sources i inside)
          · refine ⟨_, fd, List.prefix_refl _, ?_⟩
            rw [more, sentTo_concat, sentAfter, if_pos rfl, ← attentive.account fd peer here]
            rfl
      | @receive fd amount _ _ _ =>
          refine ⟨conns, count, number, ?_, fun i inside => earlier (sources i inside)⟩
          split
          · rw [Kernel.notify_loop]
            exact interleaved
          · exact interleaved
      | wait _ _ _ _ => exact ⟨conns, count, number, interleaved, fun i inside => earlier (sources i inside)⟩
      | accept next _ valid _ result =>
          split
          · exact handled next valid result
          · exact handled next valid result
      | serve next _ valid result _ _ _ => exact handled next valid result

theorem Polls.attended {conns : Connections} {count : Nat} {number : Int → Nat} {later : Nat → Peer} {calls : List Call}
    (polls : Polls capacity (newKernel listener db waiting) k steps) (unhindered : ∀ step ∈ steps, Unhindered step.2)
    (interleaved : Interleaved db k.loop conns count number) (run : Run db (conns.followedBy count later) calls)
    {fd : Int} {peer : Peer} (here : k.loop.connection fd = some peer) (quiet : ¬k.Announced fd) :
    (conns.followedBy count later).peers (number fd) = peer ∧ peer.conn.state = .REQ ∧ peer.chan.closed = false ∧
      frames.reason (sentTo listener fd steps) = none ∧
      ((conns.followedBy count later).own (number fd)).map Done.commandList = frames.all (sentTo listener fd steps) ∧
      peer.chan.written = framedReplies ((conns.followedBy count later).own (number fd)) := by
  have attentive := polls.attentive unhindered
  have serving := polls.tracked.pending.consistent.held fd peer here
  have mine : (conns.followedBy count later).peers (number fd) = peer := by
    rw [followedBy_peers (interleaved.below fd serving.1), interleaved.peers fd peer here]
  have sound := serving.2.ready.sound
  have idle := attentive.idle fd peer here
  have read : k.unread fd = false := by
    cases unread : k.unread fd with
    | false => rfl
    | true => exact absurd (attentive.announced fd unread) quiet
  rw [unread_some here, Bool.or_eq_false_iff, Bool.not_eq_false', List.isEmpty_iff] at read
  have account := attentive.account fd peer here
  rw [read.1, List.append_nil] at account
  rw [← run.sound.own (number fd), mine, ← account]
  refine ⟨rfl, idle.state, read.2, ?_, ?_, ?_⟩
  · rw [sound.reads.reason_eq]
    exact Decoder.reason_wait idle.wait
  · rw [sound.reads.all_eq, Decoder.all_wait (show frames.next peer.conn.pending = .wait from idle.wait), List.append_nil]
  · have replies := sound.replies
    rwa [sound.conn.unsent_idle idle.state, List.append_nil] at replies

end Runs

/-- In every run in which no write is refused and no read reports EAGAIN while there is input, a connection without an
event has nothing left to do: its client has not closed its end, every request that it has sent is executed, as a part of
the one history of the database, and every reply is written in full. -/
theorem requests_attended {listener : Int} {db : Database} {waiting capacity : Nat} {k : Kernel}
    {steps : List (Kernel × Action)} (polls : Polls capacity (newKernel listener db waiting) k steps)
    (unhindered : ∀ step ∈ steps, Unhindered step.2) :
    ∃ conns calls, ∃ number : Int → Nat, Run db conns calls ∧ conns.db = k.loop.db ∧
      ∀ fd peer, k.loop.connection fd = some peer → ¬k.Announced fd →
        conns.peers (number fd) = peer ∧ peer.conn.state = .REQ ∧ peer.chan.closed = false ∧
        frames.reason (sentTo listener fd steps) = none ∧
        (conns.own (number fd)).map Done.commandList = frames.all (sentTo listener fd steps) ∧
        peer.chan.written = framedReplies (conns.own (number fd)) := by
  obtain ⟨conns, count, number, interleaved, _⟩ := polls.interleaved unhindered
  obtain ⟨calls, interleaving, _⟩ := interleaved.run (fun _ => newPeer 0 .zeros .zeros) fun _ => ⟨0, .zeros, .zeros, rfl⟩
  refine ⟨_, calls, number, interleaving, interleaved.db, fun fd peer here quiet => ?_⟩
  exact polls.attended unhindered interleaved interleaving here quiet

/-- What was sent on a connection is nothing or this, at any time of the run. -/
def SendsOnly (listener : Int) (steps : List (Kernel × Action)) (data : Bytes) : Prop :=
  ∀ front fd, front <+: steps → sentTo listener fd front = [] ∨ sentTo listener fd front = data

theorem SendsOnly.concat {listener : Int} {steps : List (Kernel × Action)} {data : Bytes}
    (before : SendsOnly listener steps data) {k : Kernel} {action : Action}
    (now : ∀ fd, sentAfter listener fd (sentTo listener fd steps) action = [] ∨
      sentAfter listener fd (sentTo listener fd steps) action = data) :
    SendsOnly listener (steps ++ [(k, action)]) data := by
  intro front fd start
  rcases List.prefix_concat_iff.mp start with rfl | earlier
  · rw [sentTo_concat]
    exact now fd
  · exact before front fd earlier

theorem request_announced : ∃ k steps before, Polls 24 (newKernel 3 newDatabase 0) k steps ∧
    (∀ step ∈ steps, Unhindered step.2) ∧ sentTo 3 5 steps = emptyFrame ∧
    SendsOnly 3 steps emptyFrame ∧ k.rest = [incoming 5] ∧
    k.loop.listener = 3 ∧ (∀ fd, k.queued fd = none) ∧ k.room 5 = 24 ∧
    k.loop.connection 5 = some before ∧ before.chan.closed = false ∧
    ((k.loop.handle ⟨-1, .zeros, .zeros, [], []⟩ (incoming 5)).toOption.map fun loop =>
      ((loop.connection 5).map fun peer => (peer.chan.written, peer.executed.length),
        sent (k.loop.connection 5) (loop.connection 5), loop.log)) =
        some (some (framedReplies [emptyDone], 1), 24, [.add 3 ⟨true, true, false, false⟩, .accept 5,
          .add 5 ⟨true, false, true, true⟩, .io 5]) := by
  have first := @Polls.step 24 _ _ _ _ _ (@Polls.start 24 (newKernel 3 newDatabase 0)) .connect
  have waited := first.step (@Step.wait _ _ [incoming 3] rfl (by decide) (by decide) (by decide))
  have accepted := waited.step (@Step.accept _ _ _ _ firstInput _ rfl rfl (.inr rfl) (fun _ => Nat.one_pos) rfl)
  have asked := accepted.step (@Step.send _ _ 5 emptyFrame false true rfl (fun _ => rfl))
  have again := asked.step (@Step.wait _ _ [incoming 5] rfl (by decide) (by decide) (by decide))
  refine ⟨_, _, _, again, ?_, rfl, ?_, rfl, rfl, ?_, rfl, rfl, rfl, by decide +kernel⟩
  · intro step member
    simp only [List.nil_append, List.cons_append, List.mem_cons, List.not_mem_nil, or_false] at member
    rcases member with rfl | rfl | rfl | rfl | rfl <;> trivial
  · have nothing : SendsOnly 3 [] emptyFrame := by
      intro front fd start
      rw [List.prefix_nil.mp start]
      exact .inl rfl
    refine ((((nothing.concat ?_).concat ?_).concat ?_).concat ?_).concat ?_
    all_goals intro fd
    · exact .inl rfl
    · exact .inl rfl
    · left
      simp [sentTo, sentAfter]
    · by_cases own : 5 = fd
      · subst own
        exact .inr rfl
      · left
        simp [sentTo, sentAfter, own]
    · by_cases own : 5 = fd
      · subst own
        exact .inr rfl
      · left
        simp [sentTo, sentAfter, own]
  · intro fd
    by_cases own : fd = 5
    · rw [own]
      rfl
    · by_cases listening : fd = 3
      · rw [listening]
        rfl
      · rw [← Option.not_isSome_iff_eq_none]
        intro queued
        have registered :
            (interest [.add 3 ⟨true, true, false, false⟩, .accept 5, .add 5 ⟨true, false, true, true⟩] fd).isSome :=
          again.tracked.queued fd queued
        simp [interest, registers, Ne.symm own, Ne.symm listening] at registered

theorem request_answered : ∃ k steps before k' peer, Polls 24 (newKernel 3 newDatabase 0) k steps ∧
    (∀ step ∈ steps, Unhindered step.2) ∧ sentTo 3 5 steps = emptyFrame ∧ SendsOnly 3 steps emptyFrame ∧
    k.loop.connection 5 = some before ∧ before.chan.closed = false ∧
    Polls 24 k k' [(k, .handle (incoming 5) ⟨-1, .zeros, .zeros, [], []⟩)] ∧ k'.rest = [] ∧ (∀ fd, k'.queued fd = none) ∧
    (∀ fd, k'.loop.connected fd = true → fd = 5) ∧ k'.loop.connection 5 = some peer ∧ peer.executed.length = 1 ∧
    peer.chan.written = framedReplies [emptyDone] := by
  obtain ⟨k, steps, before, polls, unhindered, asked, fronts, next, listener, queued, room, there, attached, evaluated⟩ :=
    request_announced
  cases result : k.loop.handle ⟨-1, .zeros, .zeros, [], []⟩ (incoming 5) with
  | error crash =>
      rw [result] at evaluated
      cases evaluated
  | ok loop =>
      rw [result] at evaluated
      simp only [Except.toOption, Option.map_some, Option.some.injEq, Prod.mk.injEq, Option.map_eq_some_iff] at evaluated
      obtain ⟨⟨peer, here, reply, one⟩, written, log⟩ := evaluated
      have wrote : sent (k.loop.connection (incoming 5).fd) (loop.connection (incoming 5).fd) = 24 := written
      have free : k.room (incoming 5).fd = 24 := room
      have served := (@Polls.start 24 k).step (@Step.serve 24 k _ _ _ loop 0 next (by rw [listener]; decide)
        (.inl (by decide)) result (by rw [wrote, free]) (fun _ _ _ _ => by rw [wrote, free]) (by rw [wrote, free]; decide))
      refine ⟨k, steps, before, _, peer, polls, unhindered, asked, fronts, there, attached, served, rfl, ?_, ?_, here, one,
        reply⟩
      · intro fd
        simp [Kernel.setRoom, Kernel.handled, queued]
      · intro fd live
        have live : openAfter false loop.log fd = true := live
        rw [log] at live
        by_contra other
        simp [openAfter, opens, Ne.symm other] at live

theorem request_served : ∃ k steps peer, Polls 24 (newKernel 3 newDatabase 0) k steps ∧
    (∀ step ∈ steps, Unhindered step.2) ∧ sentTo 3 5 steps = emptyFrame ∧
    SendsOnly 3 steps emptyFrame ∧ k.rest = [] ∧
    k.loop.connection 5 = some peer ∧ ¬k.Announced 5 ∧ peer.chan.written = framedReplies [emptyDone] := by
  obtain ⟨k, steps, before, k', peer, polls, unhindered, asked, fronts, _, _, served, idle, queued, _, here, _, written⟩ :=
    request_answered
  refine ⟨k', _, peer, polls.trans served, ?_, ?_, fronts.concat ?_, idle, here, ?_, written⟩
  · intro step member
    rcases List.mem_append.mp member with before | now
    · exact unhindered step before
    · rw [List.mem_singleton.mp now]
      exact ⟨List.not_mem_nil, List.not_mem_nil⟩
  · rw [sentTo_concat, asked]
    rfl
  · exact fun fd => fronts steps fd (List.prefix_refl steps)
  · rintro (more | member)
    · rw [queued] at more
      cases more
    · rw [idle] at member
      cases member

theorem requests_attended_single : ∃ k steps conns calls, ∃ number : Int → Nat,
    Polls 24 (newKernel 3 newDatabase 0) k steps ∧ Run newDatabase conns calls ∧ k.rest = [] ∧
    (conns.own (number 5)).map Done.commandList = frames.all emptyFrame := by
  obtain ⟨k, steps, peer, polls, unhindered, asked, _, idle, here, quiet, _⟩ := request_served
  obtain ⟨conns, calls, number, interleaving, _, attended⟩ := requests_attended polls unhindered
  have answered := (attended 5 peer here quiet).2.2.2.2.1
  rw [asked] at answered
  exact ⟨k, steps, conns, calls, number, polls, interleaving, idle, answered⟩

end Coxx.Server
