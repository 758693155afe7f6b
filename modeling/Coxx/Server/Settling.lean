import Coxx.Server.Chunks
import Coxx.Server.Hangups
import Coxx.Server.Linearizable
import Mathlib.Data.Set.Card

/-! A server that its clients leave alone comes to rest. An event costs a call of `epoll_wait` at most, and its handling, and
the loop goes on while there is one.
-/

set_option autoImplicit false

namespace Coxx.Server

open Library Common

/-- A step of the server. `epoll_wait` returns events, and the kernel takes and gives what a call of `io` asks it for. -/
def Serves : Action → Prop
  | .wait batch => batch ≠ []
  | .handle _ input => Willing input.reads ∧ Willing input.writes
  | _ => False

def Halted (capacity : Nat) (k : Kernel) : Prop := ∀ action k', Serves action → ¬Step capacity k action k'

def Kernel.undelivered (k : Kernel) : Set Int := {fd | (k.queued fd).isSome}

/-- What is left to do: the events are delivered and handled. -/
noncomputable def Kernel.work (k : Kernel) : Nat := 2 * k.undelivered.ncard + k.rest.length

theorem Serves.unhindered {action : Action} (serves : Serves action) : Unhindered action := by
  cases action with
  | handle event input => exact ⟨(not_mem_willing serves.1).1, (not_mem_willing serves.2).1⟩
  | _ => trivial

/-! ### The end of the work -/

section Work

variable {listener : Int} {capacity : Nat} {k k' : Kernel} {action : Action} {later : List (Kernel × Action)}

theorem Kernel.notify_undelivered (k : Kernel) (fd : Int) (condition : Events) :
    (k.notify fd condition).undelivered ⊆ insert fd k.undelivered := by
  intro other here
  by_cases own : other = fd
  · exact .inl own
  · rw [undelivered, Set.mem_ofPred_eq, Kernel.notify_other own] at here
    exact .inr here

theorem Kernel.handled_undelivered (k : Kernel) (loop : Loop) (rest : List Event) :
    (k.handled loop rest).undelivered ⊆ k.undelivered := by
  intro fd here
  simp only [undelivered, Kernel.handled, Set.mem_ofPred_eq] at here
  split at here
  · exact here
  · cases here

theorem Kernel.wait_undelivered {batch : List Event} (queued : ∀ event ∈ batch, k.queued event.fd = some event.events) :
    {fd | fd ∈ batch.map Event.fd} ⊆ k.undelivered ∧
    ({ k with
      rest := batch
      queued := fun fd => if fd ∈ batch.map Event.fd then none else k.queued fd } : Kernel).undelivered =
        k.undelivered \ {fd | fd ∈ batch.map Event.fd} := by
  constructor
  · rintro fd member
    obtain ⟨event, inside, rfl⟩ := List.mem_map.mp member
    exact Option.isSome_iff_exists.mpr ⟨_, queued event inside⟩
  · ext fd
    simp only [undelivered, Set.mem_ofPred_eq, Set.mem_sdiff]
    split <;> simp_all

theorem Step.finite (step : Step capacity k action k') (finite : k.undelivered.Finite) : k'.undelivered.Finite := by
  have notified {k : Kernel} {fd : Int} {condition : Events} (before : k.undelivered.Finite) :
      (k.notify fd condition).undelivered.Finite := (before.insert fd).subset (k.notify_undelivered fd condition)
  cases step with
  | connect => exact notified finite
  | send =>
      split
      · exact notified finite
      · exact finite
  | receive =>
      split
      · exact notified finite
      · exact finite
  | wait _ _ _ queued =>
      rw [(Kernel.wait_undelivered queued).2]
      exact finite.sdiff
  | @accept _ rest _ loop =>
      have handled := finite.subset (k.handled_undelivered loop rest)
      split
      · exact handled
      · exact handled
  | @serve _ rest _ loop => exact finite.subset (k.handled_undelivered loop rest)

theorem Polls.finite {db : Database} {waiting : Nat} {steps : List (Kernel × Action)}
    (polls : Polls capacity (newKernel listener db waiting) k steps) : k.undelivered.Finite := by
  induction polls with
  | start =>
      refine (Set.finite_singleton listener).subset fun fd here => ?_
      simp only [Kernel.undelivered, newKernel, Set.mem_ofPred_eq] at here
      split at here
      · rename_i both
        exact both.1
      · cases here
  | step _ step ih => exact step.finite ih

theorem Kernel.handled_work {event : Event} {rest : List Event} (finite : k.undelivered.Finite)
    (next : k.rest = event :: rest) (loop : Loop) : (k.handled loop rest).work < k.work := by
  have fewer := Set.ncard_le_ncard (k.handled_undelivered loop rest) finite
  have shorter : k.rest.length = rest.length + 1 := by rw [next, List.length_cons]
  have left : (k.handled loop rest).rest.length = rest.length := rfl
  unfold work
  omega

theorem Step.work_lt (step : Step capacity k action k') (finite : k.undelivered.Finite) (serves : Serves action) :
    k'.work < k.work := by
  cases step with
  | connect => cases serves
  | send => cases serves
  | receive => cases serves
  | @wait batch waits _ distinct queued =>
      obtain ⟨inside, delivered⟩ := Kernel.wait_undelivered queued
      have size : {fd | fd ∈ batch.map Event.fd}.ncard = batch.length := by
        rw [← List.coe_toFinset, Set.ncard_coe_finset, List.toFinset_card_of_nodup distinct, List.length_map]
      have total := Set.ncard_sdiff_add_ncard_of_subset inside finite
      have some := List.length_pos_iff.mpr serves
      -- an event counts twice while it is queued, and once in the batch
      unfold Kernel.work
      rw [delivered, waits]
      simp only [List.length_nil]
      omega
  | @accept _ _ _ loop next =>
      have less := Kernel.handled_work finite next loop
      split
      · exact less
      · exact less
  | @serve _ _ _ loop _ next => exact Kernel.handled_work finite next loop

theorem Polls.length_le (polls : Polls capacity k k' later) (finite : k.undelivered.Finite)
    (serves : ∀ step ∈ later, Serves step.2) : k'.undelivered.Finite ∧ later.length + k'.work ≤ k.work := by
  induction polls with
  | start => exact ⟨finite, by simp⟩
  | step _ step ih =>
      obtain ⟨finite', bound⟩ := ih fun step member => serves step (List.mem_append_left _ member)
      have less := step.work_lt finite' (serves _ (List.mem_append_right _ List.mem_cons_self))
      refine ⟨step.finite finite', ?_⟩
      rw [List.length_append, List.length_singleton]
      omega

end Work

/-! ### Connections that stay open -/

/-- A call that meets no malformed frame, no end of the input and no error keeps its connection open. -/
theorem open_of_handled {session session' : Session Database} (handled : Handled session session')
    (progress : Progress execute session session') (sound : session'.toPeer.Sound) (idle : session.conn.state = .REQ)
    (reads : Willing session.chan.reads) (writes : Willing session.chan.writes) (attached : session.chan.closed = false)
    (formed : frames.reason (session.chan.received ++ session.chan.incoming) = none) : session'.conn.state ≠ .END := by
  intro ended
  cases handled with
  | flushed busy _ => cases idle.symm.trans busy
  | read _ filled =>
      cases filled with
      | waiting state _ _ _ _ => cases ended.symm.trans state
      | stopped _ stop _ =>
          have stopped := sound.reads.reason_eq.trans (Decoder.reason_stop (d := frames) stop)
          rw [← progress.delivered, Decoder.reason_append _ stopped] at formed
          cases formed
      | finished _ _ closed _ _ =>
          rw [progress.closed, attached] at closed
          cases closed
      | failed _ cause => exact (not_mem_willing reads).2 cause
      | blocked _ _ short => exact short writes

section Kept

variable {listener : Int} {capacity : Nat} {k k' : Kernel} {action : Action} {fd : Int}

/-- A step of the server keeps the connection of a client that sends well-formed requests. -/
theorem Step.kept {sent : Int → Bytes} {peer : Peer} (step : Step capacity k action k') (tracked : Tracked listener k)
    (attentive : Attentive k sent) (truthful : Truthful k) (serves : Serves action)
    (here : k.loop.connection fd = some peer) (attached : peer.chan.closed = false)
    (formed : frames.reason (sent fd) = none) :
    ∃ after, k'.loop.connection fd = some after ∧ after.chan.closed = false ∧
      sentAfter listener fd (sent fd) action = sent fd := by
  have handled {event : Event} {rest : List Event} {input : Input} {loop : Loop} (next : k.rest = event :: rest)
      (valid : input.Valid k.loop) (result : k.loop.handle input event = .ok loop)
      (serves : Serves (.handle event input)) : ∃ after, loop.connection fd = some after ∧ after.chan.closed = false ∧
        sentAfter listener fd (sent fd) (.handle event input) = sent fd := by
    obtain ⟨_, turn⟩ := tracked.handled next valid result
    have listening := tracked.pending.listener
    rw [sentAfter, if_neg (listening ▸ turn.old here)]
    by_cases own : fd = event.fd
    · subst own
      obtain ⟨live, serving⟩ := tracked.pending.consistent.held _ _ here
      have idle := (attentive.idle _ _ here).state
      have account := attentive.account _ _ here
      have quiet : event.events.hangsUp = false := by
        by_contra up
        obtain ⟨_, there, closed⟩ := truthful.rest event (by rw [next]; exact List.mem_cons_self) (by simpa using up)
        cases here.symm.trans there
        rw [attached] at closed
        cases closed
      have alive : ∀ session, (input.session peer k.loop.db).io execute = .ok session → session.conn.state ≠ .END := by
        intro session done
        obtain ⟨sound, progress, handled⟩ := serving.io_ok done
        exact open_of_handled handled progress sound idle serves.1 serves.2 attached (account ▸ formed)
      rcases turn.goesOn (listening ▸ tracked.ne_listener live) here quiet alive with same | ⟨_, done, there⟩
      · exact ⟨_, same, attached, rfl⟩
      · exact ⟨_, there, (serving.io_ok done).2.1.closed.trans attached, rfl⟩
    · exact ⟨_, turn.stays own here, attached, rfl⟩
  cases step with
  | connect => cases serves
  | send => cases serves
  | receive => cases serves
  | wait => exact ⟨_, here, attached, rfl⟩
  | accept next _ valid _ result =>
      split
      · exact handled next valid result serves
      · exact handled next valid result serves
  | serve next _ valid result _ _ _ => exact handled next valid result serves

end Kept

section Runs

variable {listener : Int} {db : Database} {waiting capacity : Nat} {k k' : Kernel} {steps later : List (Kernel × Action)}

theorem Polls.room_le (polls : Polls capacity (newKernel listener db waiting) k steps) : ∀ fd, k.room fd ≤ capacity := by
  induction polls with
  | start => exact fun fd => Nat.zero_le _
  | @step k k' steps action polls step ih =>
      have changed {fd other : Int} {room : Nat} (fits : room ≤ capacity) :
          Function.update k.room fd room other ≤ capacity := by
        by_cases own : other = fd
        · rwa [own, Function.update_self]
        · rw [Function.update_of_ne own]
          exact ih other
      cases step with
      | connect => simpa using ih
      | send =>
          split
          · simpa using ih
          · exact ih
      | receive live _ taken =>
          intro other
          split
          · rename_i full
            rw [Kernel.notify_room]
            exact changed (by omega)
          · exact changed taken
      | wait => exact ih
      | accept =>
          split
          · exact ih
          · exact fun other => changed (le_refl _)
      | serve _ _ _ _ _ _ bounded => exact fun other => changed (by omega)

theorem unhindered_append (unhindered : ∀ step ∈ steps, Unhindered step.2) (serves : ∀ step ∈ later, Serves step.2) :
    ∀ step ∈ steps ++ later, Unhindered step.2 := by
  intro step member
  rcases List.mem_append.mp member with before | after
  · exact unhindered step before
  · exact (serves step after).unhindered

/-- A server that is left alone keeps the connections of the clients that send well-formed requests. -/
theorem Polls.kept {fd : Int} {peer : Peer} (polls : Polls capacity (newKernel listener db waiting) k steps)
    (unhindered : ∀ step ∈ steps, Unhindered step.2) (more : Polls capacity k k' later)
    (serves : ∀ step ∈ later, Serves step.2) (here : k.loop.connection fd = some peer) (attached : peer.chan.closed = false)
    (formed : frames.reason (sentTo listener fd steps) = none) :
    ∃ after, k'.loop.connection fd = some after ∧ after.chan.closed = false ∧
      sentTo listener fd (steps ++ later) = sentTo listener fd steps := by
  induction more with
  | start => exact ⟨peer, here, attached, by rw [List.append_nil]⟩
  | @step mid k' later action more step ih =>
      have before : ∀ step ∈ later, Serves step.2 := fun step member => serves step (List.mem_append_left _ member)
      obtain ⟨after, there, open', same⟩ := ih before
      have whole := polls.trans more
      have clear := unhindered_append unhindered before
      obtain ⟨final, kept, closed, still⟩ := step.kept whole.tracked (whole.attentive clear) (whole.truthful clear)
        (serves (mid, action) (List.mem_append_right _ List.mem_cons_self)) there open' (same.symm ▸ formed)
      refine ⟨final, kept, closed, ?_⟩
      rw [← List.append_assoc, sentTo_concat, still, same]

end Runs

/-! ### Progress -/

section Stuck

variable {s : Loop} {input : Input} {event : Event} {crash : Crash}

theorem reset_outside {fd : Int} (result : s.reset fd = .error crash) : crash = .outside := by
  unfold Loop.reset at result
  split at result
  · cases result
    rfl
  · cases result

theorem serve_stuck (consistent : Consistent s) (live : s.connected event.fd = true)
    (result : s.serve input event = .error crash) :
    ∃ peer, s.connection event.fd = some peer ∧ Stuck execute (input.session peer s.db) := by
  have ends := @serve_ends s input event consistent live
  rw [result] at ends
  obtain ⟨peer, here⟩ := Option.isSome_iff_exists.mp (consistent.filled event.fd live)
  have serving := (consistent.held _ _ here).2
  have call := @Common.io_ends _ execute _ (session_sound serving input s.db) (serving.ready.room serving.state)
    serving.state
  refine ⟨peer, here, ?_⟩
  unfold Loop.serve at result
  simp only [Loop.connection_some.mp here] at result
  split at result
  · cases done : (input.session peer s.db).io execute with
    | error fault =>
        rw [done] at call
        exact call.2
    | ok session =>
        simp only [done] at result
        split at result
        · cases ends.symm.trans (reset_outside result)
        · cases result
  · cases result

theorem handle_stuck (consistent : Consistent s) (registered : (interest s.log event.fd).isSome)
    (other : event.fd ≠ s.listener) (valid : input.Valid s) (result : s.handle input event = .error crash) :
    ∃ peer, s.connection event.fd = some peer ∧ Stuck execute (input.session peer s.db) := by
  have ends := handle_ends consistent valid registered
  rw [result] at ends
  obtain ⟨_, rfl⟩ : event.fd ≠ s.listener ∧ crash = .io .command :=
    ends.resolve_right fun listening => other listening.1
  have live := consistent.connected registered other
  rw [Loop.handle, if_neg other] at result
  cases serves : s.serve input event with
  | error crash => exact serve_stuck consistent live serves
  | ok mid =>
      rw [serves] at result
      have up : mid.hangUp event = .error (.io .command) := result
      unfold Loop.hangUp at up
      split at up
      · cases reset_outside up
      · cases up

end Stuck

section Progress

variable {listener : Int} {capacity : Nat} {k : Kernel} {sent : Int → Bytes}

/-- What the kernel gives when it does what it is asked to. -/
def willingInput : Input := ⟨-1, .zeros, .zeros, [], []⟩

/-- A server that can do nothing more has no event left, or stands before a request without a result. -/
theorem Halted.progress (halted : Halted capacity k) (tracked : Tracked listener k) (attentive : Attentive k sent)
    (some : ∀ event ∈ k.rest, event.events ≠ Events.none) (room : ∀ fd, k.room fd ≤ capacity) :
    (∀ fd, ¬k.Announced fd) ∨
      ∃ fd peer, k.loop.connection fd = .some peer ∧ Stuck execute (willingInput.session peer k.loop.db) := by
  have willing : Serves (.handle ⟨0, Events.none⟩ willingInput) := ⟨fun _ member => absurd member List.not_mem_nil,
    fun _ member => absurd member List.not_mem_nil⟩
  have valid : willingInput.Valid k.loop := .inl (by decide)
  cases next : k.rest with
  | nil =>
      left
      rintro fd (queued | member)
      · obtain ⟨events, here⟩ := Option.isSome_iff_exists.mp queued
        exact halted (.wait [⟨fd, events⟩]) _ (List.cons_ne_nil _ _)
          (.wait next (show 1 ≤ MAX_EVENTS by decide) (List.nodup_singleton _) (by simpa using here))
      · rw [next] at member
        cases member
  | cons event rest =>
      have inside : event ∈ k.rest := by
        rw [next]
        exact List.mem_cons_self
      by_cases listening : event.fd = k.loop.listener
      · have result : k.loop.handle willingInput event = .ok k.loop := by
          rw [Loop.handle, if_pos listening, if_pos (by decide)]
        exact absurd (Step.accept next listening valid (fun wrong => absurd wrong (by decide)) result)
          (halted _ _ willing)
      · cases result : k.loop.handle willingInput event with
        | error crash =>
            exact .inr ⟨_, handle_stuck tracked.pending.consistent (tracked.pending.registered event inside) listening valid
              result⟩
        | ok loop =>
            obtain ⟨_, turn⟩ := tracked.handled next valid result
            have free := room event.fd
            refine absurd (@Step.serve capacity k event rest willingInput loop
              (Coxx.Server.sent (k.loop.connection event.fd) (loop.connection event.fd) - k.room event.fd) next listening
              valid result (by omega) ?_ (by omega)) (halted _ _ willing)
            intro _ peer here busy
            have idle := (attentive.called tracked turn (some event inside) willing.unhindered
              (tracked.pending.listener ▸ listening) here).1.state
            cases idle.symm.trans busy

end Progress

/-! ### Requests that have no result -/

/-- The names of members in what was sent hold no NUL bytes, at any time of the run. -/
def SendsClean (listener : Int) (steps : List (Kernel × Action)) : Prop :=
  ∀ front fd, front <+: steps → ∀ commandList ∈ frames.all (sentTo listener fd front),
    ∀ name ∈ (Request.command commandList).names, Zset.Clean name

/-- The memory is full in front of one of the requests, once those before it are executed. -/
def Exhausted (peer : Peer) (db : Database) (requests : List (List Bytes)) : Prop :=
  ∃ new after commandList, Replays execute db new after ∧ execute after commandList = none ∧ Full after.commandMap ∧
    (peer.executed ++ new).map Done.commandList ++ [commandList] <+: requests

section Requests

variable {listener : Int} {around : Nat → Surroundings} {waiting capacity : Nat} {k k' : Kernel}
  {steps later : List (Kernel × Action)}

theorem sentTo_serves (listener fd : Int) (steps : List (Kernel × Action)) (serves : ∀ step ∈ later, Serves step.2) :
    sentTo listener fd (steps ++ later) = [] ∨ sentTo listener fd (steps ++ later) = sentTo listener fd steps := by
  induction later using List.reverseRecOn with
  | nil => exact .inr (by rw [List.append_nil])
  | append_singleton later last ih =>
      have before := ih fun step member => serves step (List.mem_append_left _ member)
      have now := serves last (List.mem_append_right _ List.mem_cons_self)
      obtain ⟨k, action⟩ := last
      rw [← List.append_assoc, sentTo_concat]
      cases action with
      | connect => cases now
      | send => cases now
      | receive => cases now
      | wait => exact before
      | handle event input =>
          rw [sentAfter]
          split
          · exact .inl rfl
          · exact before

theorem SendsClean.append (clean : SendsClean listener steps) (serves : ∀ step ∈ later, Serves step.2) :
    SendsClean listener (steps ++ later) := by
  intro front fd start commandList member
  rcases List.prefix_or_prefix_of_prefix start (List.prefix_append steps later) with early | ⟨rest, rfl⟩
  · exact clean front fd early commandList member
  · have inside := (List.prefix_append_right_inj steps).mp start
    rcases sentTo_serves listener fd steps fun step member => serves step (inside.subset member) with none | same
    · rw [none, Decoder.all_wait (show frames.next [] = .wait from rfl)] at member
      cases member
    · rw [same] at member
      exact clean steps fd (List.prefix_refl _) commandList member

theorem SendsClean.named {conns : Connections} {count : Nat} {later : Nat → Peer} {calls : List Call}
    (clean : SendsClean listener steps) (run : Run ⟨initCommandMap, around⟩ (conns.followedBy count later) calls)
    (unused : ∀ i, Unused (later i))
    (sources : ∀ i, i < count → ∃ front fd, front <+: steps ∧ heard (conns.peers i) = sentTo listener fd front) :
    ∀ entry ∈ conns.order, ∀ name ∈ entry.2.command.names, Zset.Clean name := by
  intro entry member
  obtain ⟨inside, requested⟩ := heard_of_order run unused member
  obtain ⟨front, fd, start, same⟩ := sources entry.1 inside
  rw [same] at requested
  exact clean front fd start _ requested

theorem Polls.exhausted {fd : Int} {peer : Peer} {input : Input}
    (polls : Polls capacity (newKernel listener ⟨initCommandMap, around⟩ waiting) k steps)
    (unhindered : ∀ step ∈ steps, Unhindered step.2) (clean : SendsClean listener steps)
    (here : k.loop.connection fd = some peer) (stuck : Stuck execute (input.session peer k.loop.db)) :
    Exhausted peer k.loop.db (frames.all (sentTo listener fd steps)) := by
  obtain ⟨conns, count, number, interleaved, sources⟩ := polls.interleaved unhindered
  have unused : ∀ i : Nat, Unused (newPeer 0 .zeros .zeros) := fun i => ⟨0, .zeros, .zeros, rfl⟩
  obtain ⟨calls, served, _⟩ := interleaved.run (fun _ => newPeer 0 .zeros .zeros) unused
  have named := clean.named served unused sources
  obtain ⟨new, after, commandList, replays, none, requests⟩ := stuck
  have account := (polls.attentive unhindered).account fd peer here
  have requests : (peer.executed ++ new).map Done.commandList ++ [commandList] <+: frames.all (sentTo listener fd steps) :=
    account ▸ requests
  have asked : ∀ request ∈ (peer.executed ++ new).map Done.commandList ++ [commandList],
      ∀ name ∈ (Request.command request).names, Zset.Clean name := fun request member =>
    clean steps fd (List.prefix_refl _) request (requests.subset member)
  have executed := Replays.cleanRun CleanRun.start served.sound.replays fun done member => by
    obtain ⟨entry, inside, rfl⟩ := List.mem_map.mp member
    exact named entry inside
  rw [show (conns.followedBy count fun _ => newPeer 0 .zeros .zeros).db = k.loop.db from interleaved.db] at executed
  have run := Replays.cleanRun executed replays fun done member =>
    asked _ (List.mem_append_left _ (List.mem_map_of_mem (List.mem_append_right _ member)))
  refine ⟨new, after, commandList, replays, none, ?_, requests⟩
  by_contra space
  obtain ⟨cm', reply, result⟩ := run.answers space (asked _ (List.mem_append_right _ List.mem_cons_self)) (after.around 0)
  rw [execute, result] at none
  cases none

end Requests

/-- A server that is left alone comes to rest, after a number of steps that is given by its events. It has then executed
every request of every client that sends well-formed requests and has not closed its end, and written every reply; or it
has met a request for which there is no memory.
-/
theorem requests_settled {listener : Int} {around : Nat → Surroundings} {waiting capacity : Nat} {k : Kernel}
    {steps : List (Kernel × Action)} (polls : Polls capacity (newKernel listener ⟨initCommandMap, around⟩ waiting) k steps)
    (unhindered : ∀ step ∈ steps, Unhindered step.2) (clean : SendsClean listener steps) :
    ∀ k' later, Polls capacity k k' later → (∀ step ∈ later, Serves step.2) →
      later.length ≤ k.work ∧
      (Halted capacity k' →
        (∃ fd peer, k'.loop.connection fd = some peer ∧
          Exhausted peer k'.loop.db (frames.all (sentTo listener fd (steps ++ later)))) ∨
        (∀ fd, ¬k'.Announced fd) ∧
        ∃ conns calls, ∃ number : Int → Nat, Run ⟨initCommandMap, around⟩ conns calls ∧ conns.db = k'.loop.db ∧
          ∀ fd peer, k.loop.connection fd = some peer → peer.chan.closed = false →
            frames.reason (sentTo listener fd steps) = none →
            ∃ after, k'.loop.connection fd = some after ∧ conns.peers (number fd) = after ∧
              (conns.own (number fd)).map Done.commandList = frames.all (sentTo listener fd steps) ∧
              after.chan.written = framedReplies (conns.own (number fd))) := by
  intro k' later more serves
  have bound := (more.length_le polls.finite serves).2
  refine ⟨by omega, fun halted => ?_⟩
  have whole := polls.trans more
  have clear := unhindered_append unhindered serves
  rcases halted.progress whole.tracked (whole.attentive clear) (whole.drained clear).rest whole.room_le with
    quiet | ⟨fd, peer, here, stuck⟩
  · obtain ⟨conns, count, number, interleaved, _⟩ := whole.interleaved clear
    obtain ⟨calls, run, _⟩ := interleaved.run (fun _ => newPeer 0 .zeros .zeros) fun _ => ⟨0, .zeros, .zeros, rfl⟩
    refine .inr ⟨quiet, _, calls, number, run, interleaved.db, fun fd peer here attached formed => ?_⟩
    obtain ⟨after, there, _, same⟩ := polls.kept unhindered more serves here attached formed
    obtain ⟨mine, _, _, _, executed, written⟩ := whole.attended clear interleaved run there (quiet fd)
    exact ⟨after, there, mine, same ▸ executed, written⟩
  · exact .inl ⟨fd, peer, here, whole.exhausted clear (clean.append serves) here stuck⟩

theorem halted_of_quiet {capacity : Nat} {k : Kernel} (quiet : ∀ fd, ¬k.Announced fd) : Halted capacity k := by
  have nothing {event : Event} {rest : List Event} (next : k.rest = event :: rest) : False := by
    refine quiet event.fd (.inr ?_)
    rw [next]
    exact List.mem_cons_self
  intro action k' serves step
  cases step with
  | connect => cases serves
  | send => cases serves
  | receive => cases serves
  | @wait batch _ _ _ queued =>
      obtain ⟨event, member⟩ := List.exists_mem_of_ne_nil batch serves
      exact quiet event.fd (.inl (Option.isSome_iff_exists.mpr ⟨_, queued event member⟩))
  | accept next => exact nothing next
  | serve next => exact nothing next

theorem emptyFrame_all : frames.all emptyFrame = [[]] ∧ frames.reason emptyFrame = none := by
  have found : frames.next emptyFrame = .item [] [] := rfl
  have wait : frames.next [] = .wait := rfl
  rw [Decoder.all_item found, Decoder.all_wait wait, Decoder.reason_item found, Decoder.reason_wait wait]
  exact ⟨rfl, rfl⟩

theorem SendsOnly.clean {listener : Int} {steps : List (Kernel × Action)} (fronts : SendsOnly listener steps emptyFrame) :
    SendsClean listener steps := by
  intro front fd start commandList member name named
  rcases fronts front fd start with none | one
  · rw [none, Decoder.all_wait (show frames.next [] = .wait from rfl)] at member
    cases member
  · rw [one, emptyFrame_all.1, List.mem_singleton] at member
    subst member
    cases named

/-- A client whose request is answered by the one step that is left to do. -/
theorem requests_settled_single : ∃ k steps k' later conns calls, ∃ number : Int → Nat,
    Polls 24 (newKernel 3 newDatabase 0) k steps ∧ Polls 24 k k' later ∧ later.length = 1 ∧ 1 ≤ k.work ∧
    Run newDatabase conns calls ∧ (conns.own (number 5)).map Done.commandList = [[]] ∧
    ∃ after, k'.loop.connection 5 = some after ∧ after.chan.written = framedReplies (conns.own (number 5)) := by
  obtain ⟨k, steps, before, k', peer, polls, unhindered, asked, fronts, here, attached, served, idle, queued, own, there,
    one, _⟩ := request_answered
  have serves : ∀ step ∈ [(k, Action.handle (incoming 5) ⟨-1, .zeros, .zeros, [], []⟩)], Serves step.2 := by
    intro step member
    rw [List.mem_singleton.mp member]
    exact ⟨fun _ member => absurd member List.not_mem_nil, fun _ member => absurd member List.not_mem_nil⟩
  obtain ⟨bound, rests⟩ := requests_settled polls unhindered fronts.clean k' _ served serves
  have quiet : ∀ fd, ¬k'.Announced fd := by
    rintro fd (more | member)
    · rw [queued] at more
      cases more
    · rw [idle] at member
      cases member
  rcases rests (halted_of_quiet quiet) with ⟨fd, other, held, _, _, _, _, _, _, requests⟩ |
    ⟨_, conns, calls, number, run, _, answered⟩
  · -- the one request is executed already
    obtain rfl := own fd ((polls.trans served).tracked.pending.consistent.held fd other held).1
    cases there.symm.trans held
    have same : sentTo 3 5 (steps ++ [(k, Action.handle (incoming 5) ⟨-1, .zeros, .zeros, [], []⟩)]) = emptyFrame := by
      rw [sentTo_concat, asked]
      rfl
    have short := requests.length_le
    rw [same, emptyFrame_all.1] at short
    simp [one] at short
  · obtain ⟨after, left, _, executed, written⟩ := answered 5 before here attached (by rw [asked]; exact emptyFrame_all.2)
    rw [asked, emptyFrame_all.1] at executed
    exact ⟨k, steps, k', _, conns, calls, number, polls, served, rfl, bound, run, executed, after, left, written⟩

end Coxx.Server
