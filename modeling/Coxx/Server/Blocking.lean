import Coxx.Server.Polling

/-! Replies that meet a full send buffer. A connection is never registered for EPOLLOUT, so that room in its send buffer
is no event. -/

set_option autoImplicit false

namespace Coxx.Server

open Library Common

/-- A connection whose reply was left behind. -/
def Busy (k : Kernel) (fd : Int) : Prop := ∃ peer, k.loop.connection fd = some peer ∧ peer.conn.state = .RES

/-- The loop waits, with no event for a connection whose reply could be written on. -/
def Stalled (k : Kernel) (fd : Int) : Prop :=
  k.rest = [] ∧ k.queued fd = none ∧ 0 < k.room fd ∧
    ∃ peer, k.loop.connection fd = some peer ∧ peer.conn.state = .RES ∧ peer.conn.unsent ≠ []

/-- A client that reads from a connection whose reply was left behind does so while an event of it is still to be handled. -/
def Resumed : Kernel × Action → Prop
  | (k, .receive fd _) => Busy k fd → (k.queued fd).isSome ∨ fd ∈ k.rest.map Event.fd
  | _ => True

/-- Where a reply was left behind, the send buffer is full or an event is still to be handled. -/
structure Drains (k : Kernel) : Prop where
  full : ∀ fd, Busy k fd → k.room fd = 0 ∨ (k.queued fd).isSome ∨ fd ∈ k.rest.map Event.fd
  queued : ∀ fd events, k.queued fd = some events → events ≠ Events.none
  rest : ∀ event ∈ k.rest, event.events ≠ Events.none

section Drains

variable {listener : Int} {capacity : Nat} {k k' : Kernel} {action : Action} {fd other : Int} {condition : Events}

theorem Kernel.notify_isSome (before : (k.queued other).isSome) : ((k.notify fd condition).queued other).isSome := by
  rcases Kernel.notify_cases k fd condition with same | ⟨_, _, _, changed⟩
  · rwa [same]
  · rw [changed]
    by_cases own : other = fd
    · subst own
      simp
    · rwa [Function.update_of_ne own]

theorem Events.merge_ne {events : Events} {before : Option Events} (some : events ≠ Events.none) :
    events.merge before ≠ Events.none := by
  obtain ⟨read, write, half, whole⟩ := events
  cases before with
  | none => exact some
  | some before =>
      simp only [Events.merge, Events.none, ne_eq, Events.mk.injEq, Bool.or_eq_false_iff] at some ⊢
      rintro ⟨⟨_, rfl⟩, ⟨_, rfl⟩, ⟨_, rfl⟩, _, rfl⟩
      exact some ⟨rfl, rfl, rfl, rfl⟩

theorem Events.ready_or {events : Events} (some : events ≠ Events.none) (idle : events.ready = false) :
    events.hangsUp = true := by
  obtain ⟨read, write, half, whole⟩ := events
  revert some idle
  revert read write half whole
  decide

theorem Kernel.notify_ne (before : ∀ fd events, k.queued fd = some events → events ≠ Events.none) :
    ∀ other events, (k.notify fd condition).queued other = some events → events ≠ Events.none := by
  intro other events here
  rcases Kernel.notify_cases k fd condition with same | ⟨_, _, reported, changed⟩
  · rw [same] at here
    exact before other events here
  · rw [changed] at here
    by_cases own : other = fd
    · subst own
      rw [Function.update_self] at here
      cases here
      exact Events.merge_ne reported
    · rw [Function.update_of_ne own] at here
      exact before other events here

theorem Drains.notify (drains : Drains k) : Drains (k.notify fd condition) where
  full other busy := by
    have before := drains.full other (by simpa [Busy] using busy)
    rw [Kernel.notify_room, Kernel.notify_rest]
    exact before.imp_right (Or.imp_left Kernel.notify_isSome)
  queued := Kernel.notify_ne drains.queued
  rest := by simpa using drains.rest

theorem busy_deliver {data : Bytes} {closed : Bool} :
    Busy { k with loop := k.loop.deliver fd data closed } other → Busy k other := by
  rintro ⟨peer, here, busy⟩
  simp only [Loop.deliver] at here
  split at here
  · rename_i before slot
    rw [Loop.connection_setSlot (by rw [slot]; rfl)] at here
    by_cases same : other = fd
    · subst same
      rw [Function.update_self] at here
      cases here
      exact ⟨before, Loop.connection_some.mpr slot, busy⟩
    · rw [Function.update_of_ne same] at here
      exact ⟨peer, here, busy⟩
  · exact ⟨peer, here, busy⟩

theorem newKernel_drains (listener : Int) (db : Database) (waiting : Nat) : Drains (newKernel listener db waiting) where
  full fd busy := by
    obtain ⟨peer, here, _⟩ := busy
    have live := ((newLoop_consistent listener db).held fd peer here).1
    cases live
  queued fd events here := by
    simp only [newKernel] at here
    split at here
    · cases here
      decide
    · cases here
  rest := nofun

theorem Tracked.busy_connected (tracked : Tracked listener k) (busy : Busy k fd) : k.loop.connected fd = true := by
  obtain ⟨peer, here, _⟩ := busy
  exact (tracked.pending.consistent.held fd peer here).1

theorem Turn.busy_before {s s' : Loop} {input : Input} {event : Event} (turn : Turn s input event s')
    (apart : fd ≠ event.fd) {peer : Peer} (here : s'.connection fd = some peer) (busy : peer.conn.state = .RES) :
    s.connection fd = some peer := by
  have ups : ∀ {mid : Loop}, HungUp mid event s' → mid.connection fd = some peer := by
    intro mid hungUp
    cases hungUp with
    | stays _ same => rwa [← same]
    | closes _ slots _ => rwa [slots, Function.update_of_ne apart] at here
  cases turn with
  | refused _ _ same => rwa [← same]
  | accepted _ _ accepted hungUp =>
      have mid := ups hungUp
      rw [accepted.slots] at mid
      by_cases new : fd = input.accepted
      · -- a connection that is new is in REQ
        rw [new, Function.update_self] at mid
        cases mid
        cases busy
      · rwa [Function.update_of_ne new] at mid
  | served _ served hungUp =>
      have mid := ups hungUp
      cases served with
      | ignored _ same => rwa [← same]
      | kept _ _ _ _ slots _ => rwa [slots, Function.update_of_ne apart] at mid
      | ended _ _ _ slots _ => rwa [slots, Function.update_of_ne apart] at mid

theorem Turn.ready_of_busy {s s' : Loop} {input : Input} {event : Event} (turn : Turn s input event s')
    (other : event.fd ≠ s.listener) (some : event.events ≠ Events.none) {peer : Peer}
    (here : s'.connection event.fd = .some peer) : event.events.ready = true := by
  by_contra idle
  rw [Bool.not_eq_true] at idle
  have up := Events.ready_or some idle
  cases turn with
  | refused listening _ _ => exact other listening
  | accepted listening _ _ _ => exact other listening
  | served _ _ hungUp =>
      cases hungUp with
      | stays quiet _ =>
          rw [up] at quiet
          cases quiet
      | closes _ slots _ =>
          rw [slots, Function.update_self] at here
          cases here

theorem Drains.handled {rest : List Event} {event : Event} {input : Input} {loop : Loop} (drains : Drains k)
    (next : k.rest = event :: rest) (turn : Turn k.loop input event loop) (tracked : Tracked listener (k.handled loop rest)) :
    (∀ fd, fd ≠ event.fd → Busy (k.handled loop rest) fd →
      k.room fd = 0 ∨ ((k.handled loop rest).queued fd).isSome ∨ fd ∈ rest.map Event.fd) ∧
    (∀ fd events, (k.handled loop rest).queued fd = some events → events ≠ Events.none) ∧
    ∀ later ∈ rest, later.events ≠ Events.none := by
  refine ⟨?_, ?_, fun later member => drains.rest later (by rw [next]; exact List.mem_cons_of_mem _ member)⟩
  · rintro fd apart ⟨peer, here, state⟩
    have still : (interest loop.log fd).isSome :=
      Option.isSome_iff_exists.mpr ⟨_, tracked.registers fd (tracked.busy_connected ⟨peer, here, state⟩)⟩
    refine (drains.full fd ⟨peer, turn.busy_before apart here state, state⟩).imp_right (Or.imp ?_ ?_)
    · intro queued
      simpa [Kernel.handled, still] using queued
    · intro member
      rw [next, List.map_cons, List.mem_cons] at member
      exact member.resolve_left apart
  · intro fd events here
    simp only [Kernel.handled] at here
    split at here
    · exact drains.queued fd events here
    · cases here

theorem Drains.wait (drains : Drains k) {batch : List Event} (waits : k.rest = [])
    (queued : ∀ event ∈ batch, k.queued event.fd = some event.events) :
    Drains { k with rest := batch, queued := fun fd => if fd ∈ batch.map Event.fd then none else k.queued fd } where
  full := by
    intro fd busy
    have before := drains.full fd busy
    rw [waits] at before
    by_cases inside : fd ∈ batch.map Event.fd
    · exact .inr (.inr inside)
    · simpa [inside] using before
  queued := fun fd events here => drains.queued fd events (Option.ite_none_left_eq_some.mp here).2
  rest := fun event member => drains.queued _ _ (queued event member)

/-- The send buffer of a busy connection may change when an event of it is on its way. -/
theorem Drains.setRoom (drains : Drains k) {fd : Int} (resumed : Busy k fd →
    (k.queued fd).isSome ∨ fd ∈ k.rest.map Event.fd) (room : Nat) : Drains (k.setRoom fd room) where
  full := by
    intro other busy
    by_cases same : other = fd
    · subst same
      exact .inr (resumed busy)
    · simp only [Kernel.setRoom, Function.update_of_ne same]
      exact drains.full other busy
  queued := drains.queued
  rest := drains.rest

theorem Step.drains (step : Step capacity k action k') (tracked : Tracked listener k) (drains : Drains k)
    (resumed : Resumed (k, action)) : Drains k' := by
  cases step with
  | connect => exact Drains.notify ⟨drains.full, drains.queued, drains.rest⟩
  | @send fd data closed noticed live _ =>
      have delivered : Drains { k with loop := k.loop.deliver fd data closed } :=
        ⟨fun other busy => drains.full other (busy_deliver busy), drains.queued, drains.rest⟩
      cases noticed with
      | true => exact delivered.notify
      | false => exact delivered
  | receive live _ _ =>
      split
      · exact (drains.setRoom resumed _).notify
      · exact drains.setRoom resumed _
  | wait waits _ _ queued => exact drains.wait waits queued
  | @accept event rest input loop next listening valid _ result =>
      obtain ⟨tracked', turn⟩ := tracked.handled next valid result
      obtain ⟨full, queued, left⟩ := drains.handled next turn tracked'
      have apart : ∀ fd, Busy (k.handled loop rest) fd → fd ≠ event.fd := fun fd busy => by
        rw [listening, tracked.pending.listener]
        exact tracked'.ne_listener (tracked'.busy_connected busy)
      split
      · exact ⟨fun fd busy => full fd (apart fd busy) busy, queued, left⟩
      · rename_i positive
        refine ⟨fun fd busy => ?_, queued, left⟩
        have away := apart fd busy
        have before : k.loop.connected fd = true := by
          obtain ⟨peer, here, state⟩ := busy
          exact tracked.busy_connected ⟨peer, turn.busy_before away here state, state⟩
        simp only [Kernel.takes, Function.update_of_ne (tracked.ne_accepted valid positive before)]
        exact full fd away busy
  | @serve event rest input loop taken next other valid result fits full bounded =>
      obtain ⟨tracked', turn⟩ := tracked.handled next valid result
      obtain ⟨others, queued, left⟩ := drains.handled next turn tracked'
      refine ⟨fun fd busy => ?_, queued, left⟩
      by_cases own : fd = event.fd
      · obtain ⟨peer, here, state⟩ := busy
        rw [own] at here
        have ready := turn.ready_of_busy other (drains.rest event (by rw [next]; exact List.mem_cons_self)) here
        left
        simp only [Kernel.setRoom, own, Function.update_self]
        rw [full ready peer here state]
        omega
      · simp only [Kernel.setRoom, Function.update_of_ne own]
        exact others fd own busy

theorem Polls.drains {db : Database} {waiting : Nat} {steps : List (Kernel × Action)}
    (polls : Polls capacity (newKernel listener db waiting) k steps) (resumed : ∀ step ∈ steps, Resumed step) :
    Drains k := by
  induction polls with
  | start => exact newKernel_drains listener db waiting
  | step polls step ih =>
      exact step.drains polls.tracked (ih fun step member => resumed step (List.mem_append_left _ member))
        (resumed _ (by simp))

end Drains

/-- A client that reads while the loop waits stalls its connection if and only if the reply was left behind with no event
for it. -/
theorem read_stalls_iff {listener : Int} {db : Database} {waiting capacity : Nat} {k k' : Kernel}
    {steps : List (Kernel × Action)} {fd : Int} {count : Nat}
    (polls : Polls capacity (newKernel listener db waiting) k steps) (waits : k.rest = [])
    (step : Step capacity k (.receive fd count) k') : Stalled k' fd ↔ ¬Resumed (k, .receive fd count) := by
  have tracked := polls.tracked
  cases step with
  | receive live some taken =>
      have silent : ∀ room, (k.setRoom fd room).notify fd writable = k.setRoom fd room := fun room =>
        @Kernel.notify_unreported (k.setRoom fd room) _ _ _ (tracked.registers fd live) (by decide)
      have same : (if k.room fd = 0 then (k.setRoom fd count).notify fd writable else k.setRoom fd (k.room fd + count)) =
          k.setRoom fd (k.room fd + count) := by
        split
        · rename_i full
          rw [silent, full, Nat.zero_add]
        · rfl
      rw [same]
      constructor
      · rintro ⟨_, delivered, _, peer, here, busy, _⟩ resumed
        rcases resumed ⟨peer, here, busy⟩ with queued | member
        · rw [show k.queued fd = none from delivered] at queued
          cases queued
        · rw [waits] at member
          cases member
      · intro left
        simp only [Resumed, waits, List.map_nil, List.not_mem_nil, or_false, Classical.not_imp, Bool.not_eq_true,
          Option.isSome_eq_false_iff, Option.isNone_iff_eq_none] at left
        obtain ⟨⟨peer, here, busy⟩, delivered⟩ := left
        have sound := (tracked.pending.consistent.held fd peer here).2.ready.sound.conn
        refine ⟨waits, delivered, ?_, peer, here, busy, fun empty => ?_⟩
        · simp only [Kernel.setRoom, Function.update_self]
          omega
        · have counters := sound.busy busy
          have length := sound.length_unsent
          rw [empty] at length
          simp only [List.length_nil] at length
          omega

/-- In every run in which clients read from connections with a reply left behind only while an event of them is still to be
handled, a reply that could be written on is never left waiting. Any other read that finds the loop waiting stalls. -/
theorem blocked_reply_resumed {listener : Int} {db : Database} {waiting capacity : Nat} {k : Kernel}
    {steps : List (Kernel × Action)} (polls : Polls capacity (newKernel listener db waiting) k steps) :
    ((∀ step ∈ steps, Resumed step) → ∀ fd, ¬Stalled k fd) ∧
    ∀ fd count k', k.rest = [] → Step capacity k (.receive fd count) k' →
      (Stalled k' fd ↔ ¬Resumed (k, .receive fd count)) := by
  refine ⟨?_, fun fd count k' waits step => read_stalls_iff polls waits step⟩
  rintro resumed fd ⟨waits, delivered, room, peer, here, busy, _⟩
  rcases (polls.drains resumed).full fd ⟨peer, here, busy⟩ with full | queued | member
  · omega
  · rw [delivered] at queued
    cases queued
  · rw [waits] at member
    cases member

/-- A client sends a request. The call of `io` for it writes 9 bytes of the reply before it is refused. -/
theorem asked_run : ∃ k steps, Polls 9 (newKernel 3 newDatabase 0) k steps ∧ (∀ step ∈ steps, Resumed step) ∧
    k.rest = [incoming 5] ∧ k.loop.listener = 3 ∧ k.queued 5 = none ∧ k.room 5 = 9 ∧
    ((k.loop.handle ⟨-1, .zeros, .zeros, [], [.ok 9, .EAGAIN]⟩ (incoming 5)).toOption.map fun loop =>
      ((loop.connection 5).map fun peer => peer.conn.state, sent (k.loop.connection 5) (loop.connection 5))) =
        some (some .RES, 9) := by
  have first := @Polls.step 9 _ _ _ _ _ (@Polls.start 9 (newKernel 3 newDatabase 0)) .connect
  have waited := first.step (@Step.wait _ _ [incoming 3] rfl (by decide) (by decide) (by decide))
  have accepted := waited.step (@Step.accept _ _ _ _ firstInput _ rfl rfl (.inr rfl) (fun _ => Nat.one_pos) rfl)
  have asked := accepted.step (@Step.send _ _ 5 emptyFrame false true rfl (fun _ => rfl))
  have again := asked.step (@Step.wait _ _ [incoming 5] rfl (by decide) (by decide) (by decide))
  refine ⟨_, _, again, ?_, rfl, rfl, rfl, rfl, by decide +kernel⟩
  intro step member
  simp only [List.nil_append, List.cons_append, List.mem_cons, List.not_mem_nil, or_false] at member
  rcases member with rfl | rfl | rfl | rfl | rfl <;> trivial

theorem blocked_run : ∃ k steps, Polls 9 (newKernel 3 newDatabase 0) k steps ∧ (∀ step ∈ steps, Resumed step) ∧
    k.rest = [] ∧ k.queued 5 = none ∧ k.room 5 = 0 ∧ Busy k 5 := by
  obtain ⟨k, steps, polls, resumed, next, listener, queued, room, evaluated⟩ := asked_run
  cases result : k.loop.handle ⟨-1, .zeros, .zeros, [], [.ok 9, .EAGAIN]⟩ (incoming 5) with
  | error crash =>
      rw [result] at evaluated
      cases evaluated
  | ok loop =>
      rw [result] at evaluated
      simp only [Except.toOption, Option.map_some, Option.some.injEq, Prod.mk.injEq, Option.map_eq_some_iff] at evaluated
      obtain ⟨⟨peer, here, busy⟩, written⟩ := evaluated
      have served := polls.step (@Step.serve 9 k _ _ _ loop 0 next (by rw [listener]; decide) (.inl (by decide)) result
        (by rw [show (incoming 5).fd = 5 from rfl, written, room])
        (fun _ _ _ _ => by rw [show (incoming 5).fd = 5 from rfl, written, room])
        (by rw [show (incoming 5).fd = 5 from rfl, written, room]; decide))
      refine ⟨_, _, served, ?_, rfl, ?_, ?_, peer, here, busy⟩
      · intro step member
        rcases List.mem_append.mp member with before | now
        · exact resumed step before
        · rw [List.mem_singleton.mp now]
          trivial
      · simp [Kernel.setRoom, Kernel.handled, queued]
      · simp [Kernel.setRoom, incoming, written, room]

/-- Until the client reads. -/
theorem blocked_reply_resumed_full : ∃ k steps, Polls 9 (newKernel 3 newDatabase 0) k steps ∧ Busy k 5 ∧
    ∀ fd, ¬Stalled k fd := by
  obtain ⟨k, steps, polls, resumed, _, _, _, busy⟩ := blocked_run
  exact ⟨k, steps, polls, busy, (blocked_reply_resumed polls).1 resumed⟩

/-- The client reads what is there: the send buffer has room again, and nothing wakes the loop. -/
theorem reply_stalled : ∃ k steps, Polls 9 (newKernel 3 newDatabase 0) k steps ∧ Stalled k 5 := by
  obtain ⟨k, steps, polls, _, waits, delivered, full, busy⟩ := blocked_run
  have live := polls.tracked.busy_connected busy
  have read := @Step.receive 9 k 5 9 live (by decide) (by rw [full])
  refine ⟨_, _, polls.step read, (read_stalls_iff polls waits read).mpr fun resumed => ?_⟩
  rcases resumed busy with queued | member
  · rw [delivered] at queued
    cases queued
  · rw [waits] at member
    cases member

/-! ### Writes that are not refused -/

section Unblocked

variable {listener : Int} {capacity : Nat} {k k' : Kernel} {action : Action}

theorem Turn.not_busy {s s' : Loop} {input : Input} {event : Event} {fd : Int} {peer : Peer} (turn : Turn s input event s')
    (before : ∀ peer, s.connection fd = some peer → peer.conn.state ≠ .RES) (taken : .EAGAIN ∉ input.writes)
    (other : event.fd ≠ s.listener) (own : fd = event.fd) (here : s'.connection fd = some peer) : peer.conn.state ≠ .RES := by
  subst own
  cases turn with
  | refused listening _ _ => exact absurd listening other
  | accepted listening _ _ _ => exact absurd listening other
  | @served mid _ served hungUp =>
      have there : mid.connection event.fd = some peer := by
        cases hungUp with
        | stays _ same => rwa [← same]
        | closes _ slots _ =>
            rw [slots, Function.update_self] at here
            cases here
      cases served with
      | ignored _ same =>
          rw [same] at there
          exact before peer there
      | kept _ _ done _ slots _ =>
          rw [slots, Function.update_self] at there
          cases there
          exact fun busy => taken ((Session.io_answered done).blocked busy)
      | ended _ _ _ slots _ =>
          rw [slots, Function.update_self] at there
          cases there

theorem Step.not_busy (step : Step capacity k action k') (tracked : Tracked listener k)
    (taken : ∀ event input, action = .handle event input → .EAGAIN ∉ input.writes) (before : ∀ fd, ¬Busy k fd) :
    ∀ fd, ¬Busy k' fd := by
  intro fd
  cases step with
  | connect => simpa [Busy] using before fd
  | @send target data closed noticed live _ =>
      have delivered : ¬Busy { k with loop := k.loop.deliver target data closed } fd := fun busy =>
        before fd (busy_deliver busy)
      cases noticed with
      | true => simpa [Busy] using delivered
      | false => exact delivered
  | receive _ _ _ =>
      split
      · simpa [Busy, Kernel.setRoom] using before fd
      · exact before fd
  | wait => exact before fd
  | @accept event rest input loop next listening valid _ result =>
      obtain ⟨tracked', turn⟩ := tracked.handled next valid result
      have still : ¬Busy (k.handled loop rest) fd := by
        rintro ⟨peer, here, busy⟩
        have live := (tracked'.pending.consistent.held fd peer here).1
        have apart : fd ≠ event.fd := by
          rw [listening, tracked.pending.listener]
          exact tracked'.ne_listener live
        exact before fd ⟨peer, turn.busy_before apart here busy, busy⟩
      split
      · exact still
      · exact still
  | @serve event rest input loop _ next other valid result _ _ _ =>
      obtain ⟨_, turn⟩ := tracked.handled next valid result
      rintro ⟨peer, here, busy⟩
      by_cases own : fd = event.fd
      · exact turn.not_busy (fun peer here busy => before fd ⟨peer, here, busy⟩) (taken event input rfl) other own here busy
      · exact before fd ⟨peer, turn.busy_before own here busy, busy⟩

theorem Polls.resumed {db : Database} {waiting : Nat} {steps : List (Kernel × Action)}
    (polls : Polls capacity (newKernel listener db waiting) k steps)
    (taken : ∀ step ∈ steps, ∀ event input, step.2 = .handle event input → .EAGAIN ∉ input.writes) :
    (∀ fd, ¬Busy k fd) ∧ ∀ step ∈ steps, Resumed step := by
  induction polls with
  | start =>
      refine ⟨?_, fun step member => absurd member List.not_mem_nil⟩
      rintro fd ⟨peer, here, _⟩
      have live := ((newLoop_consistent listener db).held fd peer here).1
      cases live
  | @step k k' steps action polls step ih =>
      obtain ⟨idle, resumed⟩ := ih fun step member => taken step (List.mem_append_left _ member)
      refine ⟨step.not_busy polls.tracked (taken (k, action) (by simp)) idle, fun earlier member => ?_⟩
      rcases List.mem_append.mp member with before | now
      · exact resumed earlier before
      · rw [List.mem_singleton.mp now]
        cases action with
        | receive fd count => exact fun busy => absurd busy (idle fd)
        | _ => trivial

end Unblocked

end Coxx.Server
