import Coxx.Server.Table

/-! The event loop over a kernel whose epoll is edge-triggered: an event is queued when a condition becomes true that its
descriptor is registered for, and consumed when `epoll_wait` returns it. Clients connect in any order, and send and read in
any order once they are accepted: data that is there before is left out.
-/

set_option autoImplicit false

namespace Coxx.Server

open Library Common

/-- Of a condition, what epoll reports for a descriptor that is registered with `mask`. A hang-up is always reported. -/
def Events.reported (mask condition : Events) : Events where
  EPOLLIN := mask.EPOLLIN && condition.EPOLLIN
  EPOLLOUT := mask.EPOLLOUT && condition.EPOLLOUT
  EPOLLRDHUP := mask.EPOLLRDHUP && condition.EPOLLRDHUP
  EPOLLHUP := condition.EPOLLHUP

/-- Events of one descriptor that are not delivered yet coalesce. -/
def Events.merge (events : Events) : Option Events → Events
  | none => events
  | some before => {
      EPOLLIN := before.EPOLLIN || events.EPOLLIN
      EPOLLOUT := before.EPOLLOUT || events.EPOLLOUT
      EPOLLRDHUP := before.EPOLLRDHUP || events.EPOLLRDHUP
      EPOLLHUP := before.EPOLLHUP || events.EPOLLHUP }

def Events.none : Events := ⟨false, false, false, false⟩

def readable : Events := ⟨true, false, false, false⟩

def writable : Events := ⟨false, true, false, false⟩

structure Kernel where
  loop : Loop
  /-- what is left of the batch; nothing is left when the loop waits in `epoll_wait` -/
  rest : List Event
  /-- the events that are not delivered yet -/
  queued : Int → Option Events
  /-- connections that wait for `accept` -/
  backlog : Nat
  /-- free bytes of the send buffers -/
  room : Int → Nat

namespace Kernel

def notify (k : Kernel) (fd : Int) (condition : Events) : Kernel :=
  match interest k.loop.log fd with
  | none => k
  | some mask =>
    if mask.reported condition = Events.none then k
    else { k with queued := Function.update k.queued fd (some ((mask.reported condition).merge (k.queued fd))) }

def unread (k : Kernel) (fd : Int) : Bool :=
  match k.loop.connection fd with
  | none => false
  | some peer => !peer.chan.incoming.isEmpty || peer.chan.closed

/-- After an event. A descriptor that has left the interest list has no events any more. -/
def handled (k : Kernel) (loop : Loop) (rest : List Event) : Kernel :=
  { k with
    loop := loop
    rest := rest
    queued := fun fd => if (interest loop.log fd).isSome then k.queued fd else none }

/-- A client leaves the queue, and its connection gets a send buffer. -/
def takes (k : Kernel) (fd : Int) (capacity : Nat) : Kernel :=
  { k with
    backlog := k.backlog - 1
    room := Function.update k.room fd capacity }

def setRoom (k : Kernel) (fd : Int) (room : Nat) : Kernel := { k with room := Function.update k.room fd room }

end Kernel

/-- Behind the registration of the listening socket, which reports clients that connected before it. -/
def newKernel (listener : Int) (db : Database) (waiting : Nat) : Kernel where
  loop := newLoop listener db
  rest := []
  queued := fun fd => if fd = listener ∧ 0 < waiting then some readable else none
  backlog := waiting
  room := fun _ => 0

def sent : Option Peer → Option Peer → Nat
  | some before, some after => after.chan.written.length - before.chan.written.length
  | _, _ => 0

inductive Action where
  /-- a client connects -/
  | connect
  /-- a client sends data, or closes its end -/
  | send (fd : Int) (data : Bytes) (closed : Bool)
  /-- a client reads -/
  | receive (fd : Int) (count : Nat)
  /-- `epoll_wait` returns -/
  | wait (batch : List Event)
  | handle (event : Event) (input : Input)

/-- The steps of the server and its clients. A send buffer takes `capacity` bytes. -/
inductive Step (capacity : Nat) (k : Kernel) : Action → Kernel → Prop where
  | connect : Step capacity k .connect ({ k with backlog := k.backlog + 1 }.notify k.loop.listener readable)
  /-- Data behind data that is still unread may be reported again. -/
  | send {fd : Int} {data : Bytes} {closed noticed : Bool} (live : k.loop.connected fd = true)
      (newly : k.unread fd = false → noticed = true) :
      Step capacity k (.send fd data closed)
        (if noticed then { k with loop := k.loop.deliver fd data closed }.notify fd ⟨true, false, closed, false⟩
        else { k with loop := k.loop.deliver fd data closed })
  | receive {fd : Int} {count : Nat} (live : k.loop.connected fd = true) (some : 0 < count)
      (taken : k.room fd + count ≤ capacity) :
      Step capacity k (.receive fd count)
        (if k.room fd = 0 then (k.setRoom fd count).notify fd writable else k.setRoom fd (k.room fd + count))
  | wait {batch : List Event} (waits : k.rest = []) (few : batch.length ≤ MAX_EVENTS)
      (distinct : (batch.map Event.fd).Nodup) (queued : ∀ event ∈ batch, k.queued event.fd = .some event.events) :
      Step capacity k (.wait batch)
        { k with rest := batch, queued := fun fd => if fd ∈ batch.map Event.fd then none else k.queued fd }
  /-- An `accept` that fails leaves the client where it is. -/
  | accept {event : Event} {rest : List Event} {input : Input} {loop : Loop} (next : k.rest = event :: rest)
      (listening : event.fd = k.loop.listener) (valid : input.Valid k.loop) (pending : 0 ≤ input.accepted → 0 < k.backlog)
      (result : k.loop.handle input event = .ok loop) :
      Step capacity k (.handle event input)
        (if input.accepted < 0 then k.handled loop rest else (k.handled loop rest).takes input.accepted capacity)
  /-- The client may read while the reply is written, and a write is refused only when the send buffer is full. -/
  | serve {event : Event} {rest : List Event} {input : Input} {loop : Loop} {taken : Nat} (next : k.rest = event :: rest)
      (other : event.fd ≠ k.loop.listener) (valid : input.Valid k.loop)
      (result : k.loop.handle input event = .ok loop)
      (fits : sent (k.loop.connection event.fd) (loop.connection event.fd) ≤ k.room event.fd + taken)
      (full : event.events.ready = true → ∀ peer, loop.connection event.fd = some peer → peer.conn.state = .RES →
        sent (k.loop.connection event.fd) (loop.connection event.fd) = k.room event.fd + taken)
      (bounded : k.room event.fd + taken ≤
        capacity + sent (k.loop.connection event.fd) (loop.connection event.fd)) :
      Step capacity k (.handle event input)
        ((k.handled loop rest).setRoom event.fd
          (k.room event.fd + taken - sent (k.loop.connection event.fd) (loop.connection event.fd)))

/-- Runs, with every step and the state before it. -/
inductive Polls (capacity : Nat) (start : Kernel) : Kernel → List (Kernel × Action) → Prop where
  | start : Polls capacity start start []
  | step {k k' : Kernel} {steps : List (Kernel × Action)} {action : Action} : Polls capacity start k steps →
      Step capacity k action k' → Polls capacity start k' (steps ++ [(k, action)])

/-! ### Registration -/

/-- The listening socket is registered for reading and writing. -/
def Listens (s : Loop) : Prop := interest s.log s.listener = some ⟨true, true, false, false⟩

/-- An open connection is registered for reading and hang-ups, whatever its state is. -/
def Registers (s : Loop) : Prop := ∀ fd, s.connected fd = true → interest s.log fd = some ⟨true, false, true, true⟩

section Registration

variable {s s' : Loop} {input : Input} {event : Event} {fd : Int}

theorem Turn.listens (turn : Turn s input event s') (listener : s'.listener = s.listener)
    (quiet : event.fd = s.listener → event.events.hangsUp = false) (listens : Listens s) : Listens s' := by
  unfold Listens at *
  rw [listener]
  cases turn with
  | refused _ _ same => rwa [same]
  | accepted listening other accepted hungUp =>
      cases hungUp with
      | stays _ same =>
          rw [same, Loop.interest_append accepted.log]
          simpa [registers, other] using listens
      | closes up _ _ =>
          rw [quiet listening] at up
          cases up
  | @served mid other served hungUp =>
      have before : interest mid.log s.listener = some ⟨true, true, false, false⟩ := by
        cases served with
        | ignored _ same => rwa [same]
        | kept _ _ _ _ _ log =>
            rw [Loop.interest_append log]
            simpa [registers] using listens
        | ended _ _ _ _ log =>
            rw [Loop.interest_append log]
            simpa [registers, other] using listens
      cases hungUp with
      | stays _ same => rwa [same]
      | closes _ _ log =>
          rw [Loop.interest_append log]
          cases mid.connection event.fd <;> simpa [registers, other] using before

theorem Registers.closed {calls : List Syscall} (masks : Registers s) (log : s'.log = s.log ++ (calls ++ [.close fd]))
    (own : ∀ call ∈ calls, call = .io fd ∨ call = .del fd ∨ call = .close fd) : Registers s' := by
  intro target live
  rw [Loop.connected_append log] at live
  rw [Loop.interest_append log]
  by_cases same : fd = target
  · subst same
    simp [opens] at live
  · obtain ⟨opened, registered⟩ := calls_elsewhere (Ne.symm same) own
    rw [opened] at live
    rw [registered]
    exact masks target live

theorem HungUp.registers (hungUp : HungUp s event s') (masks : Registers s) : Registers s' := by
  cases hungUp with
  | stays _ same => rwa [same]
  | closes _ _ log =>
      cases here : s.connection event.fd with
      | none =>
          rw [here] at log
          exact @Registers.closed _ _ _ [.del event.fd] masks log (by simp)
      | some peer =>
          rw [here] at log
          exact @Registers.closed _ _ _ [.del event.fd, .close event.fd] masks log (by simp)

theorem Turn.registers (turn : Turn s input event s') (masks : Registers s) : Registers s' := by
  cases turn with
  | refused _ _ same => rwa [same]
  | accepted _ _ accepted hungUp =>
      refine hungUp.registers fun target live => ?_
      rw [Loop.connected_append accepted.log] at live
      rw [Loop.interest_append accepted.log]
      by_cases same : input.accepted = target
      · simp [Coxx.Server.registers, same]
      · simp only [List.foldl_cons, List.foldl_nil, opens, Coxx.Server.registers, if_neg same] at live ⊢
        exact masks target live
  | served _ served hungUp =>
      refine hungUp.registers ?_
      cases served with
      | ignored _ same => rwa [same]
      | kept _ _ _ _ _ log =>
          intro target live
          rw [Loop.connected_append log] at live
          rw [Loop.interest_append log]
          exact masks target live
      | ended _ _ _ _ log => exact @Registers.closed _ _ _ [.io event.fd, .del event.fd] masks log (by simp)

end Registration

/-! ### Runs -/

namespace Kernel

variable {k : Kernel} {fd other : Int} {condition : Events}

@[simp] theorem notify_loop : (k.notify fd condition).loop = k.loop := by
  unfold notify
  split
  · rfl
  · split <;> rfl

@[simp] theorem notify_rest : (k.notify fd condition).rest = k.rest := by
  unfold notify
  split
  · rfl
  · split <;> rfl

@[simp] theorem notify_backlog : (k.notify fd condition).backlog = k.backlog := by
  unfold notify
  split
  · rfl
  · split <;> rfl

@[simp] theorem notify_room : (k.notify fd condition).room = k.room := by
  unfold notify
  split
  · rfl
  · split <;> rfl

theorem notify_cases (k : Kernel) (fd : Int) (condition : Events) :
    (k.notify fd condition).queued = k.queued ∨
      ∃ mask, interest k.loop.log fd = some mask ∧ mask.reported condition ≠ Events.none ∧
        (k.notify fd condition).queued =
          Function.update k.queued fd (some ((mask.reported condition).merge (k.queued fd))) := by
  unfold notify
  split
  · exact .inl rfl
  · rename_i mask registered
    split
    · exact .inl rfl
    · rename_i reported
      exact .inr ⟨mask, registered, reported, rfl⟩

theorem notify_other (different : other ≠ fd) : (k.notify fd condition).queued other = k.queued other := by
  rcases notify_cases k fd condition with same | ⟨_, _, _, changed⟩
  · rw [same]
  · rw [changed, Function.update_of_ne different]

theorem notify_registered (before : ∀ fd, (k.queued fd).isSome → (interest k.loop.log fd).isSome) :
    ∀ other, ((k.notify fd condition).queued other).isSome → (interest k.loop.log other).isSome := by
  intro other here
  rcases notify_cases k fd condition with same | ⟨mask, registered, _, _⟩
  · rw [same] at here
    exact before other here
  · by_cases own : other = fd
    · rw [own, registered]
      rfl
    · rw [notify_other own] at here
      exact before other here

theorem notify_unreported {mask : Events} (registered : interest k.loop.log fd = some mask)
    (unreported : mask.reported condition = Events.none) : k.notify fd condition = k := by
  simp only [notify, registered, if_pos unreported]

theorem notify_reported {mask : Events} (registered : interest k.loop.log fd = some mask)
    (reported : mask.reported condition ≠ Events.none) :
    (k.notify fd condition).queued fd = some ((mask.reported condition).merge (k.queued fd)) := by
  simp only [notify, registered, if_neg reported, Function.update_self]

end Kernel

/-- The invariant of the kernel. No hang-up of the listening socket is under way. -/
structure Tracked (listener : Int) (k : Kernel) : Prop where
  pending : Pending listener k.loop k.rest
  queued : ∀ fd, (k.queued fd).isSome → (interest k.loop.log fd).isSome
  listens : Listens k.loop
  registers : Registers k.loop
  quiet : ∀ events, k.queued listener = some events → events.hangsUp = false
  calm : ∀ event ∈ k.rest, event.fd = listener → event.events.hangsUp = false

section Tracked

variable {listener : Int} {capacity : Nat} {k k' : Kernel} {action : Action} {event : Event} {rest : List Event}
  {input : Input} {loop : Loop}

theorem Tracked.ne_listener (tracked : Tracked listener k) {fd : Int} (live : k.loop.connected fd = true) :
    fd ≠ listener := by
  rintro rfl
  have closed := tracked.pending.consistent.listening
  rw [tracked.pending.listener, live] at closed
  cases closed

theorem Tracked.heard (tracked : Tracked listener k) :
    interest k.loop.log listener = some ⟨true, true, false, false⟩ := by
  have listens := tracked.listens
  unfold Listens at listens
  rwa [tracked.pending.listener] at listens

theorem Tracked.ne_accepted (tracked : Tracked listener k) (valid : input.Valid k.loop) (positive : ¬input.accepted < 0)
    {fd : Int} (live : k.loop.connected fd = true) : fd ≠ input.accepted := by
  rintro rfl
  have closed := valid.resolve_left positive
  rw [Loop.isOpen_of_ne (tracked.pending.listener ▸ tracked.ne_listener live), live] at closed
  cases closed

theorem deliver_connected (s : Loop) (fd : Int) (data : Bytes) (closed : Bool) (other : Int) :
    (s.deliver fd data closed).connected other = s.connected other := by
  unfold Loop.connected
  rw [(deliver_log s fd data closed).1]

theorem Tracked.deliver (tracked : Tracked listener k) (fd : Int) (data : Bytes) (closed : Bool) :
    Tracked listener { k with loop := k.loop.deliver fd data closed } := by
  have same := deliver_log k.loop fd data closed
  obtain ⟨⟨consistent, listening, distinct, registered⟩, queued, listens, registers, quiet, calm⟩ := tracked
  refine ⟨⟨deliver_consistent consistent fd data closed, same.2.trans listening, distinct, ?_⟩, ?_, ?_, ?_, quiet, calm⟩
  · rw [same.1]
    exact registered
  · rw [same.1]
    exact queued
  · unfold Listens
    rw [same.1, same.2]
    exact listens
  · intro target live
    rw [deliver_connected] at live
    rw [same.1]
    exact registers target live

theorem Tracked.notify (tracked : Tracked listener k) {fd : Int} (other : fd ≠ listener) (condition : Events) :
    Tracked listener (k.notify fd condition) where
  pending := by simpa using tracked.pending
  queued := by simpa using Kernel.notify_registered tracked.queued
  listens := by simpa using tracked.listens
  registers := by simpa using tracked.registers
  quiet := by
    rw [Kernel.notify_other other.symm]
    exact tracked.quiet
  calm := by simpa using tracked.calm

theorem Tracked.handled (tracked : Tracked listener k) (next : k.rest = event :: rest) (valid : input.Valid k.loop)
    (result : k.loop.handle input event = .ok loop) :
    Tracked listener (k.handled loop rest) ∧ Turn k.loop input event loop := by
  have pending := tracked.pending
  rw [next] at pending
  obtain ⟨pending', turn⟩ := pending.handle valid result
  have calm := tracked.calm
  rw [next] at calm
  refine ⟨⟨pending', ?_, ?_, turn.registers tracked.registers, ?_, ?_⟩, turn⟩
  · intro fd here
    simp only [Kernel.handled] at here ⊢
    split at here
    · assumption
    · cases here
  · refine turn.listens (pending'.listener.trans pending.listener.symm) (fun listening => ?_) tracked.listens
    exact calm event List.mem_cons_self (listening.trans pending.listener)
  · intro events here
    simp only [Kernel.handled] at here
    split at here
    · exact tracked.quiet events here
    · cases here
  · exact fun later member => calm later (List.mem_cons_of_mem _ member)

theorem Tracked.setRoom (tracked : Tracked listener k) (fd : Int) (room : Nat) : Tracked listener (k.setRoom fd room) :=
  ⟨tracked.pending, tracked.queued, tracked.listens, tracked.registers, tracked.quiet, tracked.calm⟩

theorem Tracked.takes (tracked : Tracked listener k) (fd : Int) (capacity : Nat) : Tracked listener (k.takes fd capacity) :=
  ⟨tracked.pending, tracked.queued, tracked.listens, tracked.registers, tracked.quiet, tracked.calm⟩

theorem Tracked.connect (tracked : Tracked listener k) :
    Tracked listener ({ k with backlog := k.backlog + 1 }.notify listener readable) where
  pending := by simpa using tracked.pending
  queued := by
    rw [Kernel.notify_loop]
    exact Kernel.notify_registered tracked.queued
  listens := by simpa using tracked.listens
  registers := by simpa using tracked.registers
  quiet := by
    intro events here
    rw [@Kernel.notify_reported { k with backlog := k.backlog + 1 } _ _ _ tracked.heard (by decide)] at here
    cases here
    cases before : k.queued listener with
    | none => rfl
    | some events => simpa [Events.merge, Events.reported, readable, Events.hangsUp] using tracked.quiet events before
  calm := by simpa using tracked.calm

theorem Tracked.wait (tracked : Tracked listener k) {batch : List Event} (distinct : (batch.map Event.fd).Nodup)
    (queued : ∀ event ∈ batch, k.queued event.fd = some event.events) :
    Tracked listener
      { k with rest := batch, queued := fun fd => if fd ∈ batch.map Event.fd then none else k.queued fd } where
  pending := ⟨tracked.pending.consistent, tracked.pending.listener, distinct, fun event member =>
    tracked.queued event.fd (by rw [queued event member]; rfl)⟩
  queued := by
    intro fd here
    simp only at here
    split at here
    · cases here
    · exact tracked.queued fd here
  listens := tracked.listens
  registers := tracked.registers
  quiet := fun events here => tracked.quiet events (Option.ite_none_left_eq_some.mp here).2
  calm := by
    rintro event member rfl
    exact tracked.quiet _ (queued event member)

theorem Step.tracked (step : Step capacity k action k') (tracked : Tracked listener k) : Tracked listener k' := by
  cases step with
  | connect =>
      rw [tracked.pending.listener]
      exact tracked.connect
  | @send fd data closed noticed live _ =>
      have delivered := tracked.deliver fd data closed
      cases noticed with
      | true => exact delivered.notify (tracked.ne_listener live) _
      | false => exact delivered
  | receive live _ _ =>
      split
      · exact (tracked.setRoom _ _).notify (tracked.ne_listener live) _
      · exact tracked.setRoom _ _
  | wait _ _ distinct queued => exact tracked.wait distinct queued
  | accept next _ valid _ result =>
      have handled := (tracked.handled next valid result).1
      split
      · exact handled
      · exact handled.takes _ _
  | serve next _ valid result _ _ _ => exact (tracked.handled next valid result).1.setRoom _ _

end Tracked

namespace Polls

variable {listener : Int} {db : Database} {waiting capacity : Nat} {k : Kernel} {steps : List (Kernel × Action)}

theorem tracked (polls : Polls capacity (newKernel listener db waiting) k steps) : Tracked listener k := by
  induction polls with
  | start =>
      exact {
        pending := ⟨newLoop_consistent listener db, rfl, List.nodup_nil, nofun⟩
        queued := by
          intro fd here
          simp only [newKernel] at here
          split at here
          · rename_i both
            simp [newKernel, newLoop, interest, Coxx.Server.registers, both.1]
          · cases here
        listens := by simp [Listens, newKernel, newLoop, interest, Coxx.Server.registers]
        registers := fun fd live => by cases live
        quiet := by
          intro events here
          simp only [newKernel] at here
          split at here
          · cases here
            rfl
          · cases here
        calm := nofun }
  | step _ step ih => exact step.tracked ih

theorem run (polls : Polls capacity (newKernel listener db waiting) k steps) :
    ∃ handled, Loop.Run (newLoop listener db) k.loop handled k.rest := by
  induction polls with
  | start => exact ⟨[], .start⟩
  | @step k k' steps action polls step ih =>
      obtain ⟨handled, run⟩ := ih
      cases step with
      | connect => exact ⟨handled, by simpa using run⟩
      | @send fd data closed noticed _ _ =>
          have delivered := run.deliver fd data closed
          cases noticed with
          | true => exact ⟨handled, by simpa using delivered⟩
          | false => exact ⟨handled, delivered⟩
      | receive =>
          refine ⟨handled, ?_⟩
          split
          · simpa [Kernel.setRoom] using run
          · exact run
      | wait waits _ distinct queued =>
          rw [waits] at run
          exact ⟨handled, run.wait distinct fun event member =>
            polls.tracked.queued event.fd (by rw [queued event member]; rfl)⟩
      | @accept event rest input loop next _ valid _ result =>
          rw [next] at run
          have turned := run.handle valid result
          refine ⟨handled ++ [event], ?_⟩
          split
          · exact turned
          · exact turned
      | serve next _ valid result _ _ _ =>
          rw [next] at run
          exact ⟨_, run.handle valid result⟩

theorem trans {start k' : Kernel} {later : List (Kernel × Action)} (before : Polls capacity start k steps)
    (after : Polls capacity k k' later) : Polls capacity start k' (steps ++ later) := by
  induction after with
  | start => simpa using before
  | step _ step ih =>
      rw [← List.append_assoc]
      exact ih.step step

end Polls

end Coxx.Server
