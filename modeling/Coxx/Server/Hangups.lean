import Coxx.Server.Wakeups

/-! Hang-ups. EPOLLRDHUP is reported only for a client that has closed its end, and a connection is closed only by the call
of `io` that ends it or by a hang-up.
-/

set_option autoImplicit false

namespace Coxx.Server

open Library Common

section Turn

variable {s s' : Loop} {input : Input} {event : Event} {fd : Int} {peer : Peer}

theorem Turn.stays (turn : Turn s input event s') (apart : fd ≠ event.fd) (here : s.connection fd = some peer) :
    s'.connection fd = some peer := by
  have ups : ∀ {mid : Loop}, HungUp mid event s' → mid.connection fd = some peer → s'.connection fd = some peer := by
    intro mid hungUp before
    cases hungUp with
    | stays _ same => rwa [same]
    | closes _ slots _ => rwa [slots, Function.update_of_ne apart]
  cases turn with
  | refused _ _ same => rwa [same]
  | accepted _ _ accepted hungUp =>
      refine ups hungUp ?_
      have old : fd ≠ input.accepted := by
        rintro rfl
        cases here.symm.trans accepted.free
      rwa [accepted.slots, Function.update_of_ne old]
  | served _ served hungUp =>
      refine ups hungUp ?_
      cases served with
      | ignored _ same => rwa [same]
      | kept _ _ _ _ slots _ => rwa [slots, Function.update_of_ne apart]
      | ended _ _ _ slots _ => rwa [slots, Function.update_of_ne apart]

theorem Turn.old (turn : Turn s input event s') (here : s.connection fd = some peer) :
    ¬(event.fd = s.listener ∧ input.accepted = fd) := by
  rintro ⟨listening, rfl⟩
  cases turn with
  | refused _ failed _ =>
      have slot := Loop.connection_some.mp here
      rw [Loop.slot, if_pos failed] at slot
      cases slot
  | accepted _ _ accepted _ => cases here.symm.trans accepted.free
  | served other _ _ => exact other listening

theorem Turn.goesOn (turn : Turn s input event s') (other : event.fd ≠ s.listener) (here : s.connection event.fd = some peer)
    (quiet : event.events.hangsUp = false)
    (alive : ∀ session, (input.session peer s.db).io execute = .ok session → session.conn.state ≠ .END) :
    s'.connection event.fd = some peer ∨
      ∃ session, (input.session peer s.db).io execute = .ok session ∧ s'.connection event.fd = some session.toPeer := by
  cases turn with
  | refused listening _ _ => exact absurd listening other
  | accepted listening _ _ _ => exact absurd listening other
  | served _ served hungUp =>
      cases hungUp with
      | closes up _ _ =>
          rw [quiet] at up
          cases up
      | stays _ same =>
          rw [same]
          cases served with
          | ignored _ same => exact .inl (by rwa [same])
          | kept _ there done _ slots _ =>
              cases here.symm.trans there
              exact .inr ⟨_, done, by rw [slots, Function.update_self]⟩
          | ended there done last _ _ =>
              cases here.symm.trans there
              exact absurd last (alive _ done)

end Turn

def Closed (k : Kernel) (fd : Int) : Prop := ∃ peer, k.loop.connection fd = some peer ∧ peer.chan.closed = true

/-- A hang-up is reported only for a client that has closed its end. -/
structure Truthful (k : Kernel) : Prop where
  queued : ∀ fd events, k.queued fd = some events → events.hangsUp = true → Closed k fd
  rest : ∀ event ∈ k.rest, event.events.hangsUp = true → Closed k event.fd

section Truthful

variable {listener : Int} {capacity : Nat} {k k' : Kernel} {action : Action} {fd : Int} {event : Event} {rest : List Event}
  {input : Input} {loop : Loop}

theorem Events.hangsUp_merge (events : Events) (before : Option Events) :
    (events.merge before).hangsUp = (events.hangsUp || before.any Events.hangsUp) := by
  cases before with
  | none => simp [Events.merge]
  | some before =>
      simp only [Events.merge, Events.hangsUp, Option.any_some]
      cases events.EPOLLRDHUP <;> cases events.EPOLLHUP <;> simp

theorem Truthful.notify {condition : Events} (truthful : Truthful k) (justified : condition.hangsUp = true → Closed k fd) :
    Truthful (k.notify fd condition) where
  queued := by
    intro other events here up
    have before := truthful.queued other
    simp only [Closed, Kernel.notify_loop] at before ⊢
    rcases Kernel.notify_cases k fd condition with same | ⟨mask, _, _, changed⟩
    · rw [same] at here
      exact before events here up
    · rw [changed] at here
      by_cases own : other = fd
      · subst own
        rw [Function.update_self] at here
        cases here
        rw [Events.hangsUp_merge, Bool.or_eq_true] at up
        rcases up with now | earlier
        · refine justified ?_
          simp only [Events.reported, Events.hangsUp, Bool.or_eq_true, Bool.and_eq_true] at now ⊢
          exact now.imp_left And.right
        · obtain ⟨events, queued, up⟩ := (Option.any_eq_true _ _).mp earlier
          exact before events queued up
      · rw [Function.update_of_ne own] at here
        exact before events here up
  rest := by simpa [Closed] using truthful.rest

theorem Truthful.deliver (truthful : Truthful k) {peer : Peer} (here : k.loop.connection fd = some peer) (data : Bytes)
    (closed : Bool) : Truthful { k with loop := k.loop.deliver fd data closed } ∧
      (closed = true → Closed { k with loop := k.loop.deliver fd data closed } fd) := by
  obtain ⟨slots, _⟩ := deliver_slots here data closed
  have still : ∀ other, Closed k other → Closed { k with loop := k.loop.deliver fd data closed } other := by
    rintro other ⟨before, there, up⟩
    simp only [Closed, slots]
    by_cases own : other = fd
    · subst own
      cases here.symm.trans there
      exact ⟨_, Function.update_self .., by simp [up]⟩
    · exact ⟨before, by rwa [Function.update_of_ne own], up⟩
  refine ⟨⟨fun other events here up => still other (truthful.queued other events here up),
    fun event member up => still event.fd (truthful.rest event member up)⟩, ?_⟩
  rintro rfl
  simp only [Closed, slots]
  exact ⟨_, Function.update_self .., by simp⟩

theorem Truthful.handled (truthful : Truthful k) (tracked : Tracked listener k) (next : k.rest = event :: rest)
    (valid : input.Valid k.loop) (result : k.loop.handle input event = .ok loop) (some : event.events ≠ Events.none) :
    Truthful (k.handled loop rest) := by
  obtain ⟨tracked', turn⟩ := tracked.handled next valid result
  have still : ∀ fd, Closed k fd → (interest loop.log fd).isSome → fd ≠ listener → Closed (k.handled loop rest) fd := by
    rintro fd ⟨before, there, closed⟩ registered other
    by_cases own : fd = event.fd
    · subst own
      have live := tracked'.pending.consistent.connected registered (tracked'.pending.listener ▸ other)
      obtain ⟨peer, here⟩ := Option.isSome_iff_exists.mp (tracked'.pending.consistent.filled _ live)
      obtain ⟨_, session, there', done, _, rfl⟩ := turn.called (tracked.pending.listener ▸ other) some here
      cases there.symm.trans there'
      obtain ⟨_, progress, _⟩ := (tracked.pending.consistent.held _ _ there).2.io_ok done
      exact ⟨_, here, progress.closed.trans closed⟩
    · exact ⟨before, turn.stays own there, closed⟩
  constructor
  · intro fd events here up
    simp only [Kernel.handled] at here
    split at here
    · rename_i registered
      refine still fd (truthful.queued fd events here up) registered ?_
      rintro rfl
      rw [tracked.quiet events here] at up
      cases up
    · cases here
  · intro later member up
    have inside : later ∈ k.rest := by
      rw [next]
      exact List.mem_cons_of_mem _ member
    refine still later.fd (truthful.rest later inside up) (tracked'.pending.registered later member) fun listening => ?_
    rw [tracked.calm later inside listening] at up
    cases up

theorem Step.truthful (step : Step capacity k action k') (tracked : Tracked listener k)
    (some : ∀ event ∈ k.rest, event.events ≠ Events.none) (truthful : Truthful k) : Truthful k' := by
  cases step with
  | connect =>
      have same : Truthful { k with backlog := k.backlog + 1 } := ⟨truthful.queued, truthful.rest⟩
      exact same.notify fun up => by cases up
  | @send fd data closed noticed live _ =>
      obtain ⟨peer, here⟩ := Option.isSome_iff_exists.mp (tracked.pending.consistent.filled fd live)
      obtain ⟨delivered, justified⟩ := truthful.deliver here data closed
      split
      · exact delivered.notify fun up => justified (by simpa [Events.hangsUp] using up)
      · exact delivered
  | @receive fd count _ _ _ =>
      split
      · have same : Truthful (k.setRoom fd count) := ⟨truthful.queued, truthful.rest⟩
        exact same.notify fun up => by cases up
      · exact ⟨truthful.queued, truthful.rest⟩
  | wait _ _ _ queued =>
      exact ⟨fun fd events here up => truthful.queued fd events (Option.ite_none_left_eq_some.mp here).2 up,
        fun event member up => truthful.queued _ _ (queued event member) up⟩
  | @accept event rest input loop next _ valid _ result =>
      have handled := truthful.handled tracked next valid result (some event (by rw [next]; exact List.mem_cons_self))
      split
      · exact handled
      · exact ⟨handled.queued, handled.rest⟩
  | @serve event rest input loop _ next _ valid result _ _ _ =>
      have handled := truthful.handled tracked next valid result (some event (by rw [next]; exact List.mem_cons_self))
      exact ⟨handled.queued, handled.rest⟩

theorem Polls.truthful {db : Database} {waiting : Nat} {steps : List (Kernel × Action)}
    (polls : Polls capacity (newKernel listener db waiting) k steps)
    (unhindered : ∀ step ∈ steps, Unhindered step.2) : Truthful k := by
  induction polls with
  | start =>
      refine ⟨fun fd events here up => ?_, fun event member => absurd member List.not_mem_nil⟩
      simp only [newKernel] at here
      split at here
      · cases here
        cases up
      · cases here
  | step polls step ih =>
      have before := fun step member => unhindered step (List.mem_append_left _ member)
      exact step.truthful polls.tracked (polls.drained before).rest (ih before)

end Truthful

end Coxx.Server
