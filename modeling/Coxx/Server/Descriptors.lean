import Coxx.Server.Table

/-! The descriptors that `accept` returns, over whole runs of the event loop: which calls are made on them after they were
closed. A hang-up closes a descriptor and then destroys its connection, which closes it as well.
-/

set_option autoImplicit false

namespace Coxx.Server

open Library Common

/-- The calls on a descriptor, other than the `accept` that returns it. -/
def Syscall.On (fd : Int) : Syscall → Prop
  | .accept _ => False
  | .add target _ | .del target | .io target | .close target => target = fd

/-- A descriptor that was accepted, then closed, and not accepted again. -/
def Gone (log : List Syscall) (fd : Int) : Prop :=
  ∃ before between, log = before ++ .close fd :: between ∧ .accept fd ∈ before ∧ .accept fd ∉ between

/-- No call is made on a descriptor that is gone: it is closed once for each `accept`, and not used after that. -/
def Lifecycle (log : List Syscall) : Prop :=
  ∀ before call after, log = before ++ call :: after → ∀ fd, call.On fd → ¬Gone before fd

section Lifecycle

variable {log calls : List Syscall} {call : Syscall} {fd : Int}

theorem lifecycle_nil : Lifecycle [] := by
  intro before call after split
  simp at split

theorem lifecycle_concat : Lifecycle (log ++ [call]) ↔ Lifecycle log ∧ ∀ fd, call.On fd → ¬Gone log fd := by
  constructor
  · intro cycle
    refine ⟨fun before next after split => cycle before next (after ++ [call]) (by rw [split]; simp), ?_⟩
    exact cycle log call [] rfl
  · rintro ⟨cycle, last⟩ before next after split
    rcases List.eq_nil_or_concat after with rfl | ⟨init, final, rfl⟩
    · obtain ⟨rfl, same⟩ := List.append_inj' split rfl
      cases same
      exact last
    · rw [List.concat_eq_append, ← List.cons_append, ← List.append_assoc] at split
      exact cycle before next init (List.append_inj_left' split rfl)

theorem Lifecycle.of_append (cycle : Lifecycle (log ++ calls)) : Lifecycle log := by
  intro before call after split
  exact cycle before call (after ++ calls) (by rw [split]; simp)

theorem Gone.closed (gone : Gone log fd) (start : Bool) : openAfter start log fd = false := by
  obtain ⟨before, between, rfl, _, absent⟩ := gone
  rw [openAfter, List.foldl_append, List.foldl_cons]
  have shut : opens fd (before.foldl (opens fd) start) (.close fd) = false := if_pos rfl
  rw [shut]
  clear shut
  induction between with
  | nil => rfl
  | cons call between ih =>
      have stays : opens fd false call = false := by
        cases call with
        | accept target =>
            have other : target ≠ fd := by
              rintro rfl
              exact absent List.mem_cons_self
            exact if_neg other
        | close target => simp [opens]
        | _ => rfl
      rw [List.foldl_cons, stays]
      exact ih fun member => absent (List.mem_cons_of_mem _ member)

theorem gone_of_close (accepted : .accept fd ∈ log) : Gone (log ++ [.close fd]) fd := ⟨log, [], rfl, accepted, nofun⟩

theorem accepted_of_open (isOpen : openAfter false log fd = true) : .accept fd ∈ log := by
  induction log using List.reverseRecOn with
  | nil => cases isOpen
  | append_singleton log call ih =>
      rw [openAfter, List.foldl_append] at isOpen
      cases call with
      | accept target =>
          by_cases same : target = fd
          · simp [same]
          · exact List.mem_append_left _ (ih (by simpa [openAfter, opens, same] using isOpen))
      | close target =>
          by_cases same : target = fd
          · simp [opens, same] at isOpen
          · exact List.mem_append_left _ (ih (by simpa [openAfter, opens, same] using isOpen))
      | _ => exact List.mem_append_left _ (ih isOpen)

theorem not_gone {start : Bool} (isOpen : openAfter start log fd = true) : ¬Gone log fd := by
  intro gone
  rw [gone.closed start] at isOpen
  cases isOpen

theorem Lifecycle.append {start : Bool} (cycle : Lifecycle log) (isOpen : openAfter start log fd = true)
    (only : ∀ call ∈ calls, ∀ target, call.On target → target = fd) (last : ∀ call ∈ calls.dropLast, call ≠ .close fd) :
    Lifecycle (log ++ calls) := by
  induction calls using List.reverseRecOn with
  | nil => rwa [List.append_nil]
  | append_singleton calls call ih =>
      rw [List.dropLast_concat] at last
      have before : Lifecycle (log ++ calls) :=
        ih (fun call member => only call (List.mem_append_left _ member)) fun call member =>
          last call (List.mem_of_mem_dropLast member)
      rw [← List.append_assoc]
      refine lifecycle_concat.mpr ⟨before, fun target on => ?_⟩
      rw [only call (by simp) target on]
      refine @not_gone _ _ start ?_
      rw [openAfter, List.foldl_append, show log.foldl (opens fd) start = true from isOpen]
      clear ih only before on isOpen
      induction calls with
      | nil => rfl
      | cons call calls ih =>
          have stays : opens fd true call = true := by
            cases call with
            | accept target => simp [opens]
            | close target =>
                have other : target ≠ fd := by
                  rintro rfl
                  exact last _ List.mem_cons_self rfl
                exact if_neg other
            | _ => rfl
          rw [List.foldl_cons, stays]
          exact ih fun call member => last call (List.mem_cons_of_mem _ member)

end Lifecycle

section Turn

variable {listener : Int} {s s' mid : Loop} {rest : List Event} {input : Input} {event : Event}

theorem HungUp.extends (hungUp : HungUp s event s') : ∃ calls, s'.log = s.log ++ calls := by
  cases hungUp with
  | stays _ same => exact ⟨[], by rw [same, List.append_nil]⟩
  | closes _ _ log => exact ⟨_, log⟩

theorem Served.extends (served : Served s input event s') : ∃ calls, s'.log = s.log ++ calls := by
  cases served with
  | ignored _ same => exact ⟨[], by rw [same, List.append_nil]⟩
  | kept _ _ _ _ _ log => exact ⟨_, log⟩
  | ended _ _ _ _ log => exact ⟨_, log⟩

theorem Turn.extends (turn : Turn s input event s') : ∃ calls, s'.log = s.log ++ calls := by
  cases turn with
  | refused _ _ same => exact ⟨[], by rw [same, List.append_nil]⟩
  | accepted _ _ accepted hungUp =>
      obtain ⟨calls, log⟩ := hungUp.extends
      exact ⟨_, by rw [log, accepted.log, List.append_assoc]⟩
  | served _ served hungUp =>
      obtain ⟨calls, log⟩ := hungUp.extends
      obtain ⟨before, log'⟩ := served.extends
      exact ⟨_, by rw [log, log', List.append_assoc]⟩

/-- A hang-up of a connection: its descriptor is closed twice, or was closed by the call of `io` before it. -/
theorem HungUp.not_lifecycle (hungUp : HungUp mid event s') (up : event.events.hangsUp = true)
    (served : Served s input event mid) (consistent : Consistent s) (live : s.connected event.fd = true) :
    ¬Lifecycle s'.log := by
  have accepted : .accept event.fd ∈ s.log := accepted_of_open live
  obtain ⟨calls, extended⟩ := served.extends
  intro cycle
  cases hungUp with
  | stays quiet _ =>
      rw [up] at quiet
      cases quiet
  | closes _ _ log =>
      cases here : mid.connection event.fd with
      | some peer =>
          -- the branch closes the descriptor, and then the destructor does
          have split : s'.log = (mid.log ++ [.del event.fd] ++ [.close event.fd]) ++ .close event.fd :: [] := by
            simp [log, here]
          refine cycle _ _ _ split event.fd rfl (gone_of_close ?_)
          simp [extended, accepted]
      | none =>
          cases served with
          | ignored _ same =>
              have filled := consistent.filled event.fd live
              rw [← same, here] at filled
              cases filled
          | kept _ _ _ _ slots _ =>
              rw [slots, Function.update_self] at here
              cases here
          | ended _ _ _ _ log' =>
              have split : s'.log = (s.log ++ [.io event.fd, .del event.fd] ++ [.close event.fd]) ++
                  .del event.fd :: [.close event.fd] := by
                simp [log, here, log']
              refine cycle _ _ _ split event.fd rfl (gone_of_close ?_)
              simp [accepted]

theorem Served.lifecycle (served : Served s input event mid) (live : s.connected event.fd = true)
    (cycle : Lifecycle s.log) : Lifecycle mid.log := by
  cases served with
  | ignored _ same => rwa [same]
  | kept _ _ _ _ _ log =>
      rw [log]
      refine cycle.append live ?_ ?_
      · simp [Syscall.On]
      · simp
  | ended _ _ _ _ log =>
      rw [log]
      refine cycle.append live ?_ ?_
      · simp [Syscall.On]
      · simp

theorem Accepted.lifecycle (accepted : Accepted s input mid) (cycle : Lifecycle s.log) : Lifecycle mid.log := by
  have first : Lifecycle (s.log ++ [.accept input.accepted]) := lifecycle_concat.mpr ⟨cycle, nofun⟩
  have isOpen : openAfter false (s.log ++ [.accept input.accepted]) input.accepted = true := by
    simp [openAfter, opens]
  have next := @Lifecycle.append _ [.add input.accepted ⟨true, false, true, true⟩] _ _ first isOpen (by simp [Syscall.On])
    (by simp)
  rwa [List.append_assoc, List.singleton_append, ← accepted.log] at next

theorem Turn.lifecycle_kept (turn : Turn s input event s') (pending : Pending listener s (event :: rest)) :
    Lifecycle s'.log ↔ Lifecycle s.log ∧ (event.fd ≠ listener → event.events.hangsUp = false) := by
  have consistent := pending.consistent
  have registered := pending.registered event List.mem_cons_self
  constructor
  · intro cycle
    obtain ⟨calls, extended⟩ := turn.extends
    have before : Lifecycle s.log := by
      rw [extended] at cycle
      exact cycle.of_append
    refine ⟨before, fun other => ?_⟩
    by_contra up
    rw [← pending.listener] at other
    have live := consistent.connected registered other
    cases turn with
    | refused listening _ _ => exact other listening
    | accepted listening _ _ _ => exact other listening
    | served _ served hungUp => exact hungUp.not_lifecycle (by simpa using up) served consistent live cycle
  · rintro ⟨cycle, quiet⟩
    cases turn with
    | refused _ _ same => rwa [same]
    | @accepted mid listening other accepted hungUp =>
        have next := accepted.lifecycle cycle
        cases hungUp with
        | stays _ same => rwa [same]
        | closes _ _ log =>
            -- the listening socket has no connection, and is closed once
            have empty : mid.connection event.fd = none := by
              rw [accepted.slots, Function.update_of_ne (listening ▸ other.symm), listening]
              exact consistent.empty consistent.listening
            have isOpen : openAfter (event.fd == s.listener) mid.log event.fd = true := by
              have before := consistent.registered event.fd registered
              rw [accepted.log, openAfter, List.foldl_append]
              simpa [Loop.isOpen, openAfter, opens, listening ▸ other] using before
            rw [log, empty]
            refine next.append isOpen ?_ ?_
            · simp [Syscall.On]
            · simp
    | served other served hungUp =>
        have live := consistent.connected registered other
        cases hungUp with
        | stays _ same =>
            rw [same]
            exact served.lifecycle live cycle
        | closes up _ _ =>
            rw [quiet (pending.listener ▸ other)] at up
            cases up

end Turn

/-- In every run of the loop, the rule holds of all descriptors if and only if no event of a connection was a hang-up. -/
theorem lifecycle_iff {listener : Int} {db : Database} {s : Loop} {handled rest : List Event}
    (run : Loop.Run (newLoop listener db) s handled rest) :
    Lifecycle s.log ↔ ∀ event ∈ handled, event.fd ≠ listener → event.events.hangsUp = false := by
  induction run with
  | start =>
      refine iff_of_true ?_ nofun
      exact (@lifecycle_concat [] _).mpr ⟨lifecycle_nil, fun fd _ => @not_gone _ _ true rfl⟩
  | wait _ _ _ ih => exact ih
  | deliver fd data closed _ ih =>
      rw [(deliver_log _ fd data closed).1]
      exact ih
  | handle run valid result ih =>
      have pending := run.pending
      rw [(pending.handle valid result).2.lifecycle_kept pending, ih]
      simp [or_imp, forall_and]

/-- A client that is accepted and announces a message that is too long. Its connection is closed, once. -/
theorem lifecycle_iff_malformed : ∃ s, Loop.Run (newLoop 3 newDatabase) s [incoming 3, incoming 5] [] ∧
    s.log = [.add 3 ⟨true, true, false, false⟩, .accept 5, .add 5 ⟨true, false, true, true⟩, .io 5, .del 5, .close 5] ∧
    Lifecycle s.log := by
  have waited : Loop.Run (newLoop 3 newDatabase) _ [] [incoming 3] := .wait .start (by decide) (by decide)
  have accepted := @Loop.Run.handle _ _ _ _ _ _ firstInput waited (.inr rfl) rfl
  have again := @Loop.Run.wait _ _ _ [incoming 5] (accepted.deliver 5 [255, 255, 255, 255] false) (by decide) (by decide)
  have run := @Loop.Run.handle _ _ _ _ _ _ ⟨-1, .zeros, .zeros, [], []⟩ again (.inl (by decide)) rfl
  exact ⟨_, run, rfl, (lifecycle_iff run).mpr (by decide)⟩

/-- A client that is accepted and closes its end: `io` ends the connection, and the hang-up closes the descriptor again. -/
theorem closed_twice : ∃ s handled, Loop.Run (newLoop 3 newDatabase) s handled [] ∧
    s.log = [.add 3 ⟨true, true, false, false⟩, .accept 5, .add 5 ⟨true, false, true, true⟩, .io 5, .del 5, .close 5,
      .del 5, .close 5] ∧
    ¬Lifecycle s.log := by
  have waited : Loop.Run (newLoop 3 newDatabase) _ [] [incoming 3] := .wait .start (by decide) (by decide)
  have accepted := @Loop.Run.handle _ _ _ _ _ _ firstInput waited (.inr rfl) rfl
  have again := @Loop.Run.wait _ _ _ [⟨5, ⟨true, false, true, false⟩⟩] (accepted.deliver 5 [] true) (by decide) (by decide)
  have run := @Loop.Run.handle _ _ _ _ _ _ ⟨-1, .zeros, .zeros, [], []⟩ again (.inl (by decide)) rfl
  refine ⟨_, _, run, rfl, fun cycle => ?_⟩
  refine cycle ([.add 3 ⟨true, true, false, false⟩, .accept 5, .add 5 ⟨true, false, true, true⟩, .io 5, .del 5] ++ [.close 5])
    (.del 5) [.close 5] rfl 5 rfl (gone_of_close (by decide))

end Coxx.Server
