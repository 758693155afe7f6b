import Coxx.Server.EventLoop

/-! The table of connections over whole runs of the event loop: its slots are exactly the descriptors that were accepted
and are still open. -/

set_option autoImplicit false

namespace Coxx.Server

open Library Common

/-! ### Slots -/

namespace Loop

def connection (s : Loop) (fd : Int) : Option Peer := (s.slot fd).join

section Slots

variable {s : Loop} {fd other : Int} {conn : Option Peer} {peer : Peer}

theorem connection_some : s.connection fd = some peer ↔ s.slot fd = some (some peer) := Option.join_eq_some_iff

theorem connection_slot (here : s.slot fd = some conn) : s.connection fd = conn := by
  rw [connection, here]
  rfl

theorem slot_setSlot (inside : (s.slot fd).isSome) :
    (s.setSlot fd conn).slot other = if other = fd then some conn else s.slot other := by
  unfold slot at inside ⊢
  unfold setSlot
  by_cases negative : fd < 0
  · rw [if_pos negative] at inside
    cases inside
  rw [if_neg negative] at inside
  have bound : fd.toNat < s.connectionByFileDescriptor.length := by
    by_contra outside
    rw [List.getElem?_eq_none (by omega)] at inside
    cases inside
  by_cases below : other < 0
  · rw [if_pos below, if_neg (by omega), if_pos below]
  · rw [if_neg below, List.getElem?_set]
    by_cases same : other = fd
    · subst same
      rw [if_pos rfl, if_pos rfl, if_pos bound]
    · rw [if_neg (by omega), if_neg same, if_neg below]

theorem connection_setSlot (inside : (s.slot fd).isSome) :
    (s.setSlot fd conn).connection = Function.update s.connection fd conn := by
  funext other
  unfold connection
  rw [slot_setSlot inside]
  by_cases same : other = fd
  · subst same
    simp
  · simp [same]

theorem slot_resize (positive : 0 ≤ fd) : ((s.resize fd).slot fd).isSome := by
  unfold slot resize
  rw [if_neg (by omega), List.getElem?_eq_getElem]
  · rfl
  · simp only [List.length_append, List.length_replicate]
    omega

theorem connection_resize : (s.resize fd).connection = s.connection := by
  funext other
  unfold connection slot resize
  by_cases below : other < 0
  · rw [if_pos below, if_pos below]
  · rw [if_neg below, if_neg below, List.getElem?_append]
    split
    · rfl
    · rename_i outside
      rw [List.getElem?_eq_none (Nat.le_of_not_lt outside), List.getElem?_replicate]
      split <;> rfl

theorem slot_isSome_setSlot (inside : (s.slot fd).isSome) :
    ((s.setSlot fd conn).slot other).isSome = (s.slot other).isSome := by
  rw [slot_setSlot inside]
  split
  · rename_i same
    rw [same, inside]
    rfl
  · rfl

end Slots

end Loop

/-! ### The invariant -/

/-- A connection between two calls of `io`, with its descriptor. -/
structure Serving (fd : Int) (peer : Peer) : Prop where
  fd : peer.conn.fd = fd
  ready : Ready peer
  state : peer.conn.state ≠ .END

structure Consistent (s : Loop) : Prop where
  held : ∀ fd peer, s.connection fd = some peer → s.connected fd = true ∧ Serving fd peer
  filled : ∀ fd, s.connected fd = true → (s.connection fd).isSome
  listening : s.connected s.listener = false
  registered : ∀ fd, (interest s.log fd).isSome → s.isOpen fd = true

theorem Loop.isOpen_of_ne {s : Loop} {fd : Int} (other : fd ≠ s.listener) : s.isOpen fd = s.connected fd := by
  rw [Loop.isOpen, beq_eq_false_iff_ne.mpr other]
  rfl

theorem newLoop_consistent (listener : Int) (db : Database) : Consistent (newLoop listener db) where
  held fd peer here := by
    rw [Loop.connection_some] at here
    unfold Loop.slot newLoop at here
    split at here
    · cases here
    · rw [List.getElem?_replicate] at here
      split at here <;> cases here
  filled fd wrong := by cases wrong
  listening := rfl
  registered fd here := by
    by_cases same : listener = fd
    · subst same
      simp [Loop.isOpen, newLoop, openAfter, opens]
    · simp [newLoop, interest, registers, same] at here

section Log

variable {s s' : Loop} {calls : List Syscall} (log : s'.log = s.log ++ calls)
include log

theorem Loop.connected_append (fd : Int) : s'.connected fd = calls.foldl (opens fd) (s.connected fd) := by
  rw [Loop.connected, Loop.connected, openAfter, log, List.foldl_append]
  rfl

theorem Loop.isOpen_append (listener : s'.listener = s.listener) (fd : Int) :
    s'.isOpen fd = calls.foldl (opens fd) (s.isOpen fd) := by
  rw [Loop.isOpen, Loop.isOpen, openAfter, log, listener, List.foldl_append]
  rfl

theorem Loop.interest_append (fd : Int) : interest s'.log fd = calls.foldl (registers fd) (interest s.log fd) := by
  rw [interest, log, List.foldl_append]
  rfl

end Log

/-- Calls on one descriptor, the last of which closes it, are nothing to another descriptor. -/
theorem calls_elsewhere {calls : List Syscall} {fd target : Int} (other : target ≠ fd)
    (own : ∀ call ∈ calls, call = .io fd ∨ call = .del fd ∨ call = .close fd) :
    (∀ isOpen, (calls ++ [Syscall.close fd]).foldl (opens target) isOpen = isOpen) ∧
      ∀ registered, (calls ++ [Syscall.close fd]).foldl (registers target) registered = registered := by
  induction calls with
  | nil => simp [opens, registers, other.symm]
  | cons call calls ih =>
      have rest := ih fun call member => own call (List.mem_cons_of_mem _ member)
      rcases own call List.mem_cons_self with rfl | rfl | rfl <;>
        simpa [opens, registers, other.symm] using rest

namespace Consistent

variable {s s' : Loop} {fd : Int} {peer : Peer}

theorem empty (consistent : Consistent s) (closed : s.connected fd = false) : s.connection fd = none := by
  cases here : s.connection fd with
  | none => rfl
  | some peer =>
      have live := (consistent.held fd peer here).1
      rw [closed] at live
      cases live

theorem vacant {input : Input} (consistent : Consistent s) (valid : input.Valid s) (listening : s.isOpen s.listener = true)
    (positive : 0 ≤ input.accepted) (peer : Peer) : s.slot input.accepted ≠ some (some peer) := by
  intro here
  have closed := valid.resolve_left (by omega)
  have away : input.accepted ≠ s.listener := by
    intro equal
    rw [equal, listening] at closed
    cases closed
  rw [Loop.isOpen_of_ne away] at closed
  have nothing := consistent.empty closed
  rw [Loop.connection_some.mpr here] at nothing
  cases nothing

theorem connected (consistent : Consistent s) (registered : (interest s.log fd).isSome) (other : fd ≠ s.listener) :
    s.connected fd = true := by
  rw [← Loop.isOpen_of_ne other]
  exact consistent.registered fd registered

/-- Calls on one descriptor that leave it open or closed, as its slot says, and in the interest list only when open. -/
theorem step {conn : Option Peer} {calls : List Syscall} (consistent : Consistent s) (listener : s'.listener = s.listener)
    (log : s'.log = s.log ++ calls) (slots : s'.connection = Function.update s.connection fd conn)
    (serving : ∀ peer, conn = some peer → Serving fd peer)
    (elsewhere : ∀ target, target ≠ fd → (∀ isOpen, calls.foldl (opens target) isOpen = isOpen) ∧
      ∀ registered, calls.foldl (registers target) registered = registered)
    (held : s'.connected fd = conn.isSome) (listening : fd = s.listener → conn = none)
    (registered : (interest s'.log fd).isSome → s'.isOpen fd = true) : Consistent s' where
  held target peer here := by
    rw [slots] at here
    by_cases same : target = fd
    · subst same
      rw [Function.update_self] at here
      rw [held, here]
      exact ⟨rfl, serving peer here⟩
    · rw [Function.update_of_ne same] at here
      rw [Loop.connected_append log, (elsewhere target same).1]
      exact consistent.held target peer here
  filled target live := by
    rw [slots]
    by_cases same : target = fd
    · subst same
      rwa [Function.update_self, ← held]
    · rw [Loop.connected_append log, (elsewhere target same).1] at live
      rw [Function.update_of_ne same]
      exact consistent.filled target live
  listening := by
    rw [listener]
    by_cases same : s.listener = fd
    · rw [same, held, listening same.symm]
      rfl
    · rw [Loop.connected_append log, (elsewhere _ same).1]
      exact consistent.listening
  registered target here := by
    by_cases same : target = fd
    · subst same
      exact registered here
    · rw [Loop.interest_append log, (elsewhere target same).2] at here
      rw [Loop.isOpen_append log listener, (elsewhere target same).1]
      exact consistent.registered target here

theorem opened (consistent : Consistent s) {events : Events} (listener : s'.listener = s.listener)
    (log : s'.log = s.log ++ [.accept fd, .add fd events])
    (slots : s'.connection = Function.update s.connection fd (some peer)) (serving : Serving fd peer)
    (other : fd ≠ s.listener) : Consistent s' := by
  refine consistent.step listener log slots ?_ ?_ ?_ (fun same => absurd same other) ?_
  · rintro _ ⟨⟩
    exact serving
  · intro target different
    simp [opens, registers, different.symm]
  · simp [Loop.connected_append log, opens]
  · simp [Loop.isOpen_append log listener, opens]

theorem served (consistent : Consistent s) (listener : s'.listener = s.listener) (log : s'.log = s.log ++ [.io fd])
    (slots : s'.connection = Function.update s.connection fd (some peer)) (serving : Serving fd peer)
    (live : s.connected fd = true) : Consistent s' := by
  refine consistent.step listener log slots ?_ ?_ ?_ ?_ ?_
  · rintro _ ⟨⟩
    exact serving
  · intro target different
    simp [opens, registers]
  · simpa [Loop.connected_append log, opens] using live
  · rintro rfl
    rw [consistent.listening] at live
    cases live
  · simpa [Loop.isOpen_append log listener, Loop.interest_append log, opens, registers] using consistent.registered fd

theorem closed {calls : List Syscall} (consistent : Consistent s) (listener : s'.listener = s.listener)
    (log : s'.log = s.log ++ (calls ++ [.close fd])) (slots : s'.connection = Function.update s.connection fd none)
    (own : ∀ call ∈ calls, call = .io fd ∨ call = .del fd ∨ call = .close fd) : Consistent s' := by
  refine consistent.step listener log slots nofun (fun target other => calls_elsewhere other own) ?_ (fun _ => rfl) ?_
  · rw [Loop.connected_append log, List.foldl_append]
    simp [opens]
  · rw [Loop.interest_append log, List.foldl_append]
    simp [registers]

end Consistent

/-! ### One event -/

namespace Loop

variable {s : Loop} {fd : Int}

theorem reset_eq {conn : Option Peer} (here : s.slot fd = some conn) :
    ∃ s', s.reset fd = .ok s' ∧ s'.listener = s.listener ∧ s'.db = s.db ∧
      s'.connection = Function.update s.connection fd none ∧
      s'.log = s.log ++ (conn.map fun peer => Syscall.close peer.conn.fd).toList ∧
      ∀ other, (s'.slot other).isSome = (s.slot other).isSome := by
  have inside : (s.slot fd).isSome := by rw [here]; rfl
  refine ⟨(s.setSlot fd none).destroy conn, by rw [reset, here], ?_⟩
  cases conn with
  | none =>
      exact ⟨rfl, rfl, connection_setSlot inside, (List.append_nil _).symm, fun _ => slot_isSome_setSlot inside⟩
  | some peer => exact ⟨rfl, rfl, connection_setSlot inside, rfl, fun _ => slot_isSome_setSlot inside⟩

end Loop

inductive Served (s : Loop) (input : Input) (event : Event) (s' : Loop) : Prop where
  | ignored (idle : event.events.ready = false) (same : s' = s)
  | kept {peer : Peer} {session : Session Database} (ready : event.events.ready = true)
      (here : s.connection event.fd = some peer)
      (done : (input.session peer s.db).io execute = .ok session) (goesOn : session.conn.state ≠ .END)
      (slots : s'.connection = Function.update s.connection event.fd (some session.toPeer))
      (log : s'.log = s.log ++ [.io event.fd])
  | ended {peer : Peer} {session : Session Database} (here : s.connection event.fd = some peer)
      (done : (input.session peer s.db).io execute = .ok session) (last : session.conn.state = .END)
      (slots : s'.connection = Function.update s.connection event.fd none)
      (log : s'.log = s.log ++ [.io event.fd, .del event.fd, .close event.fd])

structure Accepted (s : Loop) (input : Input) (s' : Loop) : Prop where
  free : s.connection input.accepted = none
  slots : s'.connection = Function.update s.connection input.accepted
    (some (newPeer input.accepted input.readBuffer input.writeBuffer))
  log : s'.log = s.log ++ [.accept input.accepted, .add input.accepted ⟨true, false, true, true⟩]

/-- What a hang-up does. A connection that is still in its slot closes the descriptor again. -/
inductive HungUp (s : Loop) (event : Event) (s' : Loop) : Prop where
  | stays (quiet : event.events.hangsUp = false) (same : s' = s)
  | closes (up : event.events.hangsUp = true) (slots : s'.connection = Function.update s.connection event.fd none)
      (log : s'.log = s.log ++ ([.del event.fd, .close event.fd] ++
        ((s.connection event.fd).map fun _ => Syscall.close event.fd).toList))

inductive Turn (s : Loop) (input : Input) (event : Event) (s' : Loop) : Prop where
  | refused (listening : event.fd = s.listener) (failed : input.accepted < 0) (same : s' = s)
  | accepted {mid : Loop} (listening : event.fd = s.listener) (other : input.accepted ≠ s.listener)
      (accepted : Accepted s input mid) (hungUp : HungUp mid event s')
  | served {mid : Loop} (other : event.fd ≠ s.listener) (served : Served s input event mid) (hungUp : HungUp mid event s')

section Handle

variable {s s' : Loop} {input : Input} {event : Event}

theorem session_sound {fd : Int} {peer : Peer} (serving : Serving fd peer) (input : Input) (db : Database) :
    (input.session peer db).toPeer.Sound :=
  ⟨serving.ready.sound.conn, serving.ready.sound.reads, serving.ready.sound.replies, serving.ready.sound.whole⟩

/-- Nothing but a command without a result stops a call of `io` on a connection of the table. -/
theorem Serving.io_ends {fd : Int} {peer : Peer} (serving : Serving fd peer) (input : Input) (db : Database) :
    Ends True (fun session => session.conn.fd = fd ∧
      (session.conn.state ≠ .END → Serving fd session.toPeer)) ((input.session peer db).io execute) := by
  have ends := @Common.io_ends _ execute _ (session_sound serving input db) (serving.ready.room serving.state)
    serving.state
  cases result : (input.session peer db).io execute with
  | error fault =>
      rw [result] at ends
      exact ⟨ends.1, trivial⟩
  | ok session =>
      rw [result] at ends
      obtain ⟨sound, _, handled⟩ := ends
      have same : session.conn.fd = fd := (Session.io_answered result).fd.trans serving.fd
      exact ⟨same, fun goesOn =>
        ⟨same, ⟨sound, fun state => handled.room (serving.ready.room serving.state) state⟩, goesOn⟩⟩

theorem serve_ends (consistent : Consistent s) (live : s.connected event.fd = true) :
    match s.serve input event with
    | .error crash => crash = .io .command
    | .ok s' => Consistent s' ∧ s'.listener = s.listener ∧ Served s input event s' ∧ (s'.slot event.fd).isSome := by
  obtain ⟨peer, here⟩ := Option.isSome_iff_exists.mp (consistent.filled event.fd live)
  have slot := Loop.connection_some.mp here
  have inside : (s.slot event.fd).isSome := by rw [slot]; rfl
  have serving := (consistent.held _ _ here).2
  unfold Loop.serve
  simp only [slot]
  cases ready : event.events.ready with
  | false => exact ⟨consistent, rfl, .ignored ready rfl, inside⟩
  | true =>
      have ends := serving.io_ends input s.db
      cases done : (input.session peer s.db).io execute with
      | error fault =>
          rw [done] at ends
          simp only [if_true, ends.1]
      | ok session =>
          rw [done] at ends
          obtain ⟨same, goesOn⟩ := ends
          simp only [if_true, serving.fd, same]
          have slots : (s.setSlot event.fd (some session.toPeer)).connection =
              Function.update s.connection event.fd (some session.toPeer) := Loop.connection_setSlot inside
          by_cases last : session.conn.state = .END
          · -- the slot is emptied, which closes the descriptor
            obtain ⟨s', reset, listener, _, emptied, log, within⟩ := @Loop.reset_eq
              (((({ s with db := session.db } : Loop).call (.io event.fd)).setSlot event.fd (some session.toPeer)).call
                (.del event.fd)) event.fd (some session.toPeer) ((Loop.slot_setSlot inside).trans (if_pos rfl))
            rw [if_pos last, reset]
            have slots' : s'.connection = Function.update s.connection event.fd none := by
              rw [emptied]
              refine (congrArg (Function.update · event.fd none) slots).trans ?_
              exact Function.update_idem _ _ _
            have log' : s'.log = s.log ++ [.io event.fd, .del event.fd, .close event.fd] := by
              rw [log]
              simp [Loop.call, Loop.setSlot, same]
            refine ⟨?_, listener, .ended here done last slots' log', ?_⟩
            · exact @Consistent.closed _ _ _ [.io event.fd, .del event.fd] consistent listener log' slots' (by simp)
            · rw [within]
              exact (Loop.slot_isSome_setSlot inside).trans inside
          · rw [if_neg last]
            refine ⟨?_, rfl, .kept ready here done last slots rfl, (Loop.slot_isSome_setSlot inside).trans inside⟩
            exact consistent.served rfl rfl slots (goesOn last) live

theorem hangUp_ends (consistent : Consistent s) :
    match s.hangUp event with
    | .error _ => event.events.hangsUp = true ∧ s.slot event.fd = none
    | .ok s' => Consistent s' ∧ s'.listener = s.listener ∧ HungUp s event s' := by
  unfold Loop.hangUp
  cases up : event.events.hangsUp with
  | false => exact ⟨consistent, rfl, .stays up rfl⟩
  | true =>
      simp only [if_true]
      cases slot : s.slot event.fd with
      | none =>
          have outside : ((s.call (.del event.fd)).call (.close event.fd)).slot event.fd = none := slot
          rw [Loop.reset, outside]
          exact ⟨trivial, rfl⟩
      | some conn =>
          obtain ⟨s', reset, listener, _, slots, log, _⟩ := @Loop.reset_eq
            ((s.call (.del event.fd)).call (.close event.fd)) event.fd conn slot
          have own : conn.map (fun peer => Syscall.close peer.conn.fd) =
              (s.connection event.fd).map fun _ => Syscall.close event.fd := by
            rw [Loop.connection_slot slot]
            cases conn with
            | none => rfl
            | some peer =>
                have serving := (consistent.held _ _ (Loop.connection_some.mpr slot)).2
                simp only [Option.map_some, serving.fd]
          have log' : s'.log = s.log ++ ([.del event.fd, .close event.fd] ++
              ((s.connection event.fd).map fun _ => Syscall.close event.fd).toList) := by
            rw [log, own]
            simp [Loop.call]
          rw [reset]
          refine ⟨?_, listener, .closes up slots log'⟩
          -- whether the slot holds a connection or not, the last call closes the descriptor
          cases here : s.connection event.fd with
          | none =>
              rw [here] at log'
              exact @Consistent.closed _ _ _ [.del event.fd] consistent listener log' slots (by simp)
          | some peer =>
              rw [here] at log'
              exact @Consistent.closed _ _ _ [.del event.fd, .close event.fd] consistent listener log' slots (by simp)

theorem newPeer_serving (fd : Int) (readBuffer writeBuffer : Buffer) : Serving fd (newPeer fd readBuffer writeBuffer) :=
  ⟨rfl, newPeer_ready fd readBuffer writeBuffer, nofun⟩

theorem accept_ends (consistent : Consistent s) (valid : 0 ≤ input.accepted) (other : input.accepted ≠ s.listener)
    (closed : s.isOpen input.accepted = false) :
    ∃ s', s.accept input = .ok s' ∧ Consistent s' ∧ s'.listener = s.listener ∧ Accepted s input s' := by
  have free : s.connection input.accepted = none := by
    rw [Loop.isOpen_of_ne other] at closed
    exact consistent.empty closed
  obtain ⟨conn, slot⟩ := Option.isSome_iff_exists.mp (@Loop.slot_resize s _ valid)
  have empty : conn = none := by
    rw [← Loop.connection_slot slot, Loop.connection_resize]
    exact free
  subst empty
  have slots : ((s.resize input.accepted).setSlot input.accepted
      (some (newPeer input.accepted input.readBuffer input.writeBuffer))).connection =
        Function.update s.connection input.accepted (some (newPeer input.accepted input.readBuffer input.writeBuffer)) := by
    rw [Loop.connection_setSlot (by rw [slot]; rfl), Loop.connection_resize]
  have accepted : s.accept input = .ok (((((s.call (.accept input.accepted)).call
      (.add input.accepted ⟨true, false, true, true⟩)).resize input.accepted).setSlot input.accepted
        (some (newPeer input.accepted input.readBuffer input.writeBuffer)))) := by
    unfold Loop.accept
    simp only [show (((s.call (.accept input.accepted)).call (.add input.accepted ⟨true, false, true, true⟩)).resize
      input.accepted).slot input.accepted = some none from slot]
    rfl
  have log : ((((s.call (.accept input.accepted)).call (.add input.accepted ⟨true, false, true, true⟩)).resize
      input.accepted).setSlot input.accepted (some (newPeer input.accepted input.readBuffer input.writeBuffer))).log =
        s.log ++ [.accept input.accepted, .add input.accepted ⟨true, false, true, true⟩] := List.append_assoc _ _ _
  exact ⟨_, accepted, consistent.opened rfl log slots (newPeer_serving _ _ _) other, rfl, free, slots, log⟩

theorem handle_ends (consistent : Consistent s) (valid : input.Valid s) (registered : (interest s.log event.fd).isSome) :
    match s.handle input event with
    | .error crash => event.fd ≠ s.listener ∧ crash = .io .command ∨ event.fd = s.listener ∧ event.events.hangsUp = true
    | .ok s' => Consistent s' ∧ s'.listener = s.listener ∧ Turn s input event s' := by
  unfold Loop.handle
  by_cases listening : event.fd = s.listener
  · rw [if_pos listening]
    by_cases failed : input.accepted < 0
    · rw [if_pos failed]
      exact ⟨consistent, rfl, .refused listening failed rfl⟩
    · rw [if_neg failed]
      have isOpen := consistent.registered event.fd registered
      have closed := valid.resolve_left failed
      have other : input.accepted ≠ s.listener := by
        intro same
        rw [same, ← listening, isOpen] at closed
        cases closed
      obtain ⟨mid, accepts, consistent', listener, accepted⟩ := accept_ends consistent (by omega) other closed
      have ends := @hangUp_ends mid event consistent'
      rw [accepts]
      simp only [bind, Except.bind]
      cases up : mid.hangUp event with
      | error crash =>
          rw [up] at ends
          exact .inr ⟨listening, ends.1⟩
      | ok s' =>
          rw [up] at ends
          exact ⟨ends.1, ends.2.1.trans listener, .accepted listening other accepted ends.2.2⟩
  · rw [if_neg listening]
    have ends := @serve_ends s input event consistent (consistent.connected registered listening)
    cases serves : s.serve input event with
    | error crash =>
        rw [serves] at ends
        exact .inl ⟨listening, ends⟩
    | ok mid =>
        rw [serves] at ends
        obtain ⟨consistent', listener, served, inside⟩ := ends
        have hung := @hangUp_ends mid event consistent'
        simp only [bind, Except.bind]
        cases up : mid.hangUp event with
        | error crash =>
            rw [up] at hung
            rw [hung.2] at inside
            cases inside
        | ok s' =>
            rw [up] at hung
            exact ⟨hung.1, hung.2.1.trans listener, .served listening served hung.2.2⟩

end Handle

/-! ### Runs -/

theorem Turn.registered {s s' : Loop} {input : Input} {event : Event} {fd : Int} (turn : Turn s input event s')
    (other : fd ≠ event.fd) (registered : (interest s.log fd).isSome) : (interest s'.log fd).isSome := by
  have ups : ∀ {mid : Loop}, HungUp mid event s' → (interest mid.log fd).isSome → (interest s'.log fd).isSome := by
    intro mid hungUp before
    cases hungUp with
    | stays _ same => rwa [same]
    | closes _ _ log =>
        rw [Loop.interest_append log]
        cases mid.connection event.fd <;> simpa [registers, other.symm] using before
  cases turn with
  | refused _ _ same => rwa [same]
  | accepted _ _ accepted hungUp =>
      refine ups hungUp ?_
      rw [Loop.interest_append accepted.log]
      by_cases same : input.accepted = fd
      · simp [registers, same]
      · simpa [registers, same] using registered
  | served _ served hungUp =>
      refine ups hungUp ?_
      cases served with
      | ignored _ same => rwa [same]
      | kept _ _ _ _ _ log => rwa [Loop.interest_append log]
      | ended _ _ _ _ log =>
          rw [Loop.interest_append log]
          simpa [registers, other.symm] using registered

theorem deliver_consistent {s : Loop} (consistent : Consistent s) (fd : Int) (data : Bytes) (closed : Bool) :
    Consistent (s.deliver fd data closed) := by
  unfold Loop.deliver
  split
  · rename_i peer here
    obtain ⟨live, serving⟩ := consistent.held fd peer (Loop.connection_some.mpr here)
    have ready := serving.ready
    refine consistent.step rfl (List.append_nil _).symm (Loop.connection_setSlot (by rw [here]; rfl)) ?_ ?_ live ?_
      (consistent.registered fd)
    · rintro _ ⟨⟩
      exact ⟨serving.fd, ⟨⟨ready.sound.conn, ready.sound.reads, ready.sound.replies, ready.sound.whole⟩, ready.room⟩,
        serving.state⟩
    · exact fun target _ => ⟨fun _ => rfl, fun _ => rfl⟩
    · rintro rfl
      rw [consistent.listening] at live
      cases live
  · exact consistent

theorem deliver_log (s : Loop) (fd : Int) (data : Bytes) (closed : Bool) :
    (s.deliver fd data closed).log = s.log ∧ (s.deliver fd data closed).listener = s.listener := by
  unfold Loop.deliver
  split <;> exact ⟨rfl, rfl⟩

/-- The invariant of a run: the events of the batch that are left have registered descriptors, all different. -/
structure Pending (listener : Int) (s : Loop) (rest : List Event) : Prop where
  consistent : Consistent s
  listener : s.listener = listener
  distinct : (rest.map Event.fd).Nodup
  registered : ∀ event ∈ rest, (interest s.log event.fd).isSome

theorem Pending.handle {listener : Int} {s s' : Loop} {rest : List Event} {input : Input} {event : Event}
    (pending : Pending listener s (event :: rest)) (valid : input.Valid s) (result : s.handle input event = .ok s') :
    Pending listener s' rest ∧ Turn s input event s' := by
  have ends := handle_ends pending.consistent valid (pending.registered event List.mem_cons_self)
  rw [result] at ends
  obtain ⟨consistent, same, turn⟩ := ends
  obtain ⟨apart, distinct⟩ := List.nodup_cons.mp pending.distinct
  refine ⟨⟨consistent, same.trans pending.listener, distinct, fun later member => ?_⟩, turn⟩
  refine turn.registered ?_ (pending.registered later (List.mem_cons_of_mem _ member))
  rintro equal
  exact apart (equal ▸ List.mem_map_of_mem member)

namespace Loop.Run

variable {listener : Int} {db : Database} {s : Loop} {handled rest : List Event}

theorem pending (run : Run (newLoop listener db) s handled rest) : Pending listener s rest := by
  induction run with
  | start => exact ⟨newLoop_consistent listener db, rfl, List.nodup_nil, nofun⟩
  | wait _ distinct registered ih => exact ⟨ih.consistent, ih.listener, distinct, registered⟩
  | @deliver s _ _ fd data closed _ ih =>
      have same := deliver_log s fd data closed
      refine ⟨deliver_consistent ih.consistent fd data closed, same.2.trans ih.listener, ih.distinct, ?_⟩
      rw [same.1]
      exact ih.registered
  | handle _ valid result ih => exact (ih.handle valid result).1

end Loop.Run

/-- Between two events, the slots of the table hold a connection exactly for the descriptors that were accepted and are
still open. So an event of a connection finds one in its slot that is not in END, only a command without a result can stop
it, and a connection that is accepted takes an empty slot. -/
theorem table_consistent {listener : Int} {db : Database} {s : Loop} {handled rest : List Event}
    (run : Loop.Run (newLoop listener db) s handled rest) :
    (∀ fd, ((∃ peer, s.slot fd = some (some peer)) ↔ s.connected fd = true) ∧
      ∀ peer, s.slot fd = some (some peer) → peer.conn.fd = fd ∧ (peer.conn.state = .REQ ∨ peer.conn.state = .RES)) ∧
    ∀ event later input, rest = event :: later → input.Valid s →
      (event.fd ≠ listener →
        (∃ peer, s.slot event.fd = some (some peer) ∧ peer.conn.state ≠ .END) ∧
        ∀ crash, s.handle input event = .error crash → crash = .io .command) ∧
      (event.fd = listener →
        (0 ≤ input.accepted → ∀ peer, s.slot input.accepted ≠ some (some peer)) ∧
        (event.events.hangsUp = false → ∃ s', s.handle input event = .ok s')) := by
  have pending := run.pending
  have consistent := pending.consistent
  have same := pending.listener
  refine ⟨fun fd => ⟨⟨?_, ?_⟩, ?_⟩, ?_⟩
  · rintro ⟨peer, here⟩
    exact (consistent.held fd peer (Loop.connection_some.mpr here)).1
  · intro live
    obtain ⟨peer, here⟩ := Option.isSome_iff_exists.mp (consistent.filled fd live)
    exact ⟨peer, Loop.connection_some.mp here⟩
  · intro peer here
    have serving := (consistent.held fd peer (Loop.connection_some.mpr here)).2
    refine ⟨serving.fd, ?_⟩
    cases state : peer.conn.state with
    | REQ => exact .inl rfl
    | RES => exact .inr rfl
    | END => exact absurd state serving.state
  · rintro event later input rfl valid
    have registered := pending.registered event List.mem_cons_self
    have ends := handle_ends consistent valid registered
    refine ⟨fun other => ⟨?_, ?_⟩, fun listening => ⟨?_, ?_⟩⟩
    · obtain ⟨peer, here⟩ := Option.isSome_iff_exists.mp
        (consistent.filled _ (consistent.connected registered (same ▸ other)))
      exact ⟨peer, Loop.connection_some.mp here, (consistent.held _ _ here).2.state⟩
    · intro crash result
      rw [result] at ends
      exact (ends.resolve_right fun wrong => other (wrong.1.trans same)).2
    · intro positive
      have isOpen := consistent.registered _ registered
      rw [listening, ← same] at isOpen
      exact consistent.vacant valid isOpen positive
    · intro quiet
      cases result : s.handle input event with
      | ok s' => exact ⟨s', rfl⟩
      | error crash =>
          rw [result] at ends
          rcases ends with ⟨other, _⟩ | ⟨_, up⟩
          · exact absurd (listening.trans same.symm) other
          · rw [quiet] at up
            cases up

def firstInput : Input := ⟨5, .zeros, .zeros, [], []⟩

def incoming (fd : Int) : Event := ⟨fd, ⟨true, false, false, false⟩⟩

theorem first_run : ∃ s, Loop.Run (newLoop 3 newDatabase) s [incoming 3] [] ∧ s.connected 5 = true := by
  have waited : Loop.Run (newLoop 3 newDatabase) _ [] [incoming 3] := .wait .start (by decide) (by decide)
  exact ⟨_, @Loop.Run.handle _ _ _ _ _ _ firstInput waited (.inr rfl) rfl, rfl⟩

theorem table_consistent_first : ∃ s, Loop.Run (newLoop 3 newDatabase) s [incoming 3] [] ∧
    ∃ peer, s.slot 5 = some (some peer) ∧ peer.conn.fd = 5 := by
  obtain ⟨s, run, live⟩ := first_run
  obtain ⟨slots, _⟩ := table_consistent run
  obtain ⟨peer, here⟩ := (slots 5).1.mpr live
  exact ⟨s, run, peer, here, ((slots 5).2 peer here).1⟩

end Coxx.Server
