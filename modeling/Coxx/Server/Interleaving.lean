import Coxx.Server.Linearizable
import Coxx.Server.Polling

/-! The event loop refines the connections that share a database: what it does between its calls on descriptors is one
interleaving of them. A descriptor that is accepted again stands for a connection that was not used before.
-/

set_option autoImplicit false

namespace Coxx.Server

open Library Common

def ioCalls (log : List Syscall) : List Int :=
  log.filterMap fun
    | .io fd => some fd
    | _ => none

/-! ### The database of the loop -/

namespace Loop

variable {s s' : Loop} {input : Input} {event : Event}

theorem destroy_db (s : Loop) (conn : Option Peer) : (s.destroy conn).db = s.db := by
  cases conn with
  | none => rfl
  | some peer => rfl

theorem reset_db {fd : Int} (result : s.reset fd = .ok s') : s'.db = s.db := by
  unfold reset at result
  split at result
  · cases result
  · cases result
    exact destroy_db _ _

theorem hangUp_db (result : s.hangUp event = .ok s') : s'.db = s.db := by
  unfold hangUp at result
  split at result
  · have same := reset_db result
    exact same
  · cases result
    rfl

theorem accept_db (result : s.accept input = .ok s') : s'.db = s.db := by
  unfold accept at result
  simp only at result
  split at result
  · cases result
  · cases result
    exact destroy_db _ _

/-- An event of a connection leaves the database of the call of `io` that is made for it, if one is made. -/
theorem serve_db (result : s.serve input event = .ok s') :
    s' = s ∨ ∃ peer session, s.connection event.fd = some peer ∧
      (input.session peer s.db).io execute = .ok session ∧ s'.db = session.db := by
  unfold serve at result
  split at result
  · cases result
  · rename_i conn slot
    split at result
    · cases conn with
      | none => cases result
      | some peer =>
          simp only at result
          split at result
          · cases result
          · rename_i session done
            refine .inr ⟨peer, session, connection_some.mpr slot, done, ?_⟩
            split at result
            · exact reset_db result
            · cases result
              rfl
    · cases result
      exact .inl rfl

end Loop

/-! ### The connections of the loop -/

/-- What the server was sent on a connection, whether it has read it or not. -/
def heard (peer : Peer) : Bytes := peer.chan.received ++ peer.chan.incoming

def Unused (peer : Peer) : Prop := ∃ fd readBuffer writeBuffer, peer = newPeer fd readBuffer writeBuffer

def Connections.followedBy (conns : Connections) (count : Nat) (later : Nat → Peer) : Connections :=
  { conns with peers := fun i => if i < count then conns.peers i else later i }

/-- The connections that the loop has accepted so far are numbered in the order of `accept`. Those that are open now are
found by their descriptor. -/
structure Interleaved (db : Database) (s : Loop) (conns : Connections) (count : Nat) (number : Int → Nat) : Prop where
  run : ∀ later, (∀ i, Unused (later i)) → ∃ calls, Run db (conns.followedBy count later) calls ∧
    calls.map (fun call => call.after.conn.fd) = ioCalls s.log
  db : conns.db = s.db
  below : ∀ fd, s.connected fd = true → number fd < count
  apart : ∀ fd other, s.connected fd = true → s.connected other = true → number fd = number other → fd = other
  peers : ∀ fd peer, s.connection fd = some peer → conns.peers (number fd) = peer

section Followed

variable {conns : Connections} {count i : Nat} {later : Nat → Peer}

theorem followedBy_peers (inside : i < count) : (conns.followedBy count later).peers i = conns.peers i := if_pos inside

theorem followedBy_update (inside : i < count) (peer : Peer) :
    (fun j => if j < count then Function.update conns.peers i peer j else later j) =
      Function.update (conns.followedBy count later).peers i peer := by
  funext j
  by_cases same : j = i
  · subst same
    rw [if_pos inside, Function.update_self, Function.update_self]
  · rw [Function.update_of_ne same, Function.update_of_ne same]
    rfl

theorem followedBy_setChannel (inside : i < count) (chan : Channel) :
    (conns.setChannel i chan).followedBy count later = (conns.followedBy count later).setChannel i chan := by
  simp only [Connections.followedBy, Connections.setChannel, Connections.mk.injEq, and_true]
  rw [followedBy_update inside, if_pos inside]
  rfl

theorem followedBy_session (inside : i < count) (reads writes : List Answer) :
    (conns.followedBy count later).session i reads writes = conns.session i reads writes := by
  unfold Connections.session
  rw [followedBy_peers inside]
  rfl

theorem followedBy_after (inside : i < count) (session : Session Database) :
    (conns.after i session).followedBy count later = (conns.followedBy count later).after i session := by
  simp only [Connections.followedBy, Connections.after, Connections.mk.injEq, if_pos inside, and_true]
  exact followedBy_update inside session.toPeer

theorem followedBy_next (peer : Peer) :
    ({ conns with peers := Function.update conns.peers count peer } : Connections).followedBy (count + 1) later =
      conns.followedBy count (Function.update later count peer) := by
  simp only [Connections.followedBy, Connections.mk.injEq, and_true]
  funext j
  rcases Nat.lt_trichotomy j count with less | rfl | more
  · rw [if_pos less, if_pos (by omega), Function.update_of_ne (by omega)]
  · rw [if_pos (Nat.lt_succ_self j), if_neg (lt_irrefl j), Function.update_self, Function.update_self]
  · rw [if_neg (by omega), if_neg (by omega), Function.update_of_ne (by omega)]

end Followed

/-! ### One step -/

section Interleaved

variable {db : Database} {s s' : Loop} {conns : Connections} {count : Nat} {number : Int → Nat} {input : Input}
  {event : Event}

theorem ioCalls_append (log calls : List Syscall) : ioCalls (log ++ calls) = ioCalls log ++ ioCalls calls :=
  List.filterMap_append

theorem newLoop_interleaved (listener : Int) (db : Database) :
    Interleaved db (newLoop listener db) ⟨fun _ => newPeer 0 .zeros .zeros, db, []⟩ 0 fun _ => 0 where
  run := by
    intro later unused
    choose fds readBuffers writeBuffers same using unused
    obtain rfl : later = fun i => newPeer (fds i) (readBuffers i) (writeBuffers i) := funext same
    exact ⟨[], .start fds readBuffers writeBuffers, rfl⟩
  db := rfl
  below fd live := by cases live
  apart fd other live := by cases live
  peers fd peer here := by
    have live := ((newLoop_consistent listener db).held fd peer here).1
    cases live

theorem Interleaved.mono (interleaved : Interleaved db s conns count number) (same : s'.db = s.db)
    (log : ioCalls s'.log = ioCalls s.log) (open' : ∀ fd, s'.connected fd = true → s.connected fd = true)
    (slots : ∀ fd peer, s'.connection fd = some peer → s.connection fd = some peer) :
    Interleaved db s' conns count number where
  run := by
    rw [log]
    exact interleaved.run
  db := interleaved.db.trans same.symm
  below fd live := interleaved.below fd (open' fd live)
  apart fd other live live' := interleaved.apart fd other (open' fd live) (open' other live')
  peers fd peer here := interleaved.peers fd peer (slots fd peer here)

theorem Run.deliver {calls : List Call} (run : Run db conns calls) (i : Nat) (data : Bytes) (closed : Bool) :
    Run db (conns.setChannel i { (conns.peers i).chan with
      incoming := (conns.peers i).chan.incoming ++ data, closed := (conns.peers i).chan.closed || closed }) calls := by
  have arrived := run.arrive i data
  cases closed with
  | false =>
      simp only [Bool.or_false]
      exact arrived
  | true =>
      have ended := arrived.close i
      simp only [Connections.close, Connections.arrive, Connections.setChannel, Function.update_self,
        Function.update_idem] at ended
      simp only [Bool.or_true]
      exact ended

theorem deliver_slots {fd : Int} {peer : Peer} (here : s.connection fd = some peer) (data : Bytes) (closed : Bool) :
    (s.deliver fd data closed).connection = Function.update s.connection fd (some { peer with chan := { peer.chan with
      incoming := peer.chan.incoming ++ data, closed := peer.chan.closed || closed } }) ∧
    (s.deliver fd data closed).db = s.db := by
  have slot := Loop.connection_some.mp here
  simp only [Loop.deliver, slot]
  exact ⟨Loop.connection_setSlot (by rw [slot]; rfl), rfl⟩

theorem deliver_cases {fd other : Int} {peer after : Peer} (here : s.connection fd = some peer) {data : Bytes}
    {closed : Bool} (there : (s.deliver fd data closed).connection other = some after) :
    other = fd ∧ after = { peer with chan := { peer.chan with
      incoming := peer.chan.incoming ++ data, closed := peer.chan.closed || closed } } ∨
      other ≠ fd ∧ s.connection other = some after := by
  rw [(deliver_slots here data closed).1] at there
  by_cases own : other = fd
  · rw [own, Function.update_self] at there
    exact .inl ⟨own, (Option.some.inj there).symm⟩
  · rw [Function.update_of_ne own] at there
    exact .inr ⟨own, there⟩

theorem deliver_nothing {fd : Int} (here : s.connection fd = none) (data : Bytes) (closed : Bool) :
    s.deliver fd data closed = s := by
  unfold Loop.deliver
  split
  · rename_i peer slot
    rw [Loop.connection_some.mpr slot] at here
    cases here
  · rfl

theorem Interleaved.deliver (interleaved : Interleaved db s conns count number) (consistent : Consistent s) (fd : Int)
    (data : Bytes) (closed : Bool) : ∃ conns', Interleaved db (s.deliver fd data closed) conns' count number ∧
      ∀ i, heard (conns'.peers i) = heard (conns.peers i) ∨
        ∃ peer, s.connection fd = some peer ∧ heard (conns'.peers i) = heard peer ++ data := by
  cases here : s.connection fd with
  | none =>
      rw [deliver_nothing here]
      exact ⟨conns, interleaved, fun i => .inl rfl⟩
  | some peer =>
      have live := (consistent.held fd peer here).1
      have inside := interleaved.below fd live
      have mine := interleaved.peers fd peer here
      refine ⟨conns.setChannel (number fd) { (conns.peers (number fd)).chan with
        incoming := (conns.peers (number fd)).chan.incoming ++ data
        closed := (conns.peers (number fd)).chan.closed || closed }, ⟨?_, ?_, ?_, ?_, ?_⟩, ?_⟩
      · intro later unused
        obtain ⟨calls, run, order⟩ := interleaved.run later unused
        have delivered := run.deliver (number fd) data closed
        rw [followedBy_peers inside] at delivered
        rw [followedBy_setChannel inside, (deliver_log s fd data closed).1]
        exact ⟨calls, delivered, order⟩
      · rw [(deliver_slots here data closed).2]
        exact interleaved.db
      · intro other up
        rw [deliver_connected] at up
        exact interleaved.below other up
      · intro left right up up'
        rw [deliver_connected] at up up'
        exact interleaved.apart left right up up'
      · intro other peer' here'
        rcases deliver_cases here here' with ⟨rfl, rfl⟩ | ⟨own, before⟩
        · simp only [Connections.setChannel, Function.update_self, mine]
        · have up := (consistent.held other peer' before).1
          have different : number other ≠ number fd := fun equal => own (interleaved.apart other fd up live equal)
          simp only [Connections.setChannel, Function.update_of_ne different]
          exact interleaved.peers other peer' before
      · intro i
        by_cases own : i = number fd
        · refine .inr ⟨peer, rfl, ?_⟩
          simp only [own, heard, Connections.setChannel, Function.update_self, mine, List.append_assoc]
        · left
          simp only [Connections.setChannel, Function.update_of_ne own]

theorem opens_before {calls : List Syscall} {fd : Int} {isOpen : Bool}
    (quiet : ∀ call ∈ calls, ∀ other, call ≠ .accept other) (up : calls.foldl (opens fd) isOpen = true) :
    isOpen = true := by
  induction calls generalizing isOpen with
  | nil => exact up
  | cons call calls ih =>
      have before := ih (fun call member => quiet call (List.mem_cons_of_mem _ member)) up
      cases call with
      | accept other => exact absurd rfl (quiet _ List.mem_cons_self other)
      | close target =>
          by_cases same : target = fd
          · simp [opens, same] at before
          · simpa [opens, same] using before
      | _ => exact before

theorem Serving.io_ok {fd : Int} {peer : Peer} {session : Session Database} (serving : Serving fd peer)
    (done : (input.session peer db).io execute = .ok session) :
    session.toPeer.Sound ∧ Progress execute (input.session peer db) session ∧ Handled (input.session peer db) session := by
  have ends := @Common.io_ends _ execute _ (session_sound serving input db) (serving.ready.room serving.state) serving.state
  rw [done] at ends
  exact ends

theorem Interleaved.io {peer : Peer} {session : Session Database} (interleaved : Interleaved db s conns count number)
    (consistent : Consistent s) (here : s.connection event.fd = some peer)
    (done : (input.session peer s.db).io execute = .ok session) (same : s'.db = session.db) {slot : Option Peer}
    (slots : s'.connection = Function.update s.connection event.fd slot)
    (own : ∀ after, slot = some after → after = session.toPeer) {calls : List Syscall} (log : s'.log = s.log ++ calls)
    (once : ioCalls calls = [event.fd]) (quiet : ∀ call ∈ calls, ∀ other, call ≠ .accept other) :
    Interleaved db s' (conns.after (number event.fd) session) count number ∧
      ∀ i, heard ((conns.after (number event.fd) session).peers i) = heard (conns.peers i) := by
  obtain ⟨live, serving⟩ := consistent.held event.fd peer here
  have inside := interleaved.below event.fd live
  have mine := interleaved.peers event.fd peer here
  have started : conns.session (number event.fd) input.reads input.writes = input.session peer s.db := by
    unfold Connections.session Input.session
    rw [mine, interleaved.db]
  have open' : ∀ fd, s'.connected fd = true → s.connected fd = true := by
    intro fd up
    rw [Loop.connected_append log] at up
    exact opens_before quiet up
  refine ⟨⟨?_, ?_, ?_, ?_, ?_⟩, ?_⟩
  · intro later unused
    obtain ⟨calls, run, order⟩ := interleaved.run later unused
    have result : ((conns.followedBy count later).session (number event.fd) input.reads input.writes).io execute =
        .ok session := by
      rw [followedBy_session inside, started]
      exact done
    rw [followedBy_after inside]
    refine ⟨_, run.io result, ?_⟩
    have fd : session.conn.fd = event.fd := (Session.io_answered done).fd.trans serving.fd
    rw [List.map_append, order, log, ioCalls_append, once, List.map_singleton, fd]
  · exact same.symm
  · exact fun fd up => interleaved.below fd (open' fd up)
  · exact fun fd other up up' => interleaved.apart fd other (open' fd up) (open' other up')
  · intro fd after there
    rw [slots] at there
    by_cases equal : fd = event.fd
    · subst equal
      rw [Function.update_self] at there
      simp only [Connections.after, Function.update_self]
      exact (own after there).symm
    · rw [Function.update_of_ne equal] at there
      have up := (consistent.held fd after there).1
      have different : number fd ≠ number event.fd := fun clash => equal (interleaved.apart fd event.fd up live clash)
      simp only [Connections.after, Function.update_of_ne different]
      exact interleaved.peers fd after there
  · intro i
    by_cases equal : i = number event.fd
    · subst equal
      simp only [Connections.after, Function.update_self, mine]
      exact (serving.io_ok done).2.1.delivered
    · simp only [Connections.after, Function.update_of_ne equal]

theorem Interleaved.accept (interleaved : Interleaved db s conns count number) (accepted : Accepted s input s')
    (same : s'.db = s.db) (consistent : Consistent s) :
    Interleaved db s'
      { conns with peers := Function.update conns.peers count (newPeer input.accepted input.readBuffer input.writeBuffer) }
      (count + 1) (Function.update number input.accepted count) := by
  have before : ∀ fd, fd ≠ input.accepted → s'.connected fd = true → s.connected fd = true := by
    intro fd other up
    rw [Loop.connected_append accepted.log] at up
    simpa [opens, Ne.symm other] using up
  constructor
  · intro later unused
    obtain ⟨calls, run, order⟩ := interleaved.run
      (Function.update later count (newPeer input.accepted input.readBuffer input.writeBuffer)) fun i => by
        by_cases next : i = count
        · rw [next, Function.update_self]
          exact ⟨_, _, _, rfl⟩
        · rw [Function.update_of_ne next]
          exact unused i
    rw [followedBy_next]
    refine ⟨calls, run, ?_⟩
    rw [order, accepted.log, ioCalls_append]
    exact (List.append_nil _).symm
  · exact interleaved.db.trans same.symm
  · intro fd up
    by_cases own : fd = input.accepted
    · subst own
      rw [Function.update_self]
      exact Nat.lt_succ_self count
    · rw [Function.update_of_ne own]
      exact Nat.lt_succ_of_lt (interleaved.below fd (before fd own up))
  · intro fd other up up' clash
    by_cases own : fd = input.accepted
    · by_cases own' : other = input.accepted
      · rw [own, own']
      · rw [own, Function.update_self, Function.update_of_ne own'] at clash
        exact absurd clash.symm (interleaved.below other (before other own' up')).ne
    · by_cases own' : other = input.accepted
      · rw [own', Function.update_self, Function.update_of_ne own] at clash
        exact absurd clash (interleaved.below fd (before fd own up)).ne
      · rw [Function.update_of_ne own, Function.update_of_ne own'] at clash
        exact interleaved.apart fd other (before fd own up) (before other own' up') clash
  · intro fd peer here
    rw [accepted.slots] at here
    by_cases own : fd = input.accepted
    · subst own
      rw [Function.update_self] at here
      cases here
      simp only [Function.update_self]
    · rw [Function.update_of_ne own] at here
      have live := (consistent.held fd peer here).1
      simp only [Function.update_of_ne own, Function.update_of_ne (interleaved.below fd live).ne]
      exact interleaved.peers fd peer here

theorem Interleaved.hangUp (interleaved : Interleaved db s conns count number) (hungUp : HungUp s event s')
    (same : s'.db = s.db) : Interleaved db s' conns count number := by
  cases hungUp with
  | stays _ equal => rwa [equal]
  | closes _ slots log =>
      refine interleaved.mono same ?_ ?_ ?_
      · rw [log, ioCalls_append]
        cases s.connection event.fd <;> simp [ioCalls]
      · intro fd up
        rw [Loop.connected_append log] at up
        refine opens_before ?_ up
        cases s.connection event.fd <;> simp
      · intro fd peer here
        rw [slots] at here
        by_cases own : fd = event.fd
        · rw [own, Function.update_self] at here
          cases here
        · rwa [Function.update_of_ne own] at here

theorem Interleaved.serve (interleaved : Interleaved db s conns count number) (consistent : Consistent s)
    (live : s.connected event.fd = true) (result : s.serve input event = .ok s') :
    ∃ conns', Interleaved db s' conns' count number ∧ ∀ i, heard (conns'.peers i) = heard (conns.peers i) := by
  have ends := @serve_ends s input event consistent live
  rw [result] at ends
  obtain ⟨_, _, served, _⟩ := ends
  rcases Loop.serve_db result with rfl | ⟨peer, session, here, done, same⟩
  · exact ⟨conns, interleaved, fun i => rfl⟩
  · cases served with
    | ignored _ equal => exact ⟨conns, equal ▸ interleaved, fun i => rfl⟩
    | @kept peer' session' _ here' done' _ slots log =>
        cases here.symm.trans here'
        cases done.symm.trans done'
        exact ⟨_, interleaved.io consistent here done same slots (fun after there => (Option.some.inj there).symm) log rfl
          (by simp)⟩
    | @ended peer' session' here' done' _ slots log =>
        cases here.symm.trans here'
        cases done.symm.trans done'
        exact ⟨_, interleaved.io consistent here done same slots (fun after there => by cases there) log rfl (by simp)⟩

theorem bind_ok {α β : Type} {call : Except Crash α} {next : α → Except Crash β} {result : β}
    (done : (call >>= next) = .ok result) : ∃ mid, call = .ok mid ∧ next mid = .ok result := by
  cases call with
  | error crash => cases done
  | ok mid => exact ⟨mid, rfl, done⟩

theorem Interleaved.handle (interleaved : Interleaved db s conns count number) (consistent : Consistent s)
    (valid : input.Valid s) (registered : (interest s.log event.fd).isSome) (result : s.handle input event = .ok s') :
    ∃ conns' count' number', Interleaved db s' conns' count' number' ∧
      ∀ i, i < count' → i < count ∧ heard (conns'.peers i) = heard (conns.peers i) ∨ heard (conns'.peers i) = [] := by
  unfold Loop.handle at result
  split at result
  · rename_i listening
    split at result
    · cases result
      exact ⟨conns, count, number, interleaved, fun i inside => .inl ⟨inside, rfl⟩⟩
    · rename_i positive
      obtain ⟨mid, accepts, up⟩ := bind_ok result
      have other : input.accepted ≠ s.listener := by
        intro same
        have isOpen := consistent.registered event.fd registered
        have closed := valid.resolve_left positive
        rw [same, ← listening, isOpen] at closed
        cases closed
      obtain ⟨mid', accepts', consistent', _, accepted⟩ :=
        accept_ends consistent (by omega) other (valid.resolve_left positive)
      cases accepts.symm.trans accepts'
      have hung := @hangUp_ends mid event consistent'
      rw [up] at hung
      have next := interleaved.accept accepted (Loop.accept_db accepts) consistent
      refine ⟨_, _, _, next.hangUp hung.2.2 (Loop.hangUp_db up), fun i inside => ?_⟩
      by_cases new : i = count
      · right
        simp only [new, Function.update_self]
        rfl
      · exact .inl ⟨by omega, by simp only [Function.update_of_ne new]⟩
  · rename_i other
    obtain ⟨mid, serves, up⟩ := bind_ok result
    have live := consistent.connected registered other
    have ends := @serve_ends s input event consistent live
    rw [serves] at ends
    have hung := @hangUp_ends mid event ends.1
    rw [up] at hung
    obtain ⟨conns', next, same⟩ := interleaved.serve consistent live serves
    exact ⟨conns', count, number, next.hangUp hung.2.2 (Loop.hangUp_db up), fun i inside => .inl ⟨inside, same i⟩⟩

end Interleaved

theorem Loop.Run.interleaved {listener : Int} {db : Database} {s : Loop} {handled rest : List Event}
    (run : Loop.Run (newLoop listener db) s handled rest) : ∃ conns count number, Interleaved db s conns count number := by
  induction run with
  | start => exact ⟨_, _, _, newLoop_interleaved listener db⟩
  | wait _ _ _ ih => exact ih
  | deliver fd data closed run ih =>
      obtain ⟨conns, count, number, interleaved⟩ := ih
      obtain ⟨conns', next, _⟩ := interleaved.deliver run.pending.consistent fd data closed
      exact ⟨conns', count, number, next⟩
  | handle run valid result ih =>
      obtain ⟨conns, count, number, interleaved⟩ := ih
      have pending := run.pending
      obtain ⟨conns', count', number', next, _⟩ :=
        interleaved.handle pending.consistent valid (pending.registered _ List.mem_cons_self) result
      exact ⟨conns', count', number', next⟩

theorem heard_of_order {db : Database} {conns : Connections} {count : Nat} {later : Nat → Peer} {calls : List Call}
    (run : Run db (conns.followedBy count later) calls) (unused : ∀ i, Unused (later i)) {entry : Nat × Done}
    (member : entry ∈ conns.order) :
    entry.1 < count ∧ entry.2.commandList ∈ frames.all (heard (conns.peers entry.1)) := by
  have sound := run.sound
  have own : entry.2 ∈ (conns.followedBy count later).own entry.1 :=
    List.mem_map.mpr ⟨entry, List.mem_filter.mpr ⟨member, by simp⟩, rfl⟩
  have inside : entry.1 < count := by
    by_contra outside
    obtain ⟨fd, readBuffer, writeBuffer, fresh⟩ := unused entry.1
    rw [← sound.own] at own
    simp only [Connections.followedBy, if_neg outside, fresh] at own
    cases own
  have requests := sound.requests_isPrefix entry.1
  rw [followedBy_peers inside] at requests
  have requests := requests.trans (Decoder.all_append _ (conns.peers entry.1).chan.incoming)
  exact ⟨inside, requests.subset (List.mem_map_of_mem own)⟩

/-- Every run of the event loop is a run of connections that share its database, with a call of `io` for each that the
loop has made, in the same order. The connections that are open are in its table, under different numbers. -/
theorem loop_interleaves {listener : Int} {db : Database} {s : Loop} {handled rest : List Event}
    (run : Loop.Run (newLoop listener db) s handled rest) :
    ∃ conns calls, ∃ number : Int → Nat, Run db conns calls ∧ conns.db = s.db ∧
      calls.map (fun call => call.after.conn.fd) = ioCalls s.log ∧
      (∀ fd other, s.connected fd = true → s.connected other = true → number fd = number other → fd = other) ∧
      ∀ fd, s.connected fd = true → s.slot fd = some (some (conns.peers (number fd))) := by
  obtain ⟨conns, count, number, interleaved⟩ := run.interleaved
  obtain ⟨calls, interleaving, order⟩ := interleaved.run (fun _ => newPeer 0 .zeros .zeros) fun _ => ⟨0, .zeros, .zeros, rfl⟩
  refine ⟨_, calls, number, interleaving, interleaved.db, order, interleaved.apart, fun fd live => ?_⟩
  obtain ⟨peer, here⟩ := Option.isSome_iff_exists.mp (run.pending.consistent.filled fd live)
  rw [followedBy_peers (interleaved.below fd live), interleaved.peers fd peer here]
  exact Loop.connection_some.mp here

/-- A client that is accepted and sends a request. -/
theorem loop_interleaves_single : ∃ s handled conns calls, ∃ number : Int → Nat,
    Loop.Run (newLoop 3 newDatabase) s handled [] ∧ Run newDatabase conns calls ∧ calls.length = 1 ∧
    s.slot 5 = some (some (conns.peers (number 5))) := by
  have requested : ∃ s, Loop.Run (newLoop 3 newDatabase) s [incoming 3] [incoming 5] ∧
      ((s.handle ⟨-1, .zeros, .zeros, [], []⟩ (incoming 5)).toOption.map fun loop =>
        (ioCalls loop.log, loop.connected 5)) = some ([5], true) := by
    have waited : Loop.Run (newLoop 3 newDatabase) _ [] [incoming 3] := .wait .start (by decide) (by decide)
    have accepted := @Loop.Run.handle _ _ _ _ _ _ firstInput waited (.inr rfl) rfl
    exact ⟨_, .wait (accepted.deliver 5 emptyFrame false) (by decide) (by decide), by decide +kernel⟩
  obtain ⟨s, waiting, evaluated⟩ := requested
  cases result : s.handle ⟨-1, .zeros, .zeros, [], []⟩ (incoming 5) with
  | error crash =>
      rw [result] at evaluated
      cases evaluated
  | ok loop =>
      rw [result] at evaluated
      simp only [Except.toOption, Option.map_some, Option.some.injEq, Prod.mk.injEq] at evaluated
      have run := waiting.handle (.inl (by decide)) result
      obtain ⟨conns, calls, number, interleaving, _, order, _, slots⟩ := loop_interleaves run
      rw [evaluated.1] at order
      have count := congrArg List.length order
      rw [List.length_map] at count
      exact ⟨_, _, conns, calls, number, run, interleaving, count, slots 5 evaluated.2⟩

end Coxx.Server
