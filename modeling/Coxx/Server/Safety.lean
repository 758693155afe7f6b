import Coxx.Server.Connections

/-! Bounds and assertions of the connections, and the requests that `io` leaves behind. -/

set_option autoImplicit false

namespace Coxx.Server

open Library Common

section Safety

variable {db : Database} {conns : Connections} {calls : List Call}

/-- No call of `io` leaves a buffer, underflows a counter or fails an assertion, whatever the kernel answers: in END it
fails the assertion made for that, and elsewhere only a command without a result can stop it. -/
theorem connection_safety (run : Run db conns calls) :
    (∀ i, (conns.peers i).conn.writeBufferSent ≤ (conns.peers i).conn.writeBufferSize ∧
      (conns.peers i).conn.writeBufferSize ≤ MAX_MESSAGE_SIZE ∧
      (conns.peers i).conn.readBufferSize ≤ 4 + MAX_MESSAGE_SIZE ∧
      ((conns.peers i).conn.state = .REQ →
        (conns.peers i).conn.writeBufferSent = 0 ∧ (conns.peers i).conn.writeBufferSize = 0) ∧
      ((conns.peers i).conn.state = .RES →
        (conns.peers i).conn.writeBufferSent < (conns.peers i).conn.writeBufferSize) ∧
      ((conns.peers i).conn.state ≠ .END → (conns.peers i).conn.readBufferSize < 4 + MAX_MESSAGE_SIZE)) ∧
    (∀ i reads writes fault, (conns.session i reads writes).io execute = .error fault →
      fault = if (conns.peers i).conn.state = .END then .notExpected else .command) ∧
    ∀ output, 4 + (packed output).length ≤ MAX_MESSAGE_SIZE := by
  have sound := run.sound
  refine ⟨fun i => ?_, fun i reads writes fault result => ?_, length_packed⟩
  · have ready := sound.ready i
    have counters := ready.sound.conn
    have room := ready.room
    rw [counters.length_pending] at room
    exact ⟨counters.sent, counters.size, counters.filled, counters.idle, counters.busy, room⟩
  · split
    · rename_i ended
      rw [io_end ended] at result
      cases result
      rfl
    · rename_i state
      have ends := sound.io_ends state reads writes
      rw [result] at ends
      exact ends.1

theorem connection_safety_pipelined : ∃ conns calls, Run newDatabase conns calls ∧
    (conns.peers 0).conn.state = .RES ∧
    (conns.peers 0).conn.writeBufferSent < (conns.peers 0).conn.writeBufferSize := by
  have run := (fresh_run.arrive 0 (emptyFrame ++ emptyFrame)).io
    (show ((fresh.arrive 0 (emptyFrame ++ emptyFrame)).session 0 [] [.EAGAIN]).io execute = .ok _ from rfl)
  exact ⟨_, _, run, rfl, ((connection_safety run).1 0).2.2.2.2.1 rfl⟩

/-! ### Requests left behind -/

/-- A call that returns in REQ has left no complete frame in the buffer, and its last read found no more input. -/
def Call.Settled (call : Call) : Prop :=
  call.after.conn.state = .REQ →
    nextFrame call.after.conn.pending = .wait ∧ call.after.chan.lastRead = some .EAGAIN

/-- A call that starts in RES, and whose writes accept all unsent bytes before they block or fail. -/
def Call.Drains (call : Call) : Prop :=
  call.before.conn.state = .RES ∧ (flush call.before.conn.unsent.length call.writes).2.1 = .drained

section Handled

variable {i : Nat} {reads writes : List Answer} {s : Session Database}

theorem not_settled (handled : Handled (conns.session i reads writes) s)
    (drains : (⟨conns.peers i, writes, s.toPeer⟩ : Call).Drains) :
    ¬ (⟨conns.peers i, writes, s.toPeer⟩ : Call).Settled := by
  obtain ⟨busy, drained⟩ := drains
  cases handled with
  | read idle _ => cases busy.symm.trans idle
  | flushed _ result =>
      intro settled
      have state : s.conn.state = .REQ := by
        rw [result.state]
        exact congrArg FlushEnd.state drained
      have last := (settled state).2
      rw [result.channel] at last
      cases last

theorem settled (handled : Handled (conns.session i reads writes) s)
    (before : (conns.peers i).conn.state = .REQ → nextFrame (conns.peers i).conn.pending = .wait)
    (quiet : ¬ (⟨conns.peers i, writes, s.toPeer⟩ : Call).Drains) :
    (⟨conns.peers i, writes, s.toPeer⟩ : Call).Settled := by
  intro state
  cases handled with
  | read idle filled =>
      cases filled with
      | waiting _ last wait _ _ => exact ⟨wait (before idle), last⟩
      | stopped ended _ _ => cases state.symm.trans ended
      | finished ended _ _ _ _ => cases state.symm.trans ended
      | failed ended _ => cases state.symm.trans ended
      | blocked ended _ _ => exact absurd state ended
  | flushed busy result =>
      have ending : (flush (conns.peers i).conn.unsent.length writes).2.1.state = .REQ := result.state.symm.trans state
      refine absurd ⟨busy, ?_⟩ quiet
      cases drained : (flush (conns.peers i).conn.unsent.length writes).2.1 with
      | drained => rfl
      | blocked => rw [drained] at ending; cases ending
      | failed => rw [drained] at ending; cases ending

end Handled

/-- While no call drains a reply that an earlier call left blocked, connections in REQ have no complete frame. -/
theorem Run.settled (run : Run db conns calls) (quiet : ∀ call ∈ calls, ¬call.Drains) :
    (∀ i, (conns.peers i).conn.state = .REQ → nextFrame (conns.peers i).conn.pending = .wait) ∧
      ∀ call ∈ calls, call.Settled := by
  induction run with
  | start fds readBuffers writeBuffers =>
      have nothing : ∀ i, (newPeer (fds i) (readBuffers i) (writeBuffers i)).conn.pending = [] :=
        fun i => List.take_zero
      exact ⟨fun i _ => by rw [nothing]; rfl, by simp⟩
  | arrive i data _ ih =>
      refine ⟨fun j => ?_, (ih quiet).2⟩
      rw [Connections.arrive, Connections.setChannel_conn]
      exact (ih quiet).1 j
  | close i _ ih =>
      refine ⟨fun j => ?_, (ih quiet).2⟩
      rw [Connections.close, Connections.setChannel_conn]
      exact (ih quiet).1 j
  | @io conns calls i reads writes s run result ih =>
      obtain ⟨waits, settled⟩ := ih fun call member => quiet call (List.mem_append_left _ member)
      have last := Server.settled (run.sound.io_ok result).2.2 (waits i) (quiet _ (by simp))
      refine ⟨fun j => ?_, ?_⟩
      · by_cases same : j = i
        · subst same
          simp only [Connections.after, Function.update_self]
          exact fun state => (last state).1
        · simp only [Connections.after, Function.update_of_ne same]
          exact waits j
      · intro call member
        rcases List.mem_append.mp member with before | now
        · exact settled call before
        · rw [List.mem_singleton.mp now]
          exact last

/-- Every call of a run is settled if and only if none drains a reply that an earlier call left blocked. -/
theorem settled_iff (run : Run db conns calls) :
    (∀ call ∈ calls, call.Settled) ↔ ∀ call ∈ calls, ¬call.Drains := by
  refine ⟨fun settled => ?_, fun quiet => (run.settled quiet).2⟩
  induction run with
  | start fds readBuffers writeBuffers => simp
  | arrive i data _ ih => exact ih settled
  | close i _ ih => exact ih settled
  | io run result ih =>
      intro call member
      rcases List.mem_append.mp member with before | now
      · exact ih (fun call member => settled call (List.mem_append_left _ member)) call before
      · have last := settled call member
        rw [List.mem_singleton.mp now] at last ⊢
        exact fun drains => not_settled (run.sound.io_ok result).2.2 drains last

end Safety

/-- A request that is answered at once. -/
theorem settled_iff_single : ∃ conns calls, Run newDatabase conns calls ∧ (conns.own 0).length = 1 ∧
    ∀ call ∈ calls, call.Settled := by
  have run := (fresh_run.arrive 0 emptyFrame).io
    (show ((fresh.arrive 0 emptyFrame).session 0 [] []).io execute = .ok _ from rfl)
  refine ⟨_, _, run, rfl, (settled_iff run).mpr ?_⟩
  intro call member
  rw [List.nil_append, List.mem_singleton] at member
  subst member
  exact fun drains => by cases drains.1

/-- Two requests in one read, and a reply that is blocked at first: the call that writes the reply
returns to REQ with the second request in the buffer. -/
theorem request_left_behind : ∃ conns calls, Run newDatabase conns calls ∧
    ((conns.peers 0).conn.state = .REQ ∧ nextFrame (conns.peers 0).conn.pending = .item [] []) ∧
    ¬∀ call ∈ calls, call.Settled := by
  have run := (fresh_run.arrive 0 (emptyFrame ++ emptyFrame)).io
    (show ((fresh.arrive 0 (emptyFrame ++ emptyFrame)).session 0 [] [.EAGAIN]).io execute = .ok _ from rfl)
  obtain ⟨conns, calls, blocked, busy, left⟩ : ∃ conns calls, Run newDatabase conns calls ∧
      (conns.peers 0).conn.state = .RES ∧ (conns.peers 0).conn.pending = emptyFrame := ⟨_, _, run, rfl, rfl⟩
  obtain ⟨s, written, flushed⟩ := @Session.stateResponse_flushed _ (conns.session 0 [] [])
    (blocked.sound.ready 0).sound.conn busy
  have result : (conns.session 0 [] []).io execute = .ok s := by
    unfold Session.io
    rw [show (conns.session 0 [] []).conn.state = .RES from busy]
    exact written
  have drained := blocked.io result
  refine ⟨_, _, drained, ⟨?_, ?_⟩, fun settled => ?_⟩
  · simp only [Connections.after, Function.update_self]
    exact flushed.state
  · simp only [Connections.after, Function.update_self, flushed.pending]
    rw [show (conns.session 0 [] []).conn.pending = emptyFrame from left]
    rfl
  · exact not_settled (blocked.sound.io_ok result).2.2 ⟨busy, rfl⟩ (settled _ (by simp))

end Coxx.Server
