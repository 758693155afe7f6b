import Coxx.Client.Sessions
import Coxx.Server.Settling

/-! Clients against the event loop: once the loop has nothing left to do for the connection of a client, the client has
its answer.
-/

set_option autoImplicit false

namespace Coxx.Client

open Library Common Server

/-- A run of the client over an open connection on which nothing is under way: `sent` reached the server, and the client
had `received` to read.
-/
structure Exchange (chan : Channel) (behind : Nat → UInt8) (commands : List Bytes) (report : Report)
    (sent received : Bytes) : Prop where
  ran : run chan behind commands = .ok report
  fresh : chan.written = []
  steady : Steady chan.reads
  opened : chan.closed = false
  sent : report.chan.written = sent
  received : chan.incoming = received

section Exchange

variable {chan : Channel} {behind : Nat → UInt8} {commands : List Bytes} {report : Report} {sent received : Bytes}

theorem Exchange.parts (exchange : Exchange chan behind commands report sent received) :
    ∃ sendErr chan', Sent chan chan' commands sendErr sent ∧ reported sendErr (readResponse chan') = .ok report := by
  obtain ⟨sendErr, chan', out, shipped, result⟩ := run_parts exchange.ran
  have same : out = sent := by
    rw [← exchange.sent, reported_written result, shipped.written, exchange.fresh, List.nil_append]
  rw [same] at shipped
  exact ⟨sendErr, chan', shipped, result⟩

/-- A command that did not go out whole is no request. There is no reply to it, and the client waits for one. -/
theorem Exchange.refused (exchange : Exchange chan behind commands report sent [])
    (short : sent ≠ frame (encodedCommand commands)) :
    report.lines = [] ∧ report.failures = [.sendRequest] ∧ report.waits = true := by
  obtain ⟨sendErr, chan', shipped, result⟩ := exchange.parts
  have none : chan'.incoming = [] := shipped.incoming.trans exchange.received
  have opened : chan'.closed = false := shipped.closed.trans exchange.opened
  obtain ⟨⟨waits, lines, _⟩, failures⟩ := @reported_short chan' [] sendErr report (by decide) (none ▸ List.nil_prefix)
    (by rw [none]; decide) (shipped.reads ▸ exchange.steady) result
  rw [opened] at waits lines failures
  rw [if_pos fun fine => short (shipped.whole.mp fine)] at failures
  refine ⟨?_, failures, waits⟩
  rw [lines, if_neg fun wrong => Bool.false_ne_true wrong.1]

theorem Exchange.printed {value : Value}
    (exchange : Exchange chan behind commands report (frame (encodedCommand commands)) (frame value.encoded))
    (fits : value.Fits) (small : value.encoded.length ≤ MAX_MESSAGE_SIZE) :
    report.lines = printed value ∧ report.failures = [] ∧ report.waits = false := by
  obtain ⟨sendErr, chan', shipped, result⟩ := exchange.parts
  obtain rfl := shipped.whole.mpr rfl
  exact reported_frame fits small (shipped.incoming.trans exchange.received) (shipped.reads ▸ exchange.steady) result

theorem Exchange.request (exchange : Exchange chan behind commands report sent received) :
    frames.all sent = if sent = frame (encodedCommand commands) then [commands] else [] := by
  obtain ⟨sendErr, chan', shipped, _⟩ := exchange.parts
  split
  · rename_i whole
    have something : sent ≠ [] := by
      intro none
      have width := congrArg List.length (none.symm.trans whole)
      rw [List.length_nil, length_frame] at width
      omega
    rw [whole, frames_encoded (shipped.small something)]
  · rename_i short
    by_contra found
    exact short (shipped.whole_of_frames (List.prefix_refl sent) found)

end Exchange

/-- The whole system. In every run of the event loop in which no write is refused and no read reports EAGAIN while there
is input, a client for whose connection no event is left prints the answer of the store to its command, at a place of the
one order for all clients; or else its command did not go out whole, and it says so and waits for a reply. No request in
what was sent names a member with a NUL byte.
-/
theorem clients_answered {listener : Int} {around : Nat → Surroundings} {waiting capacity : Nat} {k : Kernel}
    {steps : List (Kernel × Action)} (polls : Polls capacity (newKernel listener ⟨initCommandMap, around⟩ waiting) k steps)
    (unhindered : ∀ step ∈ steps, Unhindered step.2)
    (clean : ∀ front fd, front <+: steps → ∀ commandList ∈ frames.all (sentTo listener fd front),
      ∀ name ∈ (Request.command commandList).names, Zset.Clean name) :
    ∃ conns calls, ∃ number : Int → Nat, Server.Run ⟨initCommandMap, around⟩ conns calls ∧ conns.db = k.loop.db ∧
      ∀ fd peer chan behind commands, ∀ report : Report, k.loop.connection fd = some peer → ¬k.Announced fd →
        Exchange chan behind commands report (sentTo listener fd steps) peer.chan.written →
        (sentTo listener fd steps = frame (encodedCommand commands) ∧
          Answered conns.order (number fd) commands report.lines ∧ report.failures = [] ∧ report.waits = false) ∨
        (sentTo listener fd steps ≠ frame (encodedCommand commands) ∧
          report.lines = [] ∧ report.failures = [.sendRequest] ∧ report.waits = true) := by
  obtain ⟨conns, count, number, interleaved, sources⟩ := polls.interleaved unhindered
  have unused : ∀ i : Nat, Unused (newPeer 0 .zeros .zeros) := fun i => ⟨0, .zeros, .zeros, rfl⟩
  obtain ⟨calls, served, _⟩ := interleaved.run (fun _ => newPeer 0 .zeros .zeros) unused
  have named := SendsClean.named clean served unused sources
  refine ⟨_, calls, number, served, interleaved.db, ?_⟩
  intro fd peer chan behind commands report here quiet exchange
  obtain ⟨_, _, _, _, executed, written⟩ := polls.attended unhindered interleaved served here quiet
  rw [exchange.request] at executed
  by_cases whole : sentTo listener fd steps = frame (encodedCommand commands)
  · rw [if_pos whole] at executed
    obtain ⟨done, own, rfl⟩ := List.map_eq_singleton_iff.mp executed
    obtain ⟨value, fits, small, encoded, answers⟩ := reply_answers served named
      (show done ∈ Connections.own _ (number fd) by rw [own]; exact List.mem_cons_self)
    rw [own, framedReplies, List.map_singleton, List.flatten_singleton, encoded] at written
    rw [whole, written] at exchange
    obtain ⟨lines, done⟩ := exchange.printed fits small
    rw [lines]
    exact .inl ⟨whole, answers, done⟩
  · rw [if_neg whole, List.map_eq_nil_iff] at executed
    rw [executed] at written
    rw [written] at exchange
    exact .inr ⟨whole, exchange.refused whole⟩

/-- An empty command, which the server does not know. -/
theorem clients_answered_unknown : ∃ k steps conns calls, ∃ (number : Int → Nat) (report : Report),
    Polls 24 (newKernel 3 newDatabase 0) k steps ∧ Server.Run newDatabase conns calls ∧ k.rest = [] ∧
    Answered conns.order (number 5) [] report.lines ∧ report.failures = [] ∧ report.waits = false := by
  obtain ⟨k, steps, peer, polls, unhindered, asked, fronts, idle, here, quiet, written⟩ := request_served
  obtain ⟨report, ran, wrote⟩ := run_empty
  have whole : emptyFrame = frame (encodedCommand []) := rfl
  obtain ⟨conns, calls, number, served, _, answered⟩ := clients_answered polls unhindered fronts.clean
  have exchange : Exchange _ (fun _ => 0) [] report (sentTo 3 5 steps) peer.chan.written :=
    ⟨ran, rfl, fun answer member => absurd member List.not_mem_nil, rfl, wrote.trans asked.symm, written.symm⟩
  rcases answered 5 peer _ _ _ report here quiet exchange with ⟨_, lines, fine⟩ | ⟨short, _⟩
  · exact ⟨k, steps, conns, calls, number, report, polls, served, idle, lines, fine⟩
  · exact absurd (asked.trans whole) short

end Coxx.Client
