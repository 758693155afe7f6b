import Coxx.Server.Polling

/-! Clients that wait for `accept`. The loop accepts one client for each event of the listening socket, and several clients
that connect before it is delivered share one event. -/

set_option autoImplicit false

namespace Coxx.Server

open Library Common

/-- A client that connects while no earlier one is to be reported, and an `accept` that does not fail. -/
def prompt : Kernel × Action → Bool
  | (k, .connect) => (k.queued k.loop.listener).isNone
  | (k, .handle event input) => !(event.fd == k.loop.listener && decide (input.accepted < 0))
  | _ => true

/-- How often `accept` is still going to be called for the events so far. -/
def outstanding (listener : Int) (k : Kernel) : Nat :=
  (if (k.queued listener).isSome then 1 else 0) + (k.rest.map Event.fd).count listener

/-- The clients that no call of `accept` is left for. -/
def missed (waiting : Nat) (steps : List (Kernel × Action)) : Nat :=
  (waiting - 1) + steps.countP fun step => !prompt step

theorem missed_concat (waiting : Nat) (steps : List (Kernel × Action)) (step : Kernel × Action) :
    missed waiting (steps ++ [step]) = missed waiting steps + if prompt step then 0 else 1 := by
  unfold missed
  rw [List.countP_append, List.countP_singleton]
  cases prompt step <;> simp [Nat.add_assoc]

section Backlog

variable {listener : Int} {capacity : Nat} {k k' : Kernel} {action : Action}

theorem outstanding_congr (queued : k'.queued listener = k.queued listener) (rest : k'.rest = k.rest) :
    outstanding listener k' = outstanding listener k := by
  rw [outstanding, queued, rest]
  rfl

theorem account_still (backlog : k'.backlog = k.backlog) (queued : k'.queued listener = k.queued listener)
    (rest : k'.rest = k.rest) : k'.backlog + outstanding listener k = k.backlog + outstanding listener k' := by
  rw [backlog, outstanding_congr queued rest]

/-- A step makes calls of `accept` outstanding for all its clients but those that are missed. -/
theorem Step.backlog (step : Step capacity k action k') (tracked : Tracked listener k) :
    k'.backlog + outstanding listener k = k.backlog + outstanding listener k' + if prompt (k, action) then 0 else 1 := by
  have listening := tracked.pending.listener
  cases step with
  | connect =>
      have reported := @Kernel.notify_reported { k with backlog := k.backlog + 1 } listener readable _ tracked.heard (by decide)
      simp only [outstanding, prompt, listening, Kernel.notify_backlog, Kernel.notify_rest, reported]
      cases k.queued listener <;> simp <;> omega
  | @send fd data closed noticed live _ =>
      have other := (tracked.ne_listener live).symm
      cases noticed with
      | true => exact account_still (by simp) (Kernel.notify_other other) (by simp)
      | false => rfl
  | @receive fd count live _ _ =>
      have other := (tracked.ne_listener live).symm
      split
      · exact account_still (by simp [Kernel.setRoom]) (Kernel.notify_other other) (by simp [Kernel.setRoom])
      · rfl
  | @wait batch waits few distinct queued =>
      by_cases inside : listener ∈ batch.map Event.fd
      · -- the event moves from the queue to the batch
        obtain ⟨event, member, rfl⟩ := List.mem_map.mp inside
        have once := List.count_eq_one_of_mem distinct inside
        simp [outstanding, prompt, waits, inside, queued event member, once]
      · have never := List.count_eq_zero_of_not_mem inside
        simp [outstanding, prompt, waits, inside, never]
  | @accept event rest input loop next here valid pending result =>
      obtain ⟨tracked', _⟩ := tracked.handled next valid result
      have still : (interest loop.log listener).isSome := Option.isSome_iff_exists.mpr ⟨_, tracked'.heard⟩
      have one : outstanding listener k = outstanding listener (k.handled loop rest) + 1 := by
        simp [outstanding, next, Kernel.handled, still, here, listening, Nat.add_assoc]
      by_cases failed : input.accepted < 0
      · rw [if_pos failed, one]
        simp [prompt, here, failed, Kernel.handled]
        omega
      · rw [if_neg failed, one]
        have some := pending (by omega)
        have same : outstanding listener ((k.handled loop rest).takes input.accepted capacity) =
          outstanding listener (k.handled loop rest) := rfl
        rw [same]
        simp [prompt, here, failed, Kernel.handled, Kernel.takes]
        omega
  | @serve event rest input loop _ next other valid result _ _ _ =>
      obtain ⟨tracked', _⟩ := tracked.handled next valid result
      have still : (interest loop.log listener).isSome := Option.isSome_iff_exists.mpr ⟨_, tracked'.heard⟩
      rw [listening] at other
      simp [outstanding, prompt, next, Kernel.handled, Kernel.setRoom, still, other, listening]

theorem Polls.backlog {db : Database} {waiting : Nat} {steps : List (Kernel × Action)}
    (polls : Polls capacity (newKernel listener db waiting) k steps) :
    k.backlog = outstanding listener k + missed waiting steps := by
  induction polls with
  | start =>
      simp only [newKernel, outstanding, missed, List.map_nil, List.count_nil, List.countP_nil]
      by_cases some : 0 < waiting
      · simp [some]
        omega
      · simp [some]
        omega
  | step polls step ih =>
      have account := step.backlog polls.tracked
      rw [missed_concat]
      omega

end Backlog

/-- In every run, whenever the loop waits with no event of the listening socket undelivered, no client waits for `accept`,
if and only if no two clients had to share an event and no `accept` has failed. -/
theorem pending_client_iff {listener : Int} {db : Database} {waiting capacity : Nat} {k : Kernel}
    {steps : List (Kernel × Action)} (polls : Polls capacity (newKernel listener db waiting) k steps) (waits : k.rest = [])
    (delivered : k.queued listener = none) : k.backlog = 0 ↔ waiting ≤ 1 ∧ ∀ step ∈ steps, prompt step = true := by
  have account := polls.backlog
  rw [outstanding, waits, delivered] at account
  simp only [missed, List.map_nil, List.count_nil] at account
  rw [account]
  simp [Nat.sub_eq_zero_iff_le]

/-- One client connects and is accepted. -/
theorem pending_client_iff_single : ∃ k steps, Polls 4608 (newKernel 3 newDatabase 0) k steps ∧ k.loop.connected 5 = true ∧
    k.backlog = 0 := by
  have first := @Polls.step 4608 _ _ _ _ _ (@Polls.start 4608 (newKernel 3 newDatabase 0)) .connect
  have waited := first.step (@Step.wait _ _ [incoming 3] rfl (by decide) (by decide) (by decide))
  have accepted := waited.step (@Step.accept _ _ _ _ firstInput _ rfl rfl (.inr rfl) (fun _ => Nat.one_pos) rfl)
  refine ⟨_, _, accepted, rfl, (pending_client_iff accepted rfl rfl).mpr ⟨Nat.zero_le _, ?_⟩⟩
  intro step member
  simp only [List.nil_append, List.cons_append, List.mem_cons, List.not_mem_nil, or_false] at member
  rcases member with rfl | rfl | rfl <;> rfl

/-- Two clients connect before the loop comes to wait: one event, one `accept`, and the second client waits. -/
theorem client_forgotten : ∃ k steps, Polls 4608 (newKernel 3 newDatabase 0) k steps ∧ k.rest = [] ∧ k.queued 3 = none ∧
    k.backlog = 1 := by
  have first := @Polls.step 4608 _ _ _ _ _ (@Polls.start 4608 (newKernel 3 newDatabase 0)) .connect
  have second := first.step .connect
  have waited := second.step (@Step.wait _ _ [incoming 3] rfl (by decide) (by decide) (by decide))
  have accepted := waited.step (@Step.accept _ _ _ _ firstInput _ rfl rfl (.inr rfl) (fun _ => Nat.two_pos) rfl)
  exact ⟨_, _, accepted, rfl, rfl, rfl⟩

end Coxx.Server
