import Mathlib.Data.List.Basic
import Mathlib.Data.List.Nodup
import Mathlib.Logic.Function.Basic

/-! Null-terminated chains of a pointer heap, and families of chains.

A chain is described by the cells it visits. The heap is the `next` field alone,
so the lemmas apply to any record that carries one.
-/

set_option autoImplicit false

namespace Coxx.Library

variable {Ptr : Type}

/-- Following `next` from `start` visits exactly the listed cells and then ends. -/
def Linked (next : Ptr → Option Ptr) : Option Ptr → List Ptr → Prop
  | start, [] => start = none
  | start, cell :: rest => start = some cell ∧ Linked next (next cell) rest

@[simp] theorem linked_nil (next : Ptr → Option Ptr) (start : Option Ptr) :
    Linked next start [] ↔ start = none := Iff.rfl

@[simp] theorem linked_cons (next : Ptr → Option Ptr) (start : Option Ptr) (cell : Ptr) (rest : List Ptr) :
    Linked next start (cell :: rest) ↔ start = some cell ∧ Linked next (next cell) rest := Iff.rfl

theorem linked_none {next : Ptr → Option Ptr} {cells : List Ptr} (chain : Linked next none cells) :
    cells = [] := by
  cases cells with
  | nil => rfl
  | cons cell rest => simp at chain

theorem linked_some {next : Ptr → Option Ptr} {cell : Ptr} {cells : List Ptr}
    (chain : Linked next (some cell) cells) :
    ∃ rest, cells = cell :: rest ∧ Linked next (next cell) rest := by
  cases cells with
  | nil => simp at chain
  | cons first rest =>
      obtain ⟨same, tail⟩ := chain
      cases same
      exact ⟨rest, rfl, tail⟩

theorem linked_congr {next other : Ptr → Option Ptr} {start : Option Ptr} {cells : List Ptr}
    (same : ∀ cell ∈ cells, other cell = next cell) (chain : Linked next start cells) :
    Linked other start cells := by
  induction cells generalizing start with
  | nil => exact chain
  | cons cell rest ih =>
      refine ⟨chain.1, ?_⟩
      rw [same cell (by simp)]
      exact ih (fun other member => same other (by simp [member])) chain.2

theorem linked_unique {next : Ptr → Option Ptr} {start : Option Ptr} {left right : List Ptr}
    (first : Linked next start left) (second : Linked next start right) : left = right := by
  induction left generalizing start right with
  | nil =>
      cases first
      exact (linked_none second).symm
  | cons cell rest ih =>
      obtain ⟨rfl, tail⟩ := first
      obtain ⟨others, rfl, chain⟩ := linked_some second
      rw [ih tail chain]

theorem linked_last {next : Ptr → Option Ptr} {start : Option Ptr} {front rest : List Ptr} {last : Ptr}
    (chain : Linked next start (front ++ last :: rest)) : Linked next (next last) rest := by
  induction front generalizing start with
  | nil => exact chain.2
  | cons cell front ih => exact ih chain.2

section Update

variable [DecidableEq Ptr]

theorem linked_update_frame {next : Ptr → Option Ptr} {start value : Option Ptr} {cells : List Ptr} {cell : Ptr}
    (outside : cell ∉ cells) (chain : Linked next start cells) :
    Linked (Function.update next cell value) start cells := by
  apply linked_congr _ chain
  intro other member
  have away : other ≠ cell := fun same => outside (same ▸ member)
  exact Function.update_of_ne away value next

theorem linked_push {next : Ptr → Option Ptr} {start : Option Ptr} {cells : List Ptr} {cell : Ptr}
    (outside : cell ∉ cells) (chain : Linked next start cells) :
    Linked (Function.update next cell start) (some cell) (cell :: cells) := by
  refine ⟨rfl, ?_⟩
  rw [Function.update_self]
  exact linked_update_frame outside chain

theorem linked_bypass {next : Ptr → Option Ptr} {start : Option Ptr} {front rest : List Ptr} {last victim : Ptr}
    (distinct : (front ++ last :: victim :: rest).Nodup)
    (chain : Linked next start (front ++ last :: victim :: rest)) :
    Linked (Function.update next last (next victim)) start (front ++ last :: rest) := by
  induction front generalizing start with
  | nil =>
      obtain ⟨same, _, tail⟩ := chain
      refine ⟨same, ?_⟩
      rw [Function.update_self]
      have outside : last ∉ rest := fun member => by simp [member] at distinct
      exact linked_update_frame outside tail
  | cons cell front ih =>
      obtain ⟨same, tail⟩ := chain
      have away : cell ≠ last := fun equal => by simp [equal] at distinct
      refine ⟨same, ?_⟩
      rw [Function.update_of_ne away]
      exact ih (List.nodup_cons.mp distinct).2 tail

end Update

/-! Families of chains: one chain a slot. -/

section Family

variable {α : Type}

theorem flatten_set_perm {chains : List (List α)} {slot : Nat} {before after : List α} {cell : α}
    (here : chains[slot]? = some before) (grown : after.Perm (cell :: before)) :
    (chains.set slot after).flatten.Perm (cell :: chains.flatten) := by
  induction chains generalizing slot with
  | nil => simp at here
  | cons chain chains ih =>
      cases slot with
      | zero =>
          have same : chain = before := by simpa using here
          subst same
          simpa using grown.append_right chains.flatten
      | succ slot =>
          have rest := ih (by simpa using here)
          simp only [List.set_cons_succ, List.flatten_cons]
          exact (rest.append_left chain).trans List.perm_middle

theorem flatten_part_perm {chains : List (List α)} {slot : Nat} {before gone after : List α}
    (here : chains[slot]? = some before) (parted : before.Perm (gone ++ after)) :
    chains.flatten.Perm (gone ++ (chains.set slot after).flatten) := by
  induction chains generalizing slot with
  | nil => simp at here
  | cons chain chains ih =>
      cases slot with
      | zero =>
          have same : chain = before := by simpa using here
          subst same
          simpa using parted.append_right chains.flatten
      | succ slot =>
          have rest := ih (by simpa using here)
          simp only [List.set_cons_succ, List.flatten_cons]
          calc (chain ++ chains.flatten).Perm (chain ++ (gone ++ (chains.set slot after).flatten)) := rest.append_left chain
            List.Perm _ (gone ++ (chain ++ (chains.set slot after).flatten)) := List.perm_append_comm_assoc _ _ _

theorem flatten_unset_perm {chains : List (List α)} {slot : Nat} {before after : List α} {cell : α}
    (here : chains[slot]? = some before) (shrunk : before.Perm (cell :: after)) :
    chains.flatten.Perm (cell :: (chains.set slot after).flatten) :=
  @flatten_part_perm _ _ _ _ [cell] _ here shrunk

theorem flatten_first {chains : List (List α)} {slot : Nat} {rest : List α} {cell : α}
    (drained : ∀ i < slot, ∀ chain : List α, chains[i]? = some chain → chain = [])
    (here : chains[slot]? = some (cell :: rest)) : chains.flatten = cell :: (chains.set slot rest).flatten := by
  induction chains generalizing slot with
  | nil => simp at here
  | cons chain chains ih =>
      cases slot with
      | zero =>
          have same : chain = cell :: rest := by simpa using here
          simp [same]
      | succ slot =>
          have nothing : chain = [] := drained 0 (by omega) chain rfl
          have later := ih (fun i below other there => drained (i + 1) (Nat.succ_lt_succ below) other (by simpa using there))
            (by simpa using here)
          simpa [nothing] using later

theorem mem_flatten_of_slot {chains : List (List α)} {slot : Nat} {chain : List α} {cell : α}
    (here : chains[slot]? = some chain) (member : cell ∈ chain) : cell ∈ chains.flatten :=
  List.mem_flatten.mpr ⟨chain, List.mem_of_getElem? here, member⟩

theorem slot_of_mem_flatten {chains : List (List α)} {cell : α} (member : cell ∈ chains.flatten) :
    ∃ (slot : Nat) (chain : List α), chains[slot]? = some chain ∧ cell ∈ chain := by
  obtain ⟨chain, inside, here⟩ := List.mem_flatten.mp member
  obtain ⟨slot, found⟩ := List.mem_iff_getElem?.mp inside
  exact ⟨slot, chain, found, here⟩

theorem nodup_of_slot {chains : List (List α)} {slot : Nat} {chain : List α} (distinct : chains.flatten.Nodup)
    (here : chains[slot]? = some chain) : chain.Nodup :=
  (List.nodup_flatten.mp distinct).1 chain (List.mem_of_getElem? here)

theorem length_slot_le {chains : List (List α)} {slot : Nat} {chain : List α}
    (here : chains[slot]? = some chain) : chain.length ≤ chains.flatten.length :=
  (List.sublist_flatten_of_mem (List.mem_of_getElem? here)).length_le

theorem slot_unique {chains : List (List α)} (distinct : chains.flatten.Nodup) {i j : Nat} {left right : List α}
    {cell : α} (first : chains[i]? = some left) (second : chains[j]? = some right)
    (inLeft : cell ∈ left) (inRight : cell ∈ right) : i = j := by
  induction chains generalizing i j with
  | nil => simp at first
  | cons chain chains ih =>
      obtain ⟨_, rest, apart⟩ := List.nodup_append'.mp (by simpa using distinct)
      cases i with
      | zero =>
          cases j with
          | zero => rfl
          | succ j =>
              have same : chain = left := by simpa using first
              exact absurd (mem_flatten_of_slot (by simpa using second) inRight) (apart (same ▸ inLeft))
      | succ i =>
          cases j with
          | zero =>
              have same : chain = right := by simpa using second
              exact absurd (mem_flatten_of_slot (by simpa using first) inLeft) (apart (same ▸ inRight))
          | succ j => exact congrArg (· + 1) (ih rest (by simpa using first) (by simpa using second))

end Family

end Coxx.Library
