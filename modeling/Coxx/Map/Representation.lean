import Coxx.Library.Chain
import Coxx.Map.CMap

/-! What a well-formed table and map look like on the heap.

A table is represented by its chains, one list of nodes a slot. `MapRep` puts the
two tables of a map together with the invariant of progressive rehashing.
-/

set_option autoImplicit false

namespace Coxx.Map

open Library

def nextOf (nodes : Nodes) : Addr → Option Addr := fun node => (nodes node).next

theorem nextOf_setNext (nodes : Nodes) (node : Addr) (next : Option Addr) :
    nextOf (nodes.setNext node next) = Function.update (nextOf nodes) node next :=
  Nodes.setNext_next nodes node next

/-- An allocated table: every slot heads its chain, and a node lies in the slot of its code. -/
structure Allocated (nodes : Nodes) (table : CTable) (slots : List (Option Addr))
    (chains : List (List Addr)) : Prop where
  array : table.table = some slots
  width : slots.length = table.mask + 1
  power : ∃ k, table.mask + 1 = 2 ^ k
  narrow : table.mask + 1 ≤ 2 ^ 58
  paired : chains.length = slots.length
  size : table.size = chains.flatten.length
  distinct : chains.flatten.Nodup
  linked : ∀ (i : Nat) (head : Option Addr) (chain : List Addr), slots[i]? = some head →
    chains[i]? = some chain → Linked (nextOf nodes) head chain
  placed : ∀ (i : Nat) (chain : List Addr), chains[i]? = some chain →
    ∀ node ∈ chain, (nodes node).code &&& table.mask = i

/-- A table is either released (NULL and empty) or allocated. -/
def TableRep (nodes : Nodes) (table : CTable) (chains : List (List Addr)) : Prop :=
  (table = initTable ∧ chains = []) ∨ ∃ slots, Allocated nodes table slots chains

section Table

variable {nodes other : Nodes} {table : CTable} {slots : List (Option Addr)} {chains : List (List Addr)}

theorem Allocated.congr (rep : Allocated nodes table slots chains)
    (same : ∀ node ∈ chains.flatten, other node = nodes node) : Allocated other table slots chains where
  array := rep.array
  width := rep.width
  power := rep.power
  narrow := rep.narrow
  paired := rep.paired
  size := rep.size
  distinct := rep.distinct
  linked i head chain slot here := by
    apply linked_congr _ (rep.linked i head chain slot here)
    intro node member
    simp only [nextOf, same node (mem_flatten_of_slot here member)]
  placed i chain here node member := by
    rw [same node (mem_flatten_of_slot here member)]
    exact rep.placed i chain here node member

theorem TableRep.congr (rep : TableRep nodes table chains)
    (same : ∀ node ∈ chains.flatten, other node = nodes node) : TableRep other table chains := by
  rcases rep with released | ⟨slots, rep⟩
  · exact Or.inl released
  · exact Or.inr ⟨slots, rep.congr same⟩

theorem TableRep.size_eq (rep : TableRep nodes table chains) : table.size = chains.flatten.length := by
  rcases rep with ⟨rfl, rfl⟩ | ⟨slots, rep⟩
  · rfl
  · exact rep.size

theorem TableRep.mask_le (rep : TableRep nodes table chains) : table.mask + 1 ≤ 2 ^ 58 := by
  rcases rep with ⟨rfl, _⟩ | ⟨slots, rep⟩
  · simp [initTable]
  · exact rep.narrow

theorem TableRep.allocated (rep : TableRep nodes table chains) (array : table.table.isSome = true) :
    ∃ slots, Allocated nodes table slots chains := by
  rcases rep with ⟨rfl, _⟩ | found
  · simp [initTable] at array
  · exact found

theorem TableRep.released (rep : TableRep nodes table chains) (array : table.table = none) :
    table = initTable ∧ chains = [] := by
  rcases rep with found | ⟨slots, rep⟩
  · exact found
  · simp [rep.array] at array

theorem Allocated.slot (rep : Allocated nodes table slots chains) {i : Nat} (inside : i ≤ table.mask) :
    ∃ head chain, slots[i]? = some head ∧ chains[i]? = some chain ∧ Linked (nextOf nodes) head chain := by
  have slotBound : i < slots.length := by rw [rep.width]; omega
  have chainBound : i < chains.length := by rw [rep.paired]; exact slotBound
  refine ⟨slots[i], chains[i], by simp [slotBound], by simp [chainBound], ?_⟩
  exact rep.linked i _ _ (by simp [slotBound]) (by simp [chainBound])

theorem initializeTable_rep (nodes : Nodes) {n k : Nat} (power : n = 2 ^ k) (narrow : n ≤ 2 ^ 58) :
    ∃ table, initializeTable n = some table ∧ table.mask + 1 = n ∧
      Allocated nodes table (List.replicate n none) (List.replicate n []) := by
  have positive : 0 < n := by rw [power]; exact Nat.two_pow_pos k
  have mask : n - 1 + 1 = n := by omega
  have single : (n - 1) &&& n = 0 := by
    rw [Nat.and_comm, power, Nat.and_two_pow_sub_one_eq_mod, Nat.mod_self]
  refine ⟨_, if_pos ⟨positive, single⟩, mask, ?_⟩
  exact {
    array := rfl
    width := by simp [mask]
    power := ⟨k, by rw [mask, power]⟩
    narrow := by simpa only [mask] using narrow
    paired := by simp
    size := by simp
    distinct := by simp
    linked := by
      intro i head chain slot here
      rw [List.eq_of_mem_replicate (List.mem_of_getElem? slot),
        List.eq_of_mem_replicate (List.mem_of_getElem? here)]
      simp
    placed := by
      intro i chain here node member
      rw [List.eq_of_mem_replicate (List.mem_of_getElem? here)] at member
      simp at member }

end Table

end Coxx.Map
