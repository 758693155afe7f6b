import Mathlib.Data.List.Perm.Basic
import Mathlib.Logic.Function.Basic

/-! Blocks of memory that are allocated and freed. An access to a block that is not live is none, and so is freeing it.
-/

set_option autoImplicit false

namespace Coxx.Library

variable {β : Type}

/-- `content` means nothing for a block that is not live. -/
structure Blocks (β : Type) where
  live : List Nat
  content : Nat → β

/-- Where an allocator puts the next block, beside those that are live; none when it has no room. The place of a block
that was freed may be used again. -/
abbrev Allocator := List Nat → Option Nat

/-- The allocator has room for another block while fewer than `limit` are live. -/
def Allocator.Provides (limit : Nat) (place : Allocator) : Prop :=
  ∀ live : List Nat, live.length < limit → ∃ block, place live = some block ∧ block ∉ live

namespace Blocks

def load (blocks : Blocks β) (block : Nat) : Option β :=
  if block ∈ blocks.live then some (blocks.content block) else none

def store (blocks : Blocks β) (block : Nat) (value : β) : Option (Blocks β) :=
  if block ∈ blocks.live then some { blocks with content := Function.update blocks.content block value } else none

def free (blocks : Blocks β) (block : Nat) : Option (Blocks β) :=
  if block ∈ blocks.live then some { blocks with live := blocks.live.erase block } else none

def allocate (place : Allocator) (blocks : Blocks β) (value : β) : Blocks β × Option Nat :=
  match place blocks.live with
  | none => (blocks, none)
  | some block => ({ live := block :: blocks.live, content := Function.update blocks.content block value }, some block)

/-- The live blocks are those of `owners`, each of which has one owner. -/
structure Owned (blocks : Blocks β) (owners : List Nat) : Prop where
  live : blocks.live.Perm owners
  distinct : owners.Nodup

/-- What a store to one block leaves as it is. -/
structure Stored (blocks blocks' : Blocks β) (block : Nat) : Prop where
  live : blocks'.live = blocks.live
  others : ∀ other, other ≠ block → blocks'.load other = blocks.load other

section Blocks

variable {blocks blocks' : Blocks β} {block other : Nat} {value : β} {owners : List Nat}

theorem live_of_load (found : blocks.load block = some value) : block ∈ blocks.live := by
  unfold load at found
  split at found
  · assumption
  · cases found

theorem store_loaded (found : blocks.load block = some value) (value' : β) :
    ∃ blocks', blocks.store block value' = some blocks' ∧ blocks'.load block = some value' ∧
      Stored blocks blocks' block := by
  have here := live_of_load found
  refine ⟨_, if_pos here, ?_, rfl, fun other away => ?_⟩
  · simp [load, here]
  · simp only [load, Function.update_of_ne away]

theorem load_free (away : other ≠ block) (freed : blocks.free block = some blocks') :
    blocks'.load other = blocks.load other := by
  unfold free at freed
  split at freed
  · cases freed
    simp only [load, List.mem_erase_of_ne away]
  · cases freed

theorem Stored.owned (stored : Stored blocks blocks' block) (owned : Owned blocks owners) : Owned blocks' owners :=
  ⟨stored.live ▸ owned.live, owned.distinct⟩

theorem Owned.perm {owners' : List Nat} (owned : Owned blocks owners) (same : owners.Perm owners') :
    Owned blocks owners' :=
  ⟨owned.live.trans same, same.nodup_iff.mp owned.distinct⟩

theorem Owned.free (owned : Owned blocks (block :: owners)) :
    ∃ blocks', blocks.free block = some blocks' ∧ Owned blocks' owners := by
  have here : block ∈ blocks.live := owned.live.mem_iff.mpr List.mem_cons_self
  refine ⟨_, if_pos here, ?_, owned.distinct.of_cons⟩
  have less := owned.live.erase block
  rwa [List.erase_cons_head] at less

theorem Owned.allocate {place : Allocator} {limit : Nat} (provides : place.Provides limit) (owned : Owned blocks owners)
    (room : owners.length < limit) (value : β) :
    ∃ blocks' block, blocks.allocate place value = (blocks', some block) ∧ Owned blocks' (block :: owners) ∧
      blocks'.load block = some value ∧ ∀ other ∈ owners, blocks'.load other = blocks.load other := by
  obtain ⟨block, placed, away⟩ := provides blocks.live (by rwa [owned.live.length_eq])
  have fresh : block ∉ owners := fun member => away (owned.live.mem_iff.mpr member)
  refine ⟨_, block, by rw [Blocks.allocate, placed], ⟨owned.live.cons block, ?_⟩, ?_, ?_⟩
  · exact List.nodup_cons.mpr ⟨fresh, owned.distinct⟩
  · simp [load]
  · intro other member
    have ne : other ≠ block := fun same => fresh (same ▸ member)
    simp only [load, List.mem_cons, ne, false_or, Function.update_of_ne ne]

end Blocks

end Blocks

end Coxx.Library
