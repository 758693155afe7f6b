import Coxx.Memory
import Mathlib.Logic.Function.Basic

/-! The AVL tree of avl/cxx/avl.cxx, a set of boost's with cached depths and counts.

The set is a parameter. Depths, counts and parents are fields of the nodes, which stay where
they are. A computation is none where the code never returns or has no defined behaviour.
-/

set_option autoImplicit false

namespace Coxx.CxxAvl

structure AVLNode where
  depth : Nat := 0
  count : Nat := 0
  parent : Option Addr := none
  deriving DecidableEq, Repr

/-- `operator<`; the set is ordered by the depths. -/
def AVLNode.less (node other : AVLNode) : Bool := node.depth < other.depth

abbrev Fields := Addr → AVLNode

def Fields.less (nodes : Fields) (node other : Addr) : Bool := (nodes node).less (nodes other)

/-! ### boost::intrusive::avl_set -/

/-- What is used of `avl_set`. The neighbours of an object that is not in the set may be asked for as well; the outer none
is a crash.
-/
structure AvlSet where
  State : Type
  empty : State
  /-- The objects in the set, in its order. -/
  elements : State → List Addr
  insert_unique : Fields → State → Addr → State × Bool
  erase : State → Addr → State
  /-- `find` with the comparison `RootComp`, which is always false. -/
  find : State → Option Addr
  /-- `--iterator_to(node)`, and none at `begin()`. -/
  before : Fields → State → Addr → Option (Option Addr)
  /-- `++iterator_to(node)`, and none at `end()`. -/
  behind : Fields → State → Addr → Option (Option Addr)

/-- An ordered set without equivalent elements. Nothing is known of an insertion once the elements are out of order. -/
structure AvlSet.Lawful (set : AvlSet) : Prop where
  empty : set.elements set.empty = []
  refused : ∀ nodes s node, (set.elements s).Pairwise (fun left right => nodes.less left right = true) →
    (∃ other ∈ set.elements s, nodes.less other node = false ∧ nodes.less node other = false) →
    set.insert_unique nodes s node = (s, false)
  inserted : ∀ nodes s node, (set.elements s).Pairwise (fun left right => nodes.less left right = true) →
    (∀ other ∈ set.elements s, nodes.less other node = true ∨ nodes.less node other = true) →
    ∃ s', set.insert_unique nodes s node = (s', true) ∧
      set.elements s' = (set.elements s).takeWhile (nodes.less · node) ++ node ::
        (set.elements s).dropWhile (nodes.less · node)
  erased : ∀ s node, node ∈ set.elements s → set.elements (set.erase s node) = (set.elements s).erase node
  /-- All elements are equivalent in the comparison that is always false. -/
  found : ∀ s, match set.find s with
    | some node => node ∈ set.elements s
    | none => set.elements s = []
  before : ∀ nodes s front node back, set.elements s = front ++ node :: back → node ∉ front →
    set.before nodes s node = some front.getLast?
  behind : ∀ nodes s front node back, set.elements s = front ++ node :: back → node ∉ front →
    set.behind nodes s node = some back.head?

structure AVLTree (set : AvlSet) where
  nodes : Fields
  tree : set.State

section

variable {set : AvlSet}

def AVLTree.assign (s : AVLTree set) (node : Addr) (value : AVLNode) : AVLTree set :=
  { s with nodes := Function.update s.nodes node value }

def AVLTree.elements (s : AVLTree set) : List Addr := set.elements s.tree

def root (s : AVLTree set) : Option Addr := if s.elements.isEmpty then none else set.find s.tree

def init (s : AVLTree set) (node : Addr) : AVLTree set := s.assign node { s.nodes node with depth := 1, count := 1 }

def depth (s : AVLTree set) (node : Option Addr) : Nat :=
  match node with
  | some node => (s.nodes node).depth
  | none => 0

def count (s : AVLTree set) (node : Option Addr) : Nat :=
  match node with
  | some node => (s.nodes node).count
  | none => 0

def find_left (s : AVLTree set) (node : Option Addr) : Option (Option Addr) :=
  match node with
  | none => some none
  | some node => set.before s.nodes s.tree node

def find_right (s : AVLTree set) (node : Option Addr) : Option (Option Addr) :=
  match node with
  | none => some none
  | some node => set.behind s.nodes s.tree node

def update (s : AVLTree set) (node : Option Addr) : Option (AVLTree set) :=
  match node with
  | none => some s
  | some node => do
    let leftDepth := depth s (← find_left s node)
    let rightDepth := depth s (← find_right s node)
    let s := s.assign node { s.nodes node with depth := (1 + max leftDepth rightDepth) % 2 ^ 32 }
    -- the source takes the depths for the counts, and their maximum for the sum
    let leftCount := depth s (← find_left s node)
    let rightCount := depth s (← find_right s node)
    some (s.assign node { s.nodes node with count := (1 + max leftCount rightCount) % 2 ^ 32 })

/-- A node takes 40 bytes at least. -/
def MAX_NODES : Nat := 2 ^ 64 / 40

/-- A walk of more steps than there can be nodes comes to one again, and never ends. -/
def fix (fuel : Nat) (s : AVLTree set) (node : Option Addr) : Option (AVLTree set) :=
  match node with
  | none => some s
  | some node =>
    match fuel with
    | 0 => none
    | fuel + 1 => do
      let s ← update s node
      fix fuel s (s.nodes node).parent

def insert (s : AVLTree set) (node : Addr) : Option (AVLTree set) := do
  let (tree, inserted) := set.insert_unique s.nodes s.tree node
  let s := { s with tree := tree }
  if inserted then
    match ← set.before s.nodes s.tree node with
    | some parentNode => fix MAX_NODES (s.assign node { s.nodes node with parent := some parentNode }) (some node)
    | none => fix MAX_NODES s (some node)
  else fix MAX_NODES s (some node)

def erase (s : AVLTree set) (node : Addr) : Option (AVLTree set) :=
  if node ∈ s.elements then
    let s := { s with tree := set.erase s.tree node }
    fix MAX_NODES s (s.nodes node).parent
  else none

/-! ### Runs -/

inductive Call where
  /-- A new object, prepared by `init`. -/
  | insert (node : Addr)
  | erase (node : Addr)

def Call.run (s : AVLTree set) : Call → Option (AVLTree set)
  | .insert node => CxxAvl.insert (init (s.assign node {}) node) node
  | .erase node => CxxAvl.erase s node

def Call.Allowed (s : AVLTree set) (present : List Addr) : Call → Prop
  | .insert node => node ∉ present
  | .erase node => node ∈ s.elements

/-- The nodes inserted and not erased. -/
def Call.present (present : List Addr) : Call → List Addr
  | .insert node => node :: present
  | .erase node => present.erase node

/-- States of an initially empty tree under calls that meet `good`. -/
inductive Ran (good : AVLTree set → Call → Prop) : AVLTree set → List Addr → Prop where
  | empty (nodes : Fields) : Ran good ⟨nodes, set.empty⟩ []
  | call {s s' : AVLTree set} {present : List Addr} {call : Call} : Ran good s present → call.Allowed s present →
      good s call → call.run s = some s' → Ran good s' (call.present present)

end

end Coxx.CxxAvl
