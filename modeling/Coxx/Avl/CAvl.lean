import Coxx.Memory
import Mathlib.Logic.Function.Basic

/-! The intrusive AVL tree of avl/c/avl.c, over an explicit heap of nodes.

Cached depths and counts are 32-bit words. A computation is none when the C code
would dereference NULL. The loops take fuel; the proofs show how much they need.
-/

set_option autoImplicit false

namespace Coxx.Avl

structure AVLNode where
  depth : Nat
  count : Nat
  left : Option Addr
  right : Option Addr
  parent : Option Addr
  deriving DecidableEq, Repr

abbrev Heap := Addr → AVLNode

/-- `init` of avl.c: the fields of a node that is in no tree. -/
def init : AVLNode := { depth := 1, count := 1, left := none, right := none, parent := none }

namespace Heap

def setLeft (h : Heap) (node : Addr) (left : Option Addr) : Heap :=
  Function.update h node { h node with left := left }

def setRight (h : Heap) (node : Addr) (right : Option Addr) : Heap :=
  Function.update h node { h node with right := right }

def setParent (h : Heap) (node : Addr) (parent : Option Addr) : Heap :=
  Function.update h node { h node with parent := parent }

def setCaches (h : Heap) (node : Addr) (depth count : Nat) : Heap :=
  Function.update h node { h node with depth := depth, count := count }

/-- `if (child) child->parent = parent;` -/
def adopt (h : Heap) (child parent : Option Addr) : Heap :=
  match child with
  | some child => h.setParent child parent
  | none => h

end Heap

def depth (h : Heap) (node : Option Addr) : Nat :=
  match node with
  | some node => (h node).depth
  | none => 0

def count (h : Heap) (node : Option Addr) : Nat :=
  match node with
  | some node => (h node).count
  | none => 0

def update (h : Heap) (node : Addr) : Heap :=
  h.setCaches node ((1 + max (depth h (h node).left) (depth h (h node).right)) % 2 ^ 32)
    ((1 + count h (h node).left + count h (h node).right) % 2 ^ 32)

def rotateLeft (h : Heap) (node : Addr) : Option (Heap × Addr) := do
  let newNode ← (h node).right
  -- the inner subtree changes sides, then the two nodes change places
  let h := h.adopt (h newNode).left (some node)
  let h := h.setRight node (h newNode).left
  let h := h.setLeft newNode (some node)
  let h := h.setParent newNode (h node).parent
  let h := h.setParent node (some newNode)
  some (update (update h node) newNode, newNode)

def rotateRight (h : Heap) (node : Addr) : Option (Heap × Addr) := do
  let newNode ← (h node).left
  let h := h.adopt (h newNode).right (some node)
  let h := h.setLeft node (h newNode).right
  let h := h.setRight newNode (some node)
  let h := h.setParent newNode (h node).parent
  let h := h.setParent node (some newNode)
  some (update (update h node) newNode, newNode)

/-- Rule 2 of `fixLeft`, on the left child of the root. -/
def bendLeft (h : Heap) (root left : Addr) : Option Heap :=
  if depth h (h left).left < depth h (h left).right then
    (rotateLeft h left).map fun (h, newLeft) => h.setLeft root (some newLeft)
  else some h

def fixLeft (h : Heap) (root : Addr) : Option (Heap × Addr) := do
  let left ← (h root).left
  let h ← bendLeft h root left
  rotateRight h root

/-- Rule 2 of `fixRight`, on the right child of the root. -/
def bendRight (h : Heap) (root right : Addr) : Option Heap :=
  if depth h (h right).right < depth h (h right).left then
    (rotateRight h right).map fun (h, newRight) => h.setRight root (some newRight)
  else some h

def fixRight (h : Heap) (root : Addr) : Option (Heap × Addr) := do
  let right ← (h root).right
  let h ← bendRight h root right
  rotateLeft h root

/-- The test of `fixAVL` on the two depths, and the repair it selects. -/
def fixNode (h : Heap) (node : Addr) : Option (Heap × Addr) :=
  let l := depth h (h node).left
  let r := depth h (h node).right
  -- the sums are uint32_t, so they may wrap
  if l = (r + 2) % 2 ^ 32 then fixLeft h node
  else if (l + 2) % 2 ^ 32 = r then fixRight h node
  else some (h, node)

/-- Which child of its parent a node is, read before the node is rotated. -/
def fromOf (h : Heap) (node : Addr) : Option (Addr × Bool) :=
  (h node).parent.map fun p => (p, decide ((h p).left = some node))

def fixAVL (fuel : Nat) (h : Heap) (node : Addr) : Option (Heap × Addr) :=
  match fuel with
  | 0 => none
  | fuel + 1 => do
    let h := update h node
    -- the pointer that leads here is found before a rotation moves the node
    let from' := fromOf h node
    let (h, node) ← fixNode h node
    match from' with
    | none => some (h, node)
    | some (p, isLeft) =>
        let h := if isLeft then h.setLeft p (some node) else h.setRight p (some node)
        let parent ← (h node).parent
        fixAVL fuel h parent

/-- The in-order successor loop of `delAVL`: `while (victim->left) victim = victim->left;` -/
def leftmost (fuel : Nat) (h : Heap) (victim : Addr) : Option Addr :=
  match (h victim).left with
  | none => some victim
  | some left =>
    match fuel with
    | 0 => none
    | fuel + 1 => leftmost fuel h left

/-- Store `child` where `parent` points to `node`. -/
def Heap.replaceChild (h : Heap) (parent node : Addr) (child : Option Addr) : Heap :=
  if (h parent).left = some node then h.setLeft parent child else h.setRight parent child

/-- The end of `delAVL` for a node with two sides: `victim` takes over the fields of `node`. -/
def takeOver (h : Heap) (root : Option Addr) (victim node : Addr) : Heap × Option Addr :=
  -- *victim = *node, and every pointer to the node is redirected
  let h : Heap := Function.update h victim (h node)
  let h := h.adopt (h victim).left (some victim)
  let h := h.adopt (h victim).right (some victim)
  match (h node).parent with
  | some parent => (h.replaceChild parent node (some victim), root)
  | none => (h, some victim)

/-- `limit` bounds the two loops that walk the tree, `fuel` the recursion. -/
def delAVL (limit fuel : Nat) (h : Heap) (node : Addr) : Option (Heap × Option Addr) :=
  match fuel with
  | 0 => none
  | fuel + 1 =>
    match (h node).right with
    | none =>
        -- without a right side the left one takes the place of the node
        let parent := (h node).parent
        let h := h.adopt (h node).left parent
        match parent with
        | some parent =>
            (fixAVL limit (h.replaceChild parent node (h node).left) parent).map fun (h, root) => (h, some root)
        | none => some (h, (h node).left)
    | some right => do
        -- the successor leaves its place first, then takes over that of the node
        let victim ← leftmost limit h right
        let (h, root) ← delAVL limit fuel h victim
        some (takeOver h root victim node)

/-- A 64-bit signed sum; overflow is undefined. -/
def int64 (value : Int) : Option Int :=
  if -2 ^ 63 ≤ value ∧ value < 2 ^ 63 then some value else none

/-- `pos < offset && pos + count(node->right) >= offset` -/
def targetRight (h : Heap) (node : Addr) (offset pos : Int) : Option Bool :=
  if pos < offset then (int64 (pos + count h (h node).right)).map fun reach => decide (reach ≥ offset)
  else some false

/-- `pos > offset && pos - count(node->left) <= offset` -/
def targetLeft (h : Heap) (node : Addr) (offset pos : Int) : Option Bool :=
  if pos > offset then (int64 (pos - count h (h node).left)).map fun reach => decide (reach ≤ offset)
  else some false

/-- `pos` is the position of `node` relative to the starting node, where it is zero. -/
def offsetAVL (fuel : Nat) (h : Heap) (node : Addr) (offset pos : Int) : Option (Option Addr) :=
  if offset = pos then some (some node)
  else
    match fuel with
    | 0 => none
    | fuel + 1 => do
      -- the target is inside the right subtree, inside the left one, or outside of both
      if ← targetRight h node offset pos then
        let right ← (h node).right
        let pos ← int64 (pos + ((count h (h right).left + 1) % 2 ^ 32 : Nat))
        offsetAVL fuel h right offset pos
      else if ← targetLeft h node offset pos then
        let left ← (h node).left
        let pos ← int64 (pos - ((count h (h left).right + 1) % 2 ^ 32 : Nat))
        offsetAVL fuel h left offset pos
      else
        match (h node).parent with
        | none => some none
        | some parent =>
            if (h parent).right = some node then
              let pos ← int64 (pos - ((count h (h node).left + 1) % 2 ^ 32 : Nat))
              offsetAVL fuel h parent offset pos
            else
              let pos ← int64 (pos + ((count h (h node).right + 1) % 2 ^ 32 : Nat))
              offsetAVL fuel h parent offset pos

end Coxx.Avl
