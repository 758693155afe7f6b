import Mathlib.Data.List.Nodup
import Mathlib.Data.Nat.Fib.Zeckendorf
import Mathlib.Data.Tree.Basic
import Mathlib.Tactic.Ring.RingNF

/-! Height-balanced binary trees, seen from a path to one of their subtrees.

A path lists the frames from a subtree up to the root, the deepest first. Climbing
a path rebalances at every frame, which is what restores the balance after a
subtree has changed its height by one.
-/

set_option autoImplicit false

namespace Coxx.Library

open BinaryTree

variable {α : Type}

def inorder : BinaryTree α → List α
  | .nil => []
  | .node value left right => inorder left ++ value :: inorder right

@[simp] theorem inorder_nil : inorder (.nil : BinaryTree α) = [] := rfl

@[simp] theorem inorder_node (value : α) (left right : BinaryTree α) :
    inorder (.node value left right) = inorder left ++ value :: inorder right := rfl

@[simp] theorem length_inorder (tree : BinaryTree α) : (inorder tree).length = tree.numNodes := by
  induction tree with
  | nil => rfl
  | node value left right ihLeft ihRight => simp [ihLeft, ihRight, Nat.add_assoc]

inductive Side where
  | left
  | right
  deriving DecidableEq, Repr

/-- One step of a path: the subtree hangs on `side` of `value`, next to `sibling`. -/
structure Frame (α : Type) where
  side : Side
  value : α
  sibling : BinaryTree α

def Frame.attach (frame : Frame α) (tree : BinaryTree α) : BinaryTree α :=
  match frame.side with
  | .left => .node frame.value tree frame.sibling
  | .right => .node frame.value frame.sibling tree

def plug : List (Frame α) → BinaryTree α → BinaryTree α
  | [], tree => tree
  | frame :: path, tree => plug path (frame.attach tree)

/-- The values of a path that come before its subtree in order. -/
def before : List (Frame α) → List α
  | [] => []
  | frame :: path =>
    match frame.side with
    | .left => before path
    | .right => before path ++ (inorder frame.sibling ++ [frame.value])

def after : List (Frame α) → List α
  | [] => []
  | frame :: path =>
    match frame.side with
    | .left => frame.value :: inorder frame.sibling ++ after path
    | .right => after path

theorem inorder_plug (path : List (Frame α)) (tree : BinaryTree α) :
    inorder (plug path tree) = before path ++ (inorder tree ++ after path) := by
  induction path generalizing tree with
  | nil => simp [plug, before, after]
  | cons frame path ih =>
      obtain ⟨side, value, sibling⟩ := frame
      cases side <;> simp [plug, before, after, Frame.attach, ih]

theorem plug_append (inner outer : List (Frame α)) (tree : BinaryTree α) :
    plug (inner ++ outer) tree = plug outer (plug inner tree) := by
  induction inner generalizing tree with
  | nil => rfl
  | cons frame inner ih => exact ih (frame.attach tree)

theorem exists_plug {tree : BinaryTree α} {value : α} (member : value ∈ inorder tree) :
    ∃ path left right, tree = plug path (.node value left right) := by
  induction tree with
  | nil => simp at member
  | node root left right ihLeft ihRight =>
      simp only [inorder_node, List.mem_append, List.mem_cons] at member
      rcases member with inside | rfl | inside
      · obtain ⟨path, l, r, rfl⟩ := ihLeft inside
        exact ⟨path ++ [⟨.left, root, right⟩], l, r, by rw [plug_append]; rfl⟩
      · exact ⟨[], left, right, rfl⟩
      · obtain ⟨path, l, r, rfl⟩ := ihRight inside
        exact ⟨path ++ [⟨.right, root, left⟩], l, r, by rw [plug_append]; rfl⟩

theorem inorder_plug_congr (path : List (Frame α)) {left right : BinaryTree α}
    (same : inorder left = inorder right) : inorder (plug path left) = inorder (plug path right) := by
  rw [inorder_plug, inorder_plug, same]

/-! ### Rotations -/

def rotL : BinaryTree α → BinaryTree α
  | .node a l (.node b m r) => .node b (.node a l m) r
  | tree => tree

def rotR : BinaryTree α → BinaryTree α
  | .node a (.node b l m) r => .node b l (.node a m r)
  | tree => tree

def repairLeft : BinaryTree α → BinaryTree α
  | .node a (.node b l m) r =>
    if l.height < m.height then rotR (.node a (rotL (.node b l m)) r) else rotR (.node a (.node b l m) r)
  | tree => tree

def repairRight : BinaryTree α → BinaryTree α
  | .node a l (.node b m r) =>
    if r.height < m.height then rotL (.node a l (rotR (.node b m r))) else rotL (.node a l (.node b m r))
  | tree => tree

def rebalance : BinaryTree α → BinaryTree α
  | .nil => .nil
  | .node a l r =>
    if l.height = r.height + 2 then repairLeft (.node a l r)
    else if l.height + 2 = r.height then repairRight (.node a l r)
    else .node a l r

/-- Rebalance a subtree and every tree on the way up to the root. -/
def climb : List (Frame α) → BinaryTree α → BinaryTree α
  | [], tree => rebalance tree
  | frame :: path, tree => climb path (frame.attach (rebalance tree))

@[simp] theorem inorder_rotL (tree : BinaryTree α) : inorder (rotL tree) = inorder tree := by
  unfold rotL
  split <;> simp

@[simp] theorem inorder_rotR (tree : BinaryTree α) : inorder (rotR tree) = inorder tree := by
  unfold rotR
  split <;> simp

@[simp] theorem inorder_repairLeft (tree : BinaryTree α) : inorder (repairLeft tree) = inorder tree := by
  unfold repairLeft
  split
  · split <;> simp
  · rfl

@[simp] theorem inorder_repairRight (tree : BinaryTree α) : inorder (repairRight tree) = inorder tree := by
  unfold repairRight
  split
  · split <;> simp
  · rfl

@[simp] theorem inorder_rebalance (tree : BinaryTree α) : inorder (rebalance tree) = inorder tree := by
  cases tree with
  | nil => rfl
  | node a l r =>
      simp only [rebalance]
      split
      · simp
      · split <;> simp

theorem inorder_climb (path : List (Frame α)) (tree : BinaryTree α) :
    inorder (climb path tree) = inorder (plug path tree) := by
  induction path generalizing tree with
  | nil => simp [climb, plug]
  | cons frame path ih =>
      rw [climb, ih, plug]
      apply inorder_plug_congr
      unfold Frame.attach
      split <;> simp

/-! ### Balance -/

def Near (gap : Nat) (left right : BinaryTree α) : Prop :=
  left.height ≤ right.height + gap ∧ right.height ≤ left.height + gap

def Balanced : BinaryTree α → Prop
  | .nil => True
  | .node _ left right => Near 1 left right ∧ Balanced left ∧ Balanced right

@[simp] theorem balanced_nil : Balanced (.nil : BinaryTree α) := trivial

@[simp] theorem balanced_node (value : α) (left right : BinaryTree α) :
    Balanced (.node value left right) ↔ Near 1 left right ∧ Balanced left ∧ Balanced right := Iff.rfl

theorem Balanced.two_pow_le {tree : BinaryTree α} (balanced : Balanced tree) :
    2 ^ (tree.height / 2) ≤ tree.numNodes + 1 := by
  induction tree with
  | nil => simp
  | node value left right ihLeft ihRight =>
      obtain ⟨⟨leftNear, rightNear⟩, balancedLeft, balancedRight⟩ := balanced
      have boundLeft := ihLeft balancedLeft
      have boundRight := ihRight balancedRight
      simp only [height, numNodes]
      have low : ∀ h, (max left.height right.height + 1) / 2 ≤ h / 2 + 1 →
          2 ^ ((max left.height right.height + 1) / 2) ≤ 2 * 2 ^ (h / 2) := by
        intro h short
        calc 2 ^ ((max left.height right.height + 1) / 2) ≤ 2 ^ (h / 2 + 1) :=
              Nat.pow_le_pow_right (by decide) short
          _ = 2 * 2 ^ (h / 2) := by rw [Nat.pow_succ, Nat.mul_comm]
      have viaLeft := low left.height (by omega)
      have viaRight := low right.height (by omega)
      omega

theorem Balanced.fib_le {tree : BinaryTree α} (balanced : Balanced tree) :
    Nat.fib (tree.height + 2) ≤ tree.numNodes + 1 := by
  induction tree with
  | nil => simp
  | node value left right ihLeft ihRight =>
      obtain ⟨⟨leftNear, rightNear⟩, balancedLeft, balancedRight⟩ := balanced
      have boundLeft := ihLeft balancedLeft
      have boundRight := ihRight balancedRight
      have split : ∀ h, Nat.fib (h + 1 + 2) = Nat.fib (h + 1) + Nat.fib (h + 2) := fun h => Nat.fib_add_two
      simp only [height, numNodes, split]
      -- the deeper subtree has the full height, the other one lacks a level at most
      rcases le_total right.height left.height with deep | deep
      · have lower : Nat.fib (left.height + 1) ≤ Nat.fib (right.height + 2) := Nat.fib_mono (by omega)
        rw [max_eq_left deep]
        omega
      · have lower : Nat.fib (right.height + 1) ≤ Nat.fib (left.height + 2) := Nat.fib_mono (by omega)
        rw [max_eq_right deep]
        omega

/-- The height of the deepest balanced trees with so many nodes. -/
def depthLimit (nodes : Nat) : Nat := Nat.greatestFib (nodes + 1) - 2

theorem Balanced.height_le {tree : BinaryTree α} (balanced : Balanced tree) : tree.height ≤ depthLimit tree.numNodes := by
  have deep := Nat.le_greatestFib.mpr balanced.fib_le
  unfold depthLimit
  omega

theorem depthLimit_mono : Monotone depthLimit := by
  intro few many le
  have grown := Nat.greatestFib_mono (Nat.add_le_add_right le 1)
  unfold depthLimit
  omega

theorem two_pow_le_fib (h : Nat) : 2 ^ (h / 2) ≤ Nat.fib (h + 2) := by
  induction h using Nat.twoStepInduction with
  | zero => decide
  | one => decide
  | more h ih _ =>
      have grows : Nat.fib (h + 2) ≤ Nat.fib (h + 3) := Nat.fib_mono (by omega)
      have split : Nat.fib (h + 2 + 2) = Nat.fib (h + 2) + Nat.fib (h + 3) := Nat.fib_add_two
      rw [split, show (h + 2) / 2 = h / 2 + 1 by omega, Nat.pow_succ]
      omega

theorem two_pow_depthLimit_le (nodes : Nat) : 2 ^ (depthLimit nodes / 2) ≤ nodes + 1 := by
  have two : 2 ≤ Nat.greatestFib (nodes + 1) := Nat.le_greatestFib.mpr (Nat.le_add_left 1 nodes)
  have bound := two_pow_le_fib (depthLimit nodes)
  rw [depthLimit, Nat.sub_add_cancel two] at bound
  exact bound.trans (Nat.fib_greatestFib_le _)

theorem Balanced.height_lt {tree : BinaryTree α} (balanced : Balanced tree) {k : Nat}
    (fits : tree.numNodes + 1 < 2 ^ k) : tree.height < 2 * k := by
  by_contra deep
  have high : k ≤ tree.height / 2 := by omega
  have grown := Nat.pow_le_pow_right (n := 2) (by decide) high
  have bound := balanced.two_pow_le
  omega

theorem repairLeft_balanced {a : α} {l r : BinaryTree α} (leftBalanced : Balanced l) (rightBalanced : Balanced r)
    (deep : l.height = r.height + 2) :
    Balanced (repairLeft (.node a l r)) ∧
      l.height ≤ (repairLeft (.node a l r)).height ∧ (repairLeft (.node a l r)).height ≤ l.height + 1 := by
  cases l with
  | nil => simp at deep
  | node b ll lr =>
      simp only [balanced_node, Near, height] at leftBalanced deep
      obtain ⟨⟨nearL, nearR⟩, balancedLL, balancedLR⟩ := leftBalanced
      simp only [repairLeft]
      split
      · -- rule 2: the inner grandchild is the deeper one
        cases lr with
        | nil => simp at *
        | node c lm rm =>
            simp only [balanced_node, Near, height] at balancedLR nearL nearR deep
            rename_i inner
            simp only [height] at inner
            simp only [rotL, rotR, balanced_node, Near, height]
            refine ⟨⟨?_, ⟨?_, balancedLL, balancedLR.2.1⟩, ⟨?_, balancedLR.2.2, rightBalanced⟩⟩, ?_, ?_⟩ <;> omega
      · rename_i outer
        simp only [rotR, balanced_node, Near, height]
        refine ⟨⟨?_, balancedLL, ⟨?_, balancedLR, rightBalanced⟩⟩, ?_, ?_⟩ <;> omega

theorem repairRight_balanced {a : α} {l r : BinaryTree α} (leftBalanced : Balanced l) (rightBalanced : Balanced r)
    (deep : l.height + 2 = r.height) :
    Balanced (repairRight (.node a l r)) ∧
      r.height ≤ (repairRight (.node a l r)).height ∧ (repairRight (.node a l r)).height ≤ r.height + 1 := by
  cases r with
  | nil => simp at deep
  | node b rl rr =>
      simp only [balanced_node, Near, height] at rightBalanced deep
      obtain ⟨⟨nearL, nearR⟩, balancedRL, balancedRR⟩ := rightBalanced
      simp only [repairRight]
      split
      · cases rl with
        | nil => simp at *
        | node c lm rm =>
            simp only [balanced_node, Near, height] at balancedRL nearL nearR deep
            rename_i inner
            simp only [height] at inner
            simp only [rotL, rotR, balanced_node, Near, height]
            refine ⟨⟨?_, ⟨?_, leftBalanced, balancedRL.2.1⟩, ⟨?_, balancedRL.2.2, balancedRR⟩⟩, ?_, ?_⟩ <;> omega
      · rename_i outer
        simp only [rotL, balanced_node, Near, height]
        refine ⟨⟨?_, ⟨?_, leftBalanced, balancedRL⟩, balancedRR⟩, ?_, ?_⟩ <;> omega

/-- Rebalancing repairs a difference of two; the height stays that of the deeper subtree or grows by one. -/
theorem rebalance_balanced {a : α} {l r : BinaryTree α} (leftBalanced : Balanced l) (rightBalanced : Balanced r)
    (near : Near 2 l r) :
    Balanced (rebalance (.node a l r)) ∧
      max l.height r.height ≤ (rebalance (.node a l r)).height ∧
      (rebalance (.node a l r)).height ≤ max l.height r.height + 1 ∧
      (Near 1 l r → rebalance (.node a l r) = .node a l r) := by
  obtain ⟨nearL, nearR⟩ := near
  simp only [rebalance]
  split
  · rename_i deep
    obtain ⟨balanced, low, high⟩ := repairLeft_balanced (a := a) leftBalanced rightBalanced deep
    exact ⟨balanced, by omega, by omega, fun close => by have := close.1; omega⟩
  · split
    · rename_i deep
      obtain ⟨balanced, low, high⟩ := repairRight_balanced (a := a) leftBalanced rightBalanced deep
      exact ⟨balanced, by omega, by omega, fun close => by have := close.2; omega⟩
    · refine ⟨⟨⟨by omega, by omega⟩, leftBalanced, rightBalanced⟩, ?_, ?_, fun _ => rfl⟩ <;>
        simp only [height] <;> omega

theorem height_rebalance_le (tree : BinaryTree α) : (rebalance tree).height ≤ tree.height := by
  cases tree with
  | nil => exact le_refl _
  | node a l r =>
      simp only [rebalance]
      split
      · rename_i deep
        cases l with
        | nil => simp at deep
        | node b ll lr =>
            simp only [repairLeft, height] at deep ⊢
            split
            · cases lr <;> simp only [rotL, rotR, height] at * <;> omega
            · simp only [rotR, height]; omega
      · split
        · rename_i deep
          cases r with
          | nil => simp at deep
          | node b rl rr =>
              simp only [repairRight, height] at deep ⊢
              split
              · cases rl <;> simp only [rotL, rotR, height] at * <;> omega
              · simp only [rotL, height]; omega
        · exact le_refl _

/-- The tree around a path is balanced when its subtree is balanced with the given height. -/
def PathBalanced : List (Frame α) → Nat → Prop
  | [], _ => True
  | frame :: path, hole =>
    Balanced frame.sibling ∧ hole ≤ frame.sibling.height + 1 ∧ frame.sibling.height ≤ hole + 1 ∧
      PathBalanced path (max hole frame.sibling.height + 1)

theorem attach_cases (frame : Frame α) (tree : BinaryTree α) :
    ∃ l r, frame.attach tree = .node frame.value l r ∧
      ((l = tree ∧ r = frame.sibling) ∨ (l = frame.sibling ∧ r = tree)) := by
  unfold Frame.attach
  split
  · exact ⟨_, _, rfl, Or.inl ⟨rfl, rfl⟩⟩
  · exact ⟨_, _, rfl, Or.inr ⟨rfl, rfl⟩⟩

theorem height_attach (frame : Frame α) (tree : BinaryTree α) :
    (frame.attach tree).height = max tree.height frame.sibling.height + 1 := by
  obtain ⟨l, r, same, ⟨rfl, rfl⟩ | ⟨rfl, rfl⟩⟩ := attach_cases frame tree
  · simp [same]
  · simp [same, Nat.max_comm]

theorem height_plug_mono (path : List (Frame α)) {low high : BinaryTree α} (le : low.height ≤ high.height) :
    (plug path low).height ≤ (plug path high).height := by
  induction path generalizing low high with
  | nil => exact le
  | cons frame path ih =>
      apply ih
      rw [height_attach, height_attach]
      omega

theorem height_plug_succ (path : List (Frame α)) {low high : BinaryTree α} (le : high.height ≤ low.height + 1) :
    (plug path high).height ≤ (plug path low).height + 1 := by
  induction path generalizing low high with
  | nil => exact le
  | cons frame path ih =>
      apply ih
      rw [height_attach, height_attach]
      omega

theorem height_le_plug (path : List (Frame α)) (tree : BinaryTree α) :
    tree.height + path.length ≤ (plug path tree).height := by
  induction path generalizing tree with
  | nil => exact le_refl _
  | cons frame path ih =>
      have below := ih (frame.attach tree)
      rw [height_attach] at below
      simp only [plug, List.length_cons]
      omega

theorem balanced_plug {path : List (Frame α)} {tree : BinaryTree α} :
    Balanced (plug path tree) ↔ Balanced tree ∧ PathBalanced path tree.height := by
  induction path generalizing tree with
  | nil => simp [plug, PathBalanced]
  | cons frame path ih =>
      rw [plug, ih, height_attach]
      obtain ⟨l, r, same, ⟨rfl, rfl⟩ | ⟨rfl, rfl⟩⟩ := attach_cases frame tree
      · simp only [same, balanced_node, Near, PathBalanced]; tauto
      · simp only [same, balanced_node, Near, PathBalanced]; tauto

theorem attach_near {frame : Frame α} {tree : BinaryTree α} (balanced : Balanced tree)
    (sibling : Balanced frame.sibling) (low : tree.height ≤ frame.sibling.height + 2)
    (high : frame.sibling.height ≤ tree.height + 2) :
    ∃ l r, frame.attach tree = .node frame.value l r ∧ Balanced l ∧ Balanced r ∧ Near 2 l r ∧
      max l.height r.height = max tree.height frame.sibling.height ∧
      (Near 1 l r ∨ tree.height = frame.sibling.height + 2 ∨ frame.sibling.height = tree.height + 2) := by
  obtain ⟨l, r, same, ⟨rfl, rfl⟩ | ⟨rfl, rfl⟩⟩ := attach_cases frame tree
  · refine ⟨l, _, same, balanced, sibling, ⟨low, high⟩, rfl, ?_⟩
    unfold Near
    omega
  · refine ⟨_, r, same, sibling, balanced, ⟨high, low⟩, Nat.max_comm _ _, ?_⟩
    unfold Near
    omega

/-- A subtree whose height is off by at most one can be repaired by climbing to the root. -/
theorem climb_balanced {path : List (Frame α)} {a : α} {l r : BinaryTree α} {hole : Nat}
    (leftBalanced : Balanced l) (rightBalanced : Balanced r) (near : Near 2 l r) (around : PathBalanced path hole)
    (low : hole ≤ (rebalance (.node a l r)).height + 1) (high : (rebalance (.node a l r)).height ≤ hole + 1) :
    Balanced (climb path (.node a l r)) := by
  induction path generalizing a l r hole with
  | nil => exact (rebalance_balanced leftBalanced rightBalanced near).1
  | cons frame path ih =>
      obtain ⟨balanced, _, _, _⟩ := rebalance_balanced (a := a) leftBalanced rightBalanced near
      obtain ⟨siblingBalanced, holeNear, siblingNear, rest⟩ := around
      rw [climb]
      generalize rebalance (.node a l r) = tree at balanced low high
      obtain ⟨l', r', same, balancedL, balancedR, near', heights, close | apart⟩ :=
        attach_near balanced siblingBalanced (by omega) (by omega)
      · -- nothing to repair here: the height follows that of the subtree
        obtain ⟨_, _, _, steady⟩ := rebalance_balanced (a := frame.value) balancedL balancedR near'
        have value : (rebalance (.node frame.value l' r')).height = max tree.height frame.sibling.height + 1 := by
          rw [steady close, height, heights]
        rw [same]
        exact ih balancedL balancedR near' rest (by omega) (by omega)
      · -- the deeper side decides, and it is one level off at most
        obtain ⟨_, lower, upper, _⟩ := rebalance_balanced (a := frame.value) balancedL balancedR near'
        rw [same]
        exact ih balancedL balancedR near' rest (by omega) (by omega)

theorem climb_shrunk {frame : Frame α} {path : List (Frame α)} {old new : BinaryTree α}
    (balanced : Balanced (plug (frame :: path) old)) (newBalanced : Balanced new) (low : new.height ≤ old.height)
    (high : old.height ≤ new.height + 1) : Balanced (climb path (frame.attach new)) := by
  obtain ⟨_, siblingBalanced, holeNear, siblingNear, rest⟩ := balanced_plug.mp balanced
  obtain ⟨l, r, same, balancedL, balancedR, near, heights, close | apart⟩ :=
    attach_near newBalanced siblingBalanced (by omega) (by omega)
  · obtain ⟨_, _, _, steady⟩ := rebalance_balanced (a := frame.value) balancedL balancedR near
    have value : (rebalance (.node frame.value l r)).height = max new.height frame.sibling.height + 1 := by
      rw [steady close, height, heights]
    rw [same]
    exact climb_balanced balancedL balancedR near rest (by omega) (by omega)
  · obtain ⟨_, lower, upper, _⟩ := rebalance_balanced (a := frame.value) balancedL balancedR near
    rw [same]
    exact climb_balanced balancedL balancedR near rest (by omega) (by omega)

theorem climb_leaf {path : List (Frame α)} (value : α) (balanced : Balanced (plug path .nil)) :
    Balanced (climb path (.node value .nil .nil)) := by
  have around := (balanced_plug.mp balanced).2
  exact climb_balanced trivial trivial ⟨by simp, by simp⟩ around (by simp [rebalance]) (by simp [rebalance])

end Coxx.Library
