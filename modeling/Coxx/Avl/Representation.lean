import Coxx.Avl.CAvl
import Coxx.Library.Tree

/-! Trees on the heap: which nodes, links and cached fields represent a binary tree,
and which represent the path from a subtree to the root. -/

set_option autoImplicit false

namespace Coxx.Avl

open Library BinaryTree

/-! ### Reading a heap after a write -/

namespace Heap

variable (h : Heap) (node other : Addr) (value parent : Option Addr)

@[simp] theorem setLeft_left : (h.setLeft node value other).left = if other = node then value else (h other).left := by
  by_cases same : other = node
  · subst same; simp [setLeft]
  · simp [setLeft, same]

@[simp] theorem setRight_right :
    (h.setRight node value other).right = if other = node then value else (h other).right := by
  by_cases same : other = node
  · subst same; simp [setRight]
  · simp [setRight, same]

@[simp] theorem setParent_parent :
    (h.setParent node value other).parent = if other = node then value else (h other).parent := by
  by_cases same : other = node
  · subst same; simp [setParent]
  · simp [setParent, same]

@[simp] theorem setLeft_right : (h.setLeft node value other).right = (h other).right := by
  by_cases same : other = node
  · subst same; simp [setLeft]
  · simp [setLeft, same]

@[simp] theorem setLeft_parent : (h.setLeft node value other).parent = (h other).parent := by
  by_cases same : other = node
  · subst same; simp [setLeft]
  · simp [setLeft, same]

@[simp] theorem setRight_left : (h.setRight node value other).left = (h other).left := by
  by_cases same : other = node
  · subst same; simp [setRight]
  · simp [setRight, same]

@[simp] theorem setRight_parent : (h.setRight node value other).parent = (h other).parent := by
  by_cases same : other = node
  · subst same; simp [setRight]
  · simp [setRight, same]

@[simp] theorem setParent_left : (h.setParent node value other).left = (h other).left := by
  by_cases same : other = node
  · subst same; simp [setParent]
  · simp [setParent, same]

@[simp] theorem setParent_right : (h.setParent node value other).right = (h other).right := by
  by_cases same : other = node
  · subst same; simp [setParent]
  · simp [setParent, same]

@[simp] theorem adopt_left : (h.adopt value parent other).left = (h other).left := by
  cases value <;> simp [adopt]

@[simp] theorem adopt_right : (h.adopt value parent other).right = (h other).right := by
  cases value <;> simp [adopt]

variable {h node other value}

theorem setLeft_of_ne (away : other ≠ node) : h.setLeft node value other = h other := by
  simp [setLeft, away]

theorem setRight_of_ne (away : other ≠ node) : h.setRight node value other = h other := by
  simp [setRight, away]

theorem setParent_of_ne (away : other ≠ node) : h.setParent node value other = h other := by
  simp [setParent, away]

theorem setCaches_of_ne {depth count : Nat} (away : other ≠ node) : h.setCaches node depth count other = h other := by
  simp [setCaches, away]

theorem update_of_ne (away : other ≠ node) : Avl.update h node other = h other :=
  setCaches_of_ne away

theorem adopt_of_ne {child parent : Option Addr} (away : child ≠ some other) : h.adopt child parent other = h other := by
  cases child with
  | none => rfl
  | some child => exact setParent_of_ne fun same => away (congrArg some same.symm)

end Heap

/-! ### Trees -/

/-- The pointer `root`, whose node has the given parent, represents a tree with exact caches. -/
def Rep (h : Heap) : Option Addr → Option Addr → BinaryTree Addr → Prop
  | _, root, .nil => root = none
  | parent, root, .node a left right =>
    root = some a ∧ (h a).parent = parent ∧
      (h a).depth = (BinaryTree.node a left right).height ∧
      (h a).count = (BinaryTree.node a left right).numNodes % 2 ^ 32 ∧
      Rep h (some a) (h a).left left ∧ Rep h (some a) (h a).right right

/-- A node with represented subtrees whose own caches may be stale. -/
structure Open (h : Heap) (parent : Option Addr) (a : Addr) (left right : BinaryTree Addr) : Prop where
  parent : (h a).parent = parent
  left : Rep h (some a) (h a).left left
  right : Rep h (some a) (h a).right right

section Rep

variable {h other : Heap} {parent root : Option Addr} {tree : BinaryTree Addr}

@[simp] theorem rep_nil : Rep h parent root .nil ↔ root = none := Iff.rfl

theorem rep_node {a : Addr} {left right : BinaryTree Addr} :
    Rep h parent root (.node a left right) ↔
      root = some a ∧ (h a).depth = (BinaryTree.node a left right).height ∧
        (h a).count = (BinaryTree.node a left right).numNodes % 2 ^ 32 ∧ Open h parent a left right := by
  constructor
  · rintro ⟨same, up, depth, count, l, r⟩
    exact ⟨same, depth, count, up, l, r⟩
  · rintro ⟨same, depth, count, up, l, r⟩
    exact ⟨same, up, depth, count, l, r⟩

theorem Rep.congr (rep : Rep h parent root tree) (same : ∀ x ∈ inorder tree, other x = h x) :
    Rep other parent root tree := by
  induction tree generalizing parent root with
  | nil => exact rep
  | node a left right ihLeft ihRight =>
      have here := same a (by simp)
      obtain ⟨start, up, depth, count, l, r⟩ := rep
      refine ⟨start, by rw [here]; exact up, by rw [here]; exact depth, by rw [here]; exact count, ?_, ?_⟩
      · rw [here]; exact ihLeft l fun x member => same x (by simp [member])
      · rw [here]; exact ihRight r fun x member => same x (by simp [member])

theorem Rep.depth_eq (rep : Rep h parent root tree) : depth h root = tree.height := by
  cases tree with
  | nil => cases rep; rfl
  | node a left right =>
      obtain ⟨rfl, _, cached, _⟩ := rep
      exact cached

theorem Rep.count_eq (rep : Rep h parent root tree) : count h root = tree.numNodes % 2 ^ 32 := by
  cases tree with
  | nil => cases rep; rfl
  | node a left right =>
      obtain ⟨rfl, _, _, cached, _⟩ := rep
      exact cached

theorem Rep.root_none (rep : Rep h parent root tree) : root = none ↔ tree = .nil := by
  cases tree with
  | nil => exact ⟨fun _ => rfl, fun _ => rep⟩
  | node a left right => simp [rep.1]

theorem Rep.root_mem (rep : Rep h parent root tree) {a : Addr} (same : root = some a) : a ∈ inorder tree := by
  cases tree with
  | nil => cases rep; cases same
  | node b left right =>
      obtain ⟨start, _⟩ := rep
      rw [start] at same
      cases same
      simp

theorem Rep.parent_eq {a : Addr} (rep : Rep h parent (some a) tree) : (h a).parent = parent := by
  cases tree with
  | nil => cases rep
  | node b left right =>
      obtain ⟨start, up, _⟩ := rep
      cases start
      exact up

theorem Rep.links (rep : Rep h parent root tree) {x y : Addr} (member : x ∈ inorder tree) :
    ((h x).left = some y → y ∈ inorder tree) ∧ ((h x).right = some y → y ∈ inorder tree) ∧
      ((h x).parent = some y → parent = some y ∨ y ∈ inorder tree) := by
  induction tree generalizing parent root with
  | nil => simp at member
  | node a left right ihLeft ihRight =>
      obtain ⟨_, up, _, _, l, r⟩ := rep
      rw [inorder_node, List.mem_append, List.mem_cons] at member ⊢
      rcases member with inside | rfl | inside
      · obtain ⟨toLeft, toRight, toParent⟩ := ihLeft l inside
        exact ⟨fun same => .inl (toLeft same), fun same => .inl (toRight same), fun same => .inr (by
          rcases toParent same with above | below
          · exact .inr (.inl (Option.some.inj above).symm)
          · exact .inl below)⟩
      · exact ⟨fun same => .inl (l.root_mem same), fun same => .inr (.inr (r.root_mem same)),
          fun same => .inl (up.symm.trans same)⟩
      · obtain ⟨toLeft, toRight, toParent⟩ := ihRight r inside
        exact ⟨fun same => .inr (.inr (toLeft same)), fun same => .inr (.inr (toRight same)), fun same => .inr (by
          rcases toParent same with above | below
          · exact .inr (.inl (Option.some.inj above).symm)
          · exact .inr (.inr below))⟩

theorem Rep.adopt (rep : Rep h parent root tree) (distinct : (inorder tree).Nodup) (parent' : Option Addr) :
    Rep (h.adopt root parent') parent' root tree := by
  cases tree with
  | nil => cases rep; rfl
  | node a left right =>
      obtain ⟨rfl, up, depth, count, l, r⟩ := rep
      have outsideL : a ∉ inorder left := fun member => by
        simp [List.nodup_append', member] at distinct
      have outsideR : a ∉ inorder right := fun member => by
        simp [List.nodup_append', member] at distinct
      have frame : ∀ x, x ≠ a → h.adopt (some a) parent' x = h x := fun x away => Heap.setParent_of_ne away
      refine ⟨rfl, by simp [Heap.adopt], by simpa [Heap.adopt, Heap.setParent] using depth,
        by simpa [Heap.adopt, Heap.setParent] using count, ?_, ?_⟩
      · simp only [Heap.adopt, Heap.setParent_left]
        exact l.congr fun x member => frame x fun same => outsideL (same ▸ member)
      · simp only [Heap.adopt, Heap.setParent_right]
        exact r.congr fun x member => frame x fun same => outsideR (same ▸ member)

theorem Open.update {a : Addr} {left right : BinaryTree Addr} (spot : Open h parent a left right)
    (distinct : (inorder (.node a left right)).Nodup) (shallow : (BinaryTree.node a left right).height < 2 ^ 32) :
    Rep (Avl.update h a) parent (some a) (.node a left right) := by
  have outsideL : a ∉ inorder left := fun member => by simp [List.nodup_append', member] at distinct
  have outsideR : a ∉ inorder right := fun member => by simp [List.nodup_append', member] at distinct
  have left' : (Avl.update h a a).left = (h a).left := by simp [Avl.update, Heap.setCaches]
  have right' : (Avl.update h a a).right = (h a).right := by simp [Avl.update, Heap.setCaches]
  refine ⟨rfl, ?_, ?_, ?_, ?_, ?_⟩
  · simpa [Avl.update, Heap.setCaches] using spot.parent
  · simp only [Avl.update, Heap.setCaches, Function.update_self, spot.left.depth_eq, spot.right.depth_eq, height] at *
    omega
  · simp only [Avl.update, Heap.setCaches, Function.update_self, spot.left.count_eq, spot.right.count_eq, numNodes]
    omega
  · rw [left']
    exact spot.left.congr fun x member => Heap.update_of_ne fun same => outsideL (same ▸ member)
  · rw [right']
    exact spot.right.congr fun x member => Heap.update_of_ne fun same => outsideR (same ▸ member)

end Rep

/-! ### Paths -/

def pathTop (path : List (Frame Addr)) : Option Addr := path.head?.map (·.value)

/-- The frame's node has `hole` on the frame's side and the sibling on the other. -/
def FrameRep (h : Heap) (hole : Option Addr) (frame : Frame Addr) : Prop :=
  match frame.side with
  | .left => (h frame.value).left = hole ∧ Rep h (some frame.value) (h frame.value).right frame.sibling
  | .right => (h frame.value).right = hole ∧ Rep h (some frame.value) (h frame.value).left frame.sibling

/-- The ancestors of a subtree with root pointer `hole`; their caches may be stale. -/
def PathRep (h : Heap) : Option Addr → List (Frame Addr) → Prop
  | _, [] => True
  | hole, frame :: path =>
    FrameRep h hole frame ∧ (h frame.value).parent = pathTop path ∧ PathRep h (some frame.value) path

def pathNodes : List (Frame Addr) → List Addr
  | [] => []
  | frame :: path => frame.value :: inorder frame.sibling ++ pathNodes path

theorem pathNodes_perm (path : List (Frame Addr)) (tree : BinaryTree Addr) :
    (inorder (plug path tree)).Perm (inorder tree ++ pathNodes path) := by
  induction path generalizing tree with
  | nil => simp [plug, pathNodes]
  | cons frame path ih =>
      refine (ih (frame.attach tree)).trans ?_
      obtain ⟨side, value, sibling⟩ := frame
      cases side
      · simp [Frame.attach, pathNodes]
      · simp only [Frame.attach, pathNodes, inorder_node, List.append_assoc, List.cons_append]
        calc (inorder sibling ++ value :: (inorder tree ++ pathNodes path)).Perm
              (value :: (inorder sibling ++ (inorder tree ++ pathNodes path))) := List.perm_middle
          List.Perm _ (value :: (inorder tree ++ (inorder sibling ++ pathNodes path))) := by
              apply List.Perm.cons
              rw [← List.append_assoc, ← List.append_assoc]
              exact List.perm_append_comm.append_right _
          List.Perm _ (inorder tree ++ value :: (inorder sibling ++ pathNodes path)) := List.perm_middle.symm

theorem FrameRep.congr {h other : Heap} {hole : Option Addr} {frame : Frame Addr} (rep : FrameRep h hole frame)
    (same : ∀ x ∈ frame.value :: inorder frame.sibling, other x = h x) : FrameRep other hole frame := by
  have here := same frame.value (by simp)
  unfold FrameRep at *
  split <;> rename_i side <;> simp only [side] at rep
  · exact ⟨by rw [here]; exact rep.1, by rw [here]; exact rep.2.congr fun x member => same x (by simp [member])⟩
  · exact ⟨by rw [here]; exact rep.1, by rw [here]; exact rep.2.congr fun x member => same x (by simp [member])⟩

theorem PathRep.congr {h other : Heap} {hole : Option Addr} {path : List (Frame Addr)} (rep : PathRep h hole path)
    (same : ∀ x ∈ pathNodes path, other x = h x) : PathRep other hole path := by
  induction path generalizing hole with
  | nil => trivial
  | cons frame path ih =>
      obtain ⟨here, up, rest⟩ := rep
      refine ⟨here.congr fun x member => same x ?_, ?_, ih rest fun x member => same x ?_⟩
      · simp only [pathNodes, List.cons_append, List.mem_cons, List.mem_append] at member ⊢
        tauto
      · rw [same frame.value (by simp [pathNodes])]; exact up
      · simp [pathNodes, member]

theorem frame_open {h : Heap} {frame : Frame Addr} {path : List (Frame Addr)} {root : Option Addr}
    {tree : BinaryTree Addr} (rep : Rep h (some frame.value) root tree) (around : PathRep h root (frame :: path)) :
    ∃ left right, frame.attach tree = .node frame.value left right ∧ Open h (pathTop path) frame.value left right := by
  obtain ⟨side, value, sibling⟩ := frame
  obtain ⟨here, up, _⟩ := around
  cases side
  · obtain ⟨child, other⟩ := here
    exact ⟨tree, sibling, rfl, up, by rw [child]; exact rep, other⟩
  · obtain ⟨child, other⟩ := here
    exact ⟨sibling, tree, rfl, up, other, by rw [child]; exact rep⟩

/-- Store a child pointer on the frame's side of its node. -/
def Heap.store (h : Heap) (frame : Frame Addr) (child : Option Addr) : Heap :=
  match frame.side with
  | .left => h.setLeft frame.value child
  | .right => h.setRight frame.value child

theorem Heap.store_of_ne {h : Heap} {frame : Frame Addr} {child : Option Addr} {other : Addr}
    (away : other ≠ frame.value) : h.store frame child other = h other := by
  obtain ⟨side, value, sibling⟩ := frame
  cases side
  · exact setLeft_of_ne away
  · exact setRight_of_ne away

@[simp] theorem Heap.store_parent {h : Heap} {frame : Frame Addr} {child : Option Addr} {other : Addr} :
    (h.store frame child other).parent = (h other).parent := by
  obtain ⟨side, value, sibling⟩ := frame
  cases side <;> simp [Heap.store]

theorem Heap.store_caches {h : Heap} {frame : Frame Addr} {child : Option Addr} {other : Addr} :
    (h.store frame child other).depth = (h other).depth ∧ (h.store frame child other).count = (h other).count := by
  obtain ⟨side, value, sibling⟩ := frame
  by_cases same : other = value
  · subst same
    cases side <;> simp [Heap.store, Heap.setLeft, Heap.setRight]
  · rw [Heap.store_of_ne same]
    exact ⟨rfl, rfl⟩

theorem FrameRep.left_iff {h : Heap} {frame : Frame Addr} {a : Addr} (rep : FrameRep h (some a) frame)
    (outside : a ∉ inorder frame.sibling) : (h frame.value).left = some a ↔ frame.side = .left := by
  obtain ⟨side, value, sibling⟩ := frame
  cases side
  · exact ⟨fun _ => rfl, fun _ => rep.1⟩
  · exact ⟨fun same => absurd (rep.2.root_mem same) outside, fun wrong => nomatch wrong⟩

theorem replaceChild_eq {h : Heap} {frame : Frame Addr} {a : Addr} {child : Option Addr}
    (rep : FrameRep h (some a) frame) (outside : a ∉ inorder frame.sibling) :
    h.replaceChild frame.value a child = h.store frame child := by
  have left := rep.left_iff outside
  unfold Heap.replaceChild Heap.store
  cases side : frame.side <;> simp [left, side]

theorem PathRep.store {h : Heap} {hole : Option Addr} {frame : Frame Addr} {path : List (Frame Addr)}
    (rep : PathRep h hole (frame :: path)) (child : Option Addr) (distinct : (pathNodes (frame :: path)).Nodup) :
    PathRep (h.store frame child) child (frame :: path) := by
  obtain ⟨here, up, rest⟩ := rep
  simp only [pathNodes, List.cons_append, List.nodup_cons, List.mem_append, not_or] at distinct
  obtain ⟨⟨outsideSibling, outsidePath⟩, _⟩ := distinct
  have apart : ∀ x, x ≠ frame.value → h.store frame child x = h x := fun x away => Heap.store_of_ne away
  refine ⟨?_, ?_, rest.congr fun x member => apart x fun same => outsidePath (same ▸ member)⟩
  · obtain ⟨side, value, sibling⟩ := frame
    cases side
    · refine ⟨by simp [Heap.store], ?_⟩
      simp only [Heap.store, Heap.setLeft_right]
      exact here.2.congr fun x member => apart x fun same => outsideSibling (same ▸ member)
    · refine ⟨by simp [Heap.store], ?_⟩
      simp only [Heap.store, Heap.setRight_left]
      exact here.2.congr fun x member => apart x fun same => outsideSibling (same ▸ member)
  · simpa using up

/-- The caches along a path are those of the trees they belong to. -/
def PathCached (h : Heap) : List (Frame Addr) → BinaryTree Addr → Prop
  | [], _ => True
  | frame :: path, tree =>
    (h frame.value).depth = (frame.attach tree).height ∧
      (h frame.value).count = (frame.attach tree).numNodes % 2 ^ 32 ∧ PathCached h path (frame.attach tree)

def rootOf : List (Frame Addr) → Option Addr → Option Addr
  | [], hole => hole
  | frame :: path, _ => rootOf path (some frame.value)

theorem rep_attach {h : Heap} {parent root : Option Addr} {frame : Frame Addr} {tree : BinaryTree Addr} :
    Rep h parent root (frame.attach tree) ↔
      root = some frame.value ∧ (h frame.value).parent = parent ∧
        (h frame.value).depth = (frame.attach tree).height ∧
        (h frame.value).count = (frame.attach tree).numNodes % 2 ^ 32 ∧
        ∃ hole, FrameRep h hole frame ∧ Rep h (some frame.value) hole tree := by
  obtain ⟨side, value, sibling⟩ := frame
  cases side
  · constructor
    · rintro ⟨start, up, depth, count, l, r⟩
      exact ⟨start, up, depth, count, _, ⟨rfl, r⟩, l⟩
    · rintro ⟨start, up, depth, count, hole, ⟨rfl, r⟩, l⟩
      exact ⟨start, up, depth, count, l, r⟩
  · constructor
    · rintro ⟨start, up, depth, count, l, r⟩
      exact ⟨start, up, depth, count, _, ⟨rfl, l⟩, r⟩
    · rintro ⟨start, up, depth, count, hole, ⟨rfl, l⟩, r⟩
      exact ⟨start, up, depth, count, l, r⟩

/-- A represented tree is a represented subtree and a represented path with exact caches. -/
theorem rep_plug {h : Heap} {root : Option Addr} {path : List (Frame Addr)} {tree : BinaryTree Addr} :
    Rep h none root (plug path tree) ↔
      ∃ hole, Rep h (pathTop path) hole tree ∧ PathRep h hole path ∧ PathCached h path tree ∧
        root = rootOf path hole := by
  induction path generalizing tree with
  | nil => simp [plug, pathTop, PathRep, PathCached, rootOf]
  | cons frame path ih =>
      rw [plug, ih]
      constructor
      · rintro ⟨hole, rep, around, cached, rfl⟩
        obtain ⟨rfl, up, depth, count, inner, here, below⟩ := rep_attach.mp rep
        exact ⟨inner, below, ⟨here, up, around⟩, ⟨depth, count, cached⟩, rfl⟩
      · rintro ⟨hole, rep, ⟨here, up, around⟩, ⟨depth, count, cached⟩, rfl⟩
        exact ⟨some frame.value, rep_attach.mpr ⟨rfl, up, depth, count, hole, here, rep⟩, around, cached, rfl⟩

theorem PathCached.congr {h other : Heap} {path : List (Frame Addr)} {tree tree' : BinaryTree Addr}
    (cached : PathCached h path tree) (high : tree'.height = tree.height) (size : tree'.numNodes = tree.numNodes)
    (same : ∀ x ∈ pathNodes path, (other x).depth = (h x).depth ∧ (other x).count = (h x).count) :
    PathCached other path tree' := by
  induction path generalizing tree tree' with
  | nil => trivial
  | cons frame path ih =>
      obtain ⟨depth, count, rest⟩ := cached
      have here := same frame.value (by simp [pathNodes])
      have high' : (frame.attach tree').height = (frame.attach tree).height := by
        rw [height_attach, height_attach, high]
      have size' : (frame.attach tree').numNodes = (frame.attach tree).numNodes := by
        obtain ⟨side, value, sibling⟩ := frame
        cases side <;> simp [Frame.attach, size]
      refine ⟨by rw [here.1, depth, high'], by rw [here.2, count, size'], ih rest high' size' fun x member => ?_⟩
      exact same x (by simp [pathNodes, member])

end Coxx.Avl
