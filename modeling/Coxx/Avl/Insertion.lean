import Coxx.Avl.Deletion

/-! Insertion into a represented tree: a fresh node takes an empty place, and `fixAVL` climbs from it. -/

set_option autoImplicit false

namespace Coxx.Avl

open Library BinaryTree

theorem hang_rep {h : Heap} {frame : Frame Addr} {path : List (Frame Addr)} {x : Addr}
    (around : PathRep h none (frame :: path)) (distinct : (pathNodes (frame :: path)).Nodup)
    (outside : x ∉ pathNodes (frame :: path)) (left : (h x).left = none) (right : (h x).right = none) :
    Open ((h.store frame (some x)).setParent x (some frame.value)) (some frame.value) x .nil .nil ∧
      PathRep ((h.store frame (some x)).setParent x (some frame.value)) (some x) (frame :: path) ∧
      ∀ y, y ≠ x → y ≠ frame.value → (h.store frame (some x)).setParent x (some frame.value) y = h y := by
  have apart : x ≠ frame.value := fun same => outside (by simp [pathNodes, same])
  refine ⟨⟨by simp, ?_, ?_⟩, ?_, fun y notX notParent => ?_⟩
  · simpa [Heap.store_of_ne apart] using left
  · simpa [Heap.store_of_ne apart] using right
  · refine (around.store (some x) distinct).congr fun y member => Heap.setParent_of_ne ?_
    rintro rfl
    exact outside member
  · rw [Heap.setParent_of_ne notX, Heap.store_of_ne notParent]

theorem fixAVL_leaf {fuel : Nat} {h : Heap} {path : List (Frame Addr)} {x : Addr}
    (spot : Open h (pathTop path) x .nil .nil) (around : PathRep h (some x) path)
    (distinct : (inorder (plug path (.nil : BinaryTree Addr))).Nodup)
    (outside : x ∉ inorder (plug path (.nil : BinaryTree Addr)))
    (balanced : Balanced (plug path (.nil : BinaryTree Addr)))
    (fits : (plug path (.nil : BinaryTree Addr)).numNodes + 1 < 2 ^ 64)
    (enough : (plug path (.nil : BinaryTree Addr)).height < fuel) :
    ∃ h' root tree, fixAVL fuel h x = some (h', root) ∧ Holds h' (some root) tree ∧
      inorder tree = before path ++ x :: after path ∧
      ∀ y ∉ x :: inorder (plug path (.nil : BinaryTree Addr)), h' y = h y := by
  have order : inorder (plug path (.node x .nil .nil)) = before path ++ x :: after path := by
    rw [inorder_plug]
    rfl
  have old : inorder (plug path (.nil : BinaryTree Addr)) = before path ++ after path := inorder_plug path .nil
  have distinct' : (before path ++ x :: after path).Nodup := by
    rw [List.nodup_middle, List.nodup_cons, ← old]
    exact ⟨outside, distinct⟩
  -- a new leaf makes the tree one level higher at most, which the climb repairs
  have shallow := balanced.height_lt (k := 64) fits
  have long := height_le_plug path (.nil : BinaryTree Addr)
  have higher : (plug path (.node x .nil .nil)).height ≤ (plug path (.nil : BinaryTree Addr)).height + 1 :=
    height_plug_succ path (by simp)
  simp only [height] at long
  obtain ⟨h', root, fixed, rep, frame⟩ := fixAVL_rep fuel spot around (by rw [order]; exact distinct') (by omega)
    (by omega)
  refine ⟨h', root, climb path (.node x .nil .nil), fixed, ⟨rep, ?_, climb_leaf x balanced⟩, ?_, fun y away => ?_⟩
  · rw [inorder_climb, order]
    exact distinct'
  · rw [inorder_climb, order]
  · refine frame y fun inside => away ?_
    rw [order, List.mem_append, List.mem_cons] at inside
    rw [List.mem_cons, old, List.mem_append]
    tauto

/-! ### Empty places -/

/-- A place for a node: that of the root, or a side of a node. -/
abbrev Place := Option (Addr × Side)

def Vacant (h : Heap) (root : Option Addr) (tree : BinaryTree Addr) : Place → Prop
  | none => root = none
  | some (curr, .left) => curr ∈ inorder tree ∧ (h curr).left = none
  | some (curr, .right) => curr ∈ inorder tree ∧ (h curr).right = none

/-- A freshly initialised node is attached: the empty link leads to it, and its parent is set. -/
def hang (h : Heap) (x : Addr) : Place → Heap
  | none => Heap.setParent (Function.update h x init) x none
  | some (curr, .left) => (Heap.setLeft (Function.update h x init) curr (some x)).setParent x (some curr)
  | some (curr, .right) => (Heap.setRight (Function.update h x init) curr (some x)).setParent x (some curr)

/-- The sequence after a node has been attached: it stands right before or right after the node it hangs at. -/
inductive Placed (x : Addr) : Place → List Addr → List Addr → Prop where
  | root : Placed x none [] [x]
  | left {curr : Addr} {front back : List Addr} :
      Placed x (some (curr, .left)) (front ++ curr :: back) (front ++ x :: curr :: back)
  | right {curr : Addr} {front back : List Addr} :
      Placed x (some (curr, .right)) (front ++ curr :: back) (front ++ curr :: x :: back)

theorem Placed.unique {x : Addr} {place : Place} {xs ys zs : List Addr} (distinct : xs.Nodup)
    (first : Placed x place xs ys) (second : Placed x place xs zs) : ys = zs := by
  have split : ∀ {curr : Addr} {front back : List Addr}, xs = front ++ curr :: back → curr ∉ front ∧ curr ∉ back := by
    rintro curr front back rfl
    have apart := (List.nodup_cons.mp (List.nodup_middle.mp distinct)).1
    rwa [List.mem_append, not_or] at apart
  generalize same : xs = ws at second
  cases first with
  | root =>
      cases second with
      | root => rfl
  | @left curr front back =>
      cases second with
      | @left _ front' back' =>
          obtain ⟨outFront, outBack⟩ := split rfl
          obtain ⟨rfl, _, rfl⟩ := (List.append_cons_inj_of_notMem outFront outBack).mp same
          rfl
  | @right curr front back =>
      cases second with
      | @right _ front' back' =>
          obtain ⟨outFront, outBack⟩ := split rfl
          obtain ⟨rfl, _, rfl⟩ := (List.append_cons_inj_of_notMem outFront outBack).mp same
          rfl

section Hang

variable {h : Heap} {root : Option Addr} {tree : BinaryTree Addr} {x : Addr} {fuel : Nat}

theorem hang_below {frame : Frame Addr} {path : List (Frame Addr)}
    (distinct : (inorder (plug (frame :: path) (.nil : BinaryTree Addr))).Nodup) (around : PathRep h none (frame :: path))
    (outside : x ∉ inorder (plug (frame :: path) (.nil : BinaryTree Addr))) :
    Open (hang h x (some (frame.value, frame.side))) (some frame.value) x .nil .nil ∧
      PathRep (hang h x (some (frame.value, frame.side))) (some x) (frame :: path) ∧
      ∀ y ∉ x :: inorder (plug (frame :: path) (.nil : BinaryTree Addr)),
        hang h x (some (frame.value, frame.side)) y = h y := by
  have nodes : ∀ y, y ∈ inorder (plug (frame :: path) (.nil : BinaryTree Addr)) ↔ y ∈ pathNodes (frame :: path) := by
    intro y
    rw [mem_plug]
    simp
  have around' : PathRep (Function.update h x init) none (frame :: path) := by
    refine around.congr fun y member => Function.update_of_ne ?_ _ _
    rintro rfl
    exact outside ((nodes y).mpr member)
  obtain ⟨spot, hung, away⟩ := hang_rep around' (nodup_plug distinct).2.1
    (fun member => outside ((nodes x).mpr member)) (by simp [init]) (by simp [init])
  have stored : hang h x (some (frame.value, frame.side)) =
      (Heap.store (Function.update h x init) frame (some x)).setParent x (some frame.value) := by
    obtain ⟨side, value, sibling⟩ := frame
    cases side <;> rfl
  rw [stored]
  refine ⟨spot, hung, fun y other => ?_⟩
  rw [List.mem_cons, not_or] at other
  rw [away y other.1 fun same => other.2 ((nodes y).mpr (by simp [pathNodes, same])), Function.update_of_ne other.1]

theorem Holds.path_of_vacant (holds : Holds h root tree) {place : Place} (vacant : Vacant h root tree place)
    (outside : x ∉ inorder tree) :
    ∃ path, plug path .nil = tree ∧ Open (hang h x place) (pathTop path) x .nil .nil ∧
      PathRep (hang h x place) (some x) path ∧ Placed x place (inorder tree) (before path ++ x :: after path) ∧
      ∀ y ∉ x :: inorder tree, hang h x place y = h y := by
  cases place with
  | none =>
      have empty : tree = .nil := holds.rep.root_none.mp vacant
      subst empty
      refine ⟨[], rfl, ⟨by simp [hang, pathTop], by simp [hang, init], by simp [hang, init]⟩, trivial, .root, ?_⟩
      intro y away
      have other : y ≠ x := by simpa using away
      rw [hang, Heap.setParent_of_ne other, Function.update_of_ne other]
  | some place =>
      obtain ⟨curr, side⟩ := place
      have member : curr ∈ inorder tree := by
        cases side <;> exact vacant.1
      obtain ⟨path, l, r, rfl⟩ := exists_plug member
      obtain ⟨hole, rep, around, _, _⟩ := rep_plug.mp holds.rep
      obtain ⟨rfl, _, _, spot⟩ := rep_node.mp rep
      cases side with
      | left =>
          have empty : l = .nil := spot.left.root_none.mp vacant.2
          subst empty
          obtain ⟨open', hung, away⟩ := @hang_below h x ⟨.left, curr, r⟩ path holds.distinct
            ⟨⟨vacant.2, spot.right⟩, spot.parent, around⟩ outside
          refine ⟨⟨.left, curr, r⟩ :: path, rfl, open', hung, ?_, away⟩
          rw [inorder_plug]
          exact .left
      | right =>
          have empty : r = .nil := spot.right.root_none.mp vacant.2
          subst empty
          obtain ⟨open', hung, away⟩ := @hang_below h x ⟨.right, curr, l⟩ path holds.distinct
            ⟨⟨vacant.2, spot.left⟩, spot.parent, around⟩ outside
          refine ⟨⟨.right, curr, l⟩ :: path, rfl, open', hung, ?_, away⟩
          rw [inorder_plug]
          simpa [before, after] using @Placed.right x curr (before path ++ inorder l) (after path)

theorem WellFormed.hang (wf : WellFormed h root tree) (few : tree.numNodes + 1 < 2 ^ 32) {place : Place}
    (vacant : Vacant h root tree place) (outside : x ∉ inorder tree) (enough : tree.height < fuel) :
    ∃ h' root' tree', fixAVL fuel (Avl.hang h x place) x = some (h', root') ∧ WellFormed h' (some root') tree' ∧
      (h' root').parent = none ∧ Placed x place (inorder tree) (inorder tree') ∧
      ∀ y ∉ x :: inorder tree, h' y = h y := by
  obtain ⟨path, rfl, spot, around, placed, away⟩ := wf.toHolds.path_of_vacant vacant outside
  obtain ⟨h', root', tree', fixed, holds, order, frame⟩ :=
    fixAVL_leaf spot around wf.distinct outside wf.balanced (by omega) enough
  have size : tree'.numNodes = (plug path (.nil : BinaryTree Addr)).numNodes + 1 := by
    rw [← length_inorder, ← length_inorder, order, inorder_plug]
    simp
    omega
  refine ⟨h', root', tree', fixed, ⟨holds, by omega⟩, holds.rep.parent_eq, ?_, fun y other => ?_⟩
  · rw [order]
    exact placed
  · rw [frame y other, away y other]

end Hang

end Coxx.Avl
