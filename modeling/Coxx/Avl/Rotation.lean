import Coxx.Avl.Representation

/-! The rotations, the repair of one node and the climb to the root, on represented trees.

Every result also says that the heap is unchanged away from the nodes of the tree.
-/

set_option autoImplicit false

namespace Coxx.Avl

open Library BinaryTree

section Rotate

variable {h : Heap} {parent : Option Addr} {a b : Addr}

/-- What is left to do after the pointers of a rotation are set: the lower node, then the upper one. -/
theorem update_two {l m r : BinaryTree Addr} (lower : Open h (some b) a l m) (up : (h b).parent = parent)
    (inner : (h b).left = some a) (outer : Rep h (some b) (h b).right r)
    (distinct : (inorder (.node b (.node a l m) r)).Nodup)
    (shallow : (BinaryTree.node b (.node a l m) r).height < 2 ^ 32) :
    Rep (update (update h a) b) parent (some b) (.node b (.node a l m) r) := by
  have apart : b ≠ a := by
    rintro rfl
    simp [List.nodup_append'] at distinct
  -- `update` on the lower node writes its caches only, so the upper node is still open after it
  have low := lower.update (by
    simp only [inorder_node] at distinct ⊢
    exact (List.nodup_append'.mp distinct).1) (by simp only [height] at shallow ⊢; omega)
  have same := Heap.update_of_ne (h := h) apart
  have frame : ∀ x ∈ inorder r, update h a x = h x := by
    intro x member
    apply Heap.update_of_ne
    rintro rfl
    simp [List.nodup_append', member] at distinct
  refine Open.update ⟨by rw [same]; exact up, ?_, ?_⟩ distinct shallow
  · rw [same, inner]; exact low
  · rw [same]; exact outer.congr frame

theorem update_two' {l m r : BinaryTree Addr} (lower : Open h (some b) a m r) (up : (h b).parent = parent)
    (inner : (h b).right = some a) (outer : Rep h (some b) (h b).left l)
    (distinct : (inorder (.node b l (.node a m r))).Nodup)
    (shallow : (BinaryTree.node b l (.node a m r)).height < 2 ^ 32) :
    Rep (update (update h a) b) parent (some b) (.node b l (.node a m r)) := by
  have apart : b ≠ a := by
    rintro rfl
    simp [List.nodup_append'] at distinct
  have low := lower.update (by
    simp only [inorder_node] at distinct ⊢
    exact ((List.nodup_append'.mp distinct).2.1.of_cons)) (by simp only [height] at shallow ⊢; omega)
  have same := Heap.update_of_ne (h := h) apart
  have frame : ∀ x ∈ inorder l, update h a x = h x := by
    intro x member
    apply Heap.update_of_ne
    rintro rfl
    simp [List.nodup_append', member] at distinct
  refine Open.update ⟨by rw [same]; exact up, ?_, ?_⟩ distinct shallow
  · rw [same]; exact outer.congr frame
  · rw [same, inner]; exact low

theorem Rep.apart {h' : Heap} {root : Option Addr} {tree : BinaryTree Addr} (rep : Rep h parent root tree)
    (away : ∀ x, x ≠ a → x ≠ b → h' x = h x) (notA : a ∉ inorder tree) (notB : b ∉ inorder tree) :
    Rep h' parent root tree :=
  rep.congr fun x member => away x (fun same => notA (same ▸ member)) (fun same => notB (same ▸ member))

theorem rotateLeft_rep {l r : BinaryTree Addr} (spot : Open h parent a l r) (deep : r ≠ .nil)
    (distinct : (inorder (.node a l r)).Nodup) (shallow : (BinaryTree.node a l r).height + 1 < 2 ^ 32) :
    ∃ h' n, rotateLeft h a = some (h', n) ∧ Rep h' parent (some n) (rotL (.node a l r)) ∧
      ∀ x ∉ inorder (.node a l r), h' x = h x := by
  cases r with
  | nil => exact absurd rfl deep
  | node b m r =>
      obtain ⟨start, _, _, below⟩ := rep_node.mp spot.right
      have distinct' : (inorder (rotL (.node a l (.node b m r)))).Nodup := by rw [inorder_rotL]; exact distinct
      simp only [rotL, inorder_node, List.append_assoc, List.cons_append, List.nodup_append', List.nodup_cons,
        List.mem_append, List.mem_cons, List.disjoint_cons_right, List.disjoint_append_right, not_or] at distinct'
      obtain ⟨dl, ⟨⟨aNotM, aNeB, aNotR⟩, dm, ⟨bNotR, dr⟩, bNotM, dmr⟩, aNotL, dlm, bNotL, dlr⟩ := distinct'
      have adopted := below.left.adopt dm (some a)
      set h1 := h.adopt (h b).left (some a) with named
      have frame : ∀ x ∉ inorder m, h1 x = h x := fun x outside =>
        Heap.adopt_of_ne fun same => outside (below.left.root_mem same)
      set h5 := ((((h1.setRight a (h1 b).left).setLeft b (some a)).setParent b
        ((((h1.setRight a (h1 b).left).setLeft b (some a)) a).parent)).setParent a (some b)) with named5
      have away : ∀ x, x ≠ a → x ≠ b → h5 x = h1 x := by
        intro x notA notB
        rw [named5, Heap.setParent_of_ne notA, Heap.setParent_of_ne notB, Heap.setLeft_of_ne notB,
          Heap.setRight_of_ne notA]
      have h1a := frame a aNotM
      have h1b := frame b bNotM
      have lower : Open h5 (some b) a l m := by
        refine ⟨by simp [named5], ?_, ?_⟩
        · have same : (h5 a).left = (h a).left := by simp [named5, aNeB, h1a]
          have left1 := spot.left.congr fun x member => frame x fun other => dlm member other
          rw [same]
          exact left1.apart away aNotL bNotL
        · have same : (h5 a).right = (h b).left := by simp [named5, h1b]
          rw [same]
          exact adopted.apart away aNotM bNotM
      refine ⟨update (update h5 a) b, b, ?_, ?_, ?_⟩
      · simp only [rotateLeft, start, Option.bind_eq_bind, Option.bind_some]
        rfl
      · refine update_two lower ?_ ?_ ?_ ?_ ?_
        · simp [named5, Ne.symm aNeB, h1a, spot.parent]
        · simp [named5]
        · have same : (h5 b).right = (h b).right := by simp [named5, Ne.symm aNeB, h1b]
          have right1 := below.right.congr fun x member => frame x fun other => dmr other member
          rw [same]
          exact right1.apart away aNotR bNotR
        · exact (inorder_rotL (.node a l (.node b m r))) ▸ distinct
        · simp only [height] at shallow ⊢; omega
      · intro x outside
        simp only [inorder_node, List.mem_append, List.mem_cons, not_or] at outside
        obtain ⟨_, notA, notM, notB, _⟩ := outside
        rw [Heap.update_of_ne notB, Heap.update_of_ne notA, away x notA notB, frame x notM]

theorem rotateRight_rep {l r : BinaryTree Addr} (spot : Open h parent a l r) (deep : l ≠ .nil)
    (distinct : (inorder (.node a l r)).Nodup) (shallow : (BinaryTree.node a l r).height + 1 < 2 ^ 32) :
    ∃ h' n, rotateRight h a = some (h', n) ∧ Rep h' parent (some n) (rotR (.node a l r)) ∧
      ∀ x ∉ inorder (.node a l r), h' x = h x := by
  cases l with
  | nil => exact absurd rfl deep
  | node b l m =>
      obtain ⟨start, _, _, below⟩ := rep_node.mp spot.left
      have distinct' : (inorder (rotR (.node a (.node b l m) r))).Nodup := by rw [inorder_rotR]; exact distinct
      simp only [rotR, inorder_node, List.nodup_append', List.nodup_cons, List.mem_append, List.mem_cons,
        List.disjoint_cons_right, List.disjoint_append_right, not_or] at distinct'
      obtain ⟨dl, ⟨⟨bNotM, bNeA, bNotR⟩, dm, ⟨aNotR, dr⟩, aNotM, dmr⟩, bNotL, dlm, aNotL, dlr⟩ := distinct'
      have adopted := below.right.adopt dm (some a)
      set h1 := h.adopt (h b).right (some a) with named
      have frame : ∀ x ∉ inorder m, h1 x = h x := fun x outside =>
        Heap.adopt_of_ne fun same => outside (below.right.root_mem same)
      set h5 := ((((h1.setLeft a (h1 b).right).setRight b (some a)).setParent b
        ((((h1.setLeft a (h1 b).right).setRight b (some a)) a).parent)).setParent a (some b)) with named5
      have away : ∀ x, x ≠ a → x ≠ b → h5 x = h1 x := by
        intro x notA notB
        rw [named5, Heap.setParent_of_ne notA, Heap.setParent_of_ne notB, Heap.setRight_of_ne notB,
          Heap.setLeft_of_ne notA]
      have h1a := frame a aNotM
      have h1b := frame b bNotM
      have lower : Open h5 (some b) a m r := by
        refine ⟨by simp [named5], ?_, ?_⟩
        · have same : (h5 a).left = (h b).right := by simp [named5, h1b]
          rw [same]
          exact adopted.apart away aNotM bNotM
        · have same : (h5 a).right = (h a).right := by simp [named5, Ne.symm bNeA, h1a]
          have right1 := spot.right.congr fun x member => frame x fun other => dmr other member
          rw [same]
          exact right1.apart away aNotR bNotR
      refine ⟨update (update h5 a) b, b, ?_, ?_, ?_⟩
      · simp only [rotateRight, start, Option.bind_eq_bind, Option.bind_some]
        rfl
      · refine update_two' lower ?_ ?_ ?_ ?_ ?_
        · simp [named5, bNeA, h1a, spot.parent]
        · simp [named5]
        · have same : (h5 b).left = (h b).left := by simp [named5, bNeA, h1b]
          have left1 := below.left.congr fun x member => frame x fun other => dlm member other
          rw [same]
          exact left1.apart away aNotL bNotL
        · exact (inorder_rotR (.node a (.node b l m) r)) ▸ distinct
        · simp only [height] at shallow ⊢; omega
      · intro x outside
        simp only [inorder_node, List.mem_append, List.mem_cons, not_or] at outside
        obtain ⟨⟨_, notB, notM⟩, notA, _⟩ := outside
        rw [Heap.update_of_ne notB, Heap.update_of_ne notA, away x notA notB, frame x notM]

end Rotate

/-! ### The repair of one node -/

section Repair

variable {h : Heap} {parent : Option Addr} {a : Addr} {l r : BinaryTree Addr}

theorem height_rotL_le (tree : BinaryTree Addr) : (rotL tree).height ≤ tree.height + 1 := by
  unfold rotL
  split
  · simp only [height]; omega
  · omega

theorem height_rotR_le (tree : BinaryTree Addr) : (rotR tree).height ≤ tree.height + 1 := by
  unfold rotR
  split
  · simp only [height]; omega
  · omega

theorem repairLeft_eq {b : Addr} {ll lr : BinaryTree Addr} :
    repairLeft (.node a (.node b ll lr) r) =
      rotR (.node a (if ll.height < lr.height then rotL (.node b ll lr) else .node b ll lr) r) := by
  simp only [repairLeft]
  split <;> rfl

theorem repairRight_eq {b : Addr} {rl rr : BinaryTree Addr} :
    repairRight (.node a l (.node b rl rr)) =
      rotL (.node a l (if rr.height < rl.height then rotR (.node b rl rr) else .node b rl rr)) := by
  simp only [repairRight]
  split <;> rfl

theorem Open.setLeft {l' : BinaryTree Addr} {root : Option Addr} {other : Heap} (spot : Open h parent a l r)
    (outside : a ∉ inorder l') (outsideRight : a ∉ inorder r) (here : other a = h a)
    (rep : Rep other (some a) root l') (same : ∀ x ∈ inorder r, other x = h x) :
    Open (other.setLeft a root) parent a l' r := by
  have away : ∀ x, x ≠ a → other.setLeft a root x = other x := fun x apart => Heap.setLeft_of_ne apart
  refine ⟨by simp [here, spot.parent], ?_, ?_⟩
  · simp only [Heap.setLeft_left, if_pos]
    exact rep.congr fun x member => away x fun same => outside (same ▸ member)
  · simp only [Heap.setLeft_right, here]
    refine spot.right.congr fun x member => ?_
    rw [away x fun same => outsideRight (same ▸ member), same x member]

theorem Open.setRight {r' : BinaryTree Addr} {root : Option Addr} {other : Heap} (spot : Open h parent a l r)
    (outside : a ∉ inorder r') (outsideLeft : a ∉ inorder l) (here : other a = h a)
    (rep : Rep other (some a) root r') (same : ∀ x ∈ inorder l, other x = h x) :
    Open (other.setRight a root) parent a l r' := by
  have away : ∀ x, x ≠ a → other.setRight a root x = other x := fun x apart => Heap.setRight_of_ne apart
  refine ⟨by simp [here, spot.parent], ?_, ?_⟩
  · simp only [Heap.setRight_left, here]
    refine spot.left.congr fun x member => ?_
    rw [away x fun same => outsideLeft (same ▸ member), same x member]
  · simp only [Heap.setRight_right, if_pos]
    exact rep.congr fun x member => away x fun same => outside (same ▸ member)

theorem bendLeft_rep {b : Addr} {ll lr : BinaryTree Addr} (spot : Open h parent a (.node b ll lr) r)
    (distinct : (inorder (.node a (.node b ll lr) r)).Nodup)
    (shallow : (BinaryTree.node a (.node b ll lr) r).height + 1 < 2 ^ 32) :
    ∃ h', bendLeft h a b = some h' ∧
      Open h' parent a (if ll.height < lr.height then rotL (.node b ll lr) else .node b ll lr) r ∧
      ∀ x ∉ inorder (.node a (.node b ll lr) r), h' x = h x := by
  obtain ⟨_, _, _, below⟩ := rep_node.mp spot.left
  simp only [bendLeft, below.left.depth_eq, below.right.depth_eq]
  split
  · rename_i inner
    have deep : lr ≠ .nil := by rintro rfl; simp at inner
    obtain ⟨distinctLeft, ⟨outsideRight, _⟩, disjoint⟩ : (inorder (.node b ll lr)).Nodup ∧
        (a ∉ inorder r ∧ (inorder r).Nodup) ∧ (inorder (.node b ll lr)).Disjoint (a :: inorder r) := by
      have := List.nodup_append'.mp (inorder_node a (.node b ll lr) r ▸ distinct)
      simpa using this
    obtain ⟨outsideLeft, disjoint⟩ := List.disjoint_cons_right.mp disjoint
    obtain ⟨h1, newLeft, rotated, rep, frame⟩ := rotateLeft_rep below deep distinctLeft
      (by simp only [height] at shallow ⊢; omega)
    refine ⟨h1.setLeft a (some newLeft), by simp [rotated], ?_, ?_⟩
    · exact spot.setLeft (by rw [inorder_rotL]; exact outsideLeft) outsideRight (frame a outsideLeft) rep
        fun x member => frame x fun other => disjoint other member
    · intro x outside
      rw [inorder_node, List.mem_append, List.mem_cons, not_or, not_or] at outside
      rw [Heap.setLeft_of_ne outside.2.1, frame x outside.1]
  · exact ⟨h, rfl, spot, fun x _ => rfl⟩

theorem bendRight_rep {b : Addr} {rl rr : BinaryTree Addr} (spot : Open h parent a l (.node b rl rr))
    (distinct : (inorder (.node a l (.node b rl rr))).Nodup)
    (shallow : (BinaryTree.node a l (.node b rl rr)).height + 1 < 2 ^ 32) :
    ∃ h', bendRight h a b = some h' ∧
      Open h' parent a l (if rr.height < rl.height then rotR (.node b rl rr) else .node b rl rr) ∧
      ∀ x ∉ inorder (.node a l (.node b rl rr)), h' x = h x := by
  obtain ⟨_, _, _, below⟩ := rep_node.mp spot.right
  simp only [bendRight, below.left.depth_eq, below.right.depth_eq]
  split
  · rename_i inner
    have deep : rl ≠ .nil := by rintro rfl; simp at inner
    obtain ⟨_, ⟨outsideRight, distinctRight⟩, disjoint⟩ : (inorder l).Nodup ∧
        (a ∉ inorder (.node b rl rr) ∧ (inorder (.node b rl rr)).Nodup) ∧
        (inorder l).Disjoint (a :: inorder (.node b rl rr)) := by
      have := List.nodup_append'.mp (inorder_node a l (.node b rl rr) ▸ distinct)
      simpa only [List.nodup_cons] using this
    obtain ⟨outsideLeft, disjoint⟩ := List.disjoint_cons_right.mp disjoint
    obtain ⟨h1, newRight, rotated, rep, frame⟩ := rotateRight_rep below deep distinctRight
      (by simp only [height] at shallow ⊢; omega)
    refine ⟨h1.setRight a (some newRight), by simp [rotated], ?_, ?_⟩
    · exact spot.setRight (by rw [inorder_rotR]; exact outsideRight) outsideLeft (frame a outsideRight) rep
        fun x member => frame x fun other => disjoint member other
    · intro x outside
      rw [inorder_node, List.mem_append, List.mem_cons, not_or, not_or] at outside
      rw [Heap.setRight_of_ne outside.2.1, frame x outside.2.2]
  · exact ⟨h, rfl, spot, fun x _ => rfl⟩

theorem fixLeft_rep (spot : Open h parent a l r) (deep : l ≠ .nil) (distinct : (inorder (.node a l r)).Nodup)
    (shallow : (BinaryTree.node a l r).height + 2 < 2 ^ 32) :
    ∃ h' n, fixLeft h a = some (h', n) ∧ Rep h' parent (some n) (repairLeft (.node a l r)) ∧
      ∀ x ∉ inorder (.node a l r), h' x = h x := by
  cases l with
  | nil => exact absurd rfl deep
  | node b ll lr =>
      have start := (rep_node.mp spot.left).1
      obtain ⟨h1, bent, open1, frame1⟩ := bendLeft_rep spot distinct (by omega)
      rw [repairLeft_eq]
      -- rule 2 may bend the left subtree first; either way its nodes stay in order
      set left := if ll.height < lr.height then rotL (.node b ll lr) else .node b ll lr with named
      have same : inorder left = inorder (.node b ll lr) := by rw [named]; split <;> simp
      have high : left.height ≤ (BinaryTree.node b ll lr).height + 1 := by
        rw [named]
        split
        · exact height_rotL_le _
        · omega
      have spine : inorder (.node a left r) = inorder (.node a (.node b ll lr) r) := by
        rw [inorder_node, inorder_node, same]
      have nonempty : left ≠ .nil := by
        intro empty
        simp [empty] at same
      obtain ⟨h2, n, rotated, rep, frame2⟩ := rotateRight_rep open1 nonempty (by rw [spine]; exact distinct)
        (by simp only [height] at shallow high ⊢; omega)
      refine ⟨h2, n, by simp [fixLeft, start, bent, rotated], rep, fun x outside => ?_⟩
      rw [frame2 x (by rw [spine]; exact outside), frame1 x outside]

theorem fixRight_rep (spot : Open h parent a l r) (deep : r ≠ .nil) (distinct : (inorder (.node a l r)).Nodup)
    (shallow : (BinaryTree.node a l r).height + 2 < 2 ^ 32) :
    ∃ h' n, fixRight h a = some (h', n) ∧ Rep h' parent (some n) (repairRight (.node a l r)) ∧
      ∀ x ∉ inorder (.node a l r), h' x = h x := by
  cases r with
  | nil => exact absurd rfl deep
  | node b rl rr =>
      have start := (rep_node.mp spot.right).1
      obtain ⟨h1, bent, open1, frame1⟩ := bendRight_rep spot distinct (by omega)
      rw [repairRight_eq]
      set right := if rr.height < rl.height then rotR (.node b rl rr) else .node b rl rr with named
      have same : inorder right = inorder (.node b rl rr) := by rw [named]; split <;> simp
      have high : right.height ≤ (BinaryTree.node b rl rr).height + 1 := by
        rw [named]
        split
        · exact height_rotR_le _
        · omega
      have spine : inorder (.node a l right) = inorder (.node a l (.node b rl rr)) := by
        rw [inorder_node, inorder_node, same]
      have nonempty : right ≠ .nil := by
        intro empty
        simp [empty] at same
      obtain ⟨h2, n, rotated, rep, frame2⟩ := rotateLeft_rep open1 nonempty (by rw [spine]; exact distinct)
        (by simp only [height] at shallow high ⊢; omega)
      refine ⟨h2, n, by simp [fixRight, start, bent, rotated], rep, fun x outside => ?_⟩
      rw [frame2 x (by rw [spine]; exact outside), frame1 x outside]

theorem fixNode_rep (rep : Rep h parent (some a) (.node a l r)) (distinct : (inorder (.node a l r)).Nodup)
    (shallow : (BinaryTree.node a l r).height + 2 < 2 ^ 32) :
    ∃ h' n, fixNode h a = some (h', n) ∧ Rep h' parent (some n) (rebalance (.node a l r)) ∧
      ∀ x ∉ inorder (.node a l r), h' x = h x := by
  have spot := (rep_node.mp rep).2.2.2
  have bound : max l.height r.height + 3 < 2 ^ 32 := by simp only [height] at shallow; omega
  simp only [fixNode, spot.left.depth_eq, spot.right.depth_eq, rebalance]
  -- the sums of cached depths are 32-bit words; a shallow tree does not wrap them
  rw [Nat.mod_eq_of_lt (by omega : r.height + 2 < 2 ^ 32), Nat.mod_eq_of_lt (by omega : l.height + 2 < 2 ^ 32)]
  split
  · rename_i deep
    exact fixLeft_rep spot (by rintro rfl; simp at deep) distinct shallow
  · split
    · rename_i deep
      exact fixRight_rep spot (by rintro rfl; simp at deep) distinct shallow
    · exact ⟨h, a, rfl, rep, fun x _ => rfl⟩

end Repair

/-! ### The climb -/

theorem nodup_plug {path : List (Frame Addr)} {tree : BinaryTree Addr} (distinct : (inorder (plug path tree)).Nodup) :
    (inorder tree).Nodup ∧ (pathNodes path).Nodup ∧ (inorder tree).Disjoint (pathNodes path) :=
  List.nodup_append'.mp ((pathNodes_perm path tree).nodup_iff.mp distinct)

theorem mem_plug {path : List (Frame Addr)} {tree : BinaryTree Addr} {x : Addr} :
    x ∈ inorder (plug path tree) ↔ x ∈ inorder tree ∨ x ∈ pathNodes path := by
  rw [(pathNodes_perm path tree).mem_iff, List.mem_append]

theorem link_eq {h : Heap} {frame : Frame Addr} {path : List (Frame Addr)} {a n : Addr} {other : Heap}
    (rep : PathRep h (some a) (frame :: path)) (outside : a ∉ inorder frame.sibling) :
    (if decide ((h frame.value).left = some a) then other.setLeft frame.value (some n)
      else other.setRight frame.value (some n)) = other.store frame (some n) := by
  have left := rep.1.left_iff outside
  unfold Heap.store
  cases side : frame.side <;> simp [left, side]

theorem inorder_plug_rebalance (frame : Frame Addr) (path : List (Frame Addr)) (tree : BinaryTree Addr) :
    inorder (plug path (frame.attach (rebalance tree))) = inorder (plug (frame :: path) tree) := by
  rw [plug]
  apply inorder_plug_congr
  obtain ⟨side, value, sibling⟩ := frame
  cases side <;> simp [Frame.attach]

theorem height_plug_rebalance (frame : Frame Addr) (path : List (Frame Addr)) (tree : BinaryTree Addr) :
    (plug path (frame.attach (rebalance tree))).height ≤ (plug (frame :: path) tree).height := by
  rw [plug]
  apply height_plug_mono
  have := height_rebalance_le tree
  rw [height_attach, height_attach]
  omega

/-- One round of `fixAVL`: repair the node, hang it under its parent again, go on with the parent. -/
theorem fixAVL_round (fuel : Nat) {frame : Frame Addr} {path : List (Frame Addr)} {h : Heap} {a : Addr}
    {l r : BinaryTree Addr} (spot : Open h (pathTop (frame :: path)) a l r) (around : PathRep h (some a) (frame :: path))
    (distinct : (inorder (plug (frame :: path) (.node a l r))).Nodup)
    (shallow : (plug (frame :: path) (.node a l r)).height + 2 < 2 ^ 32) :
    ∃ h' l' r', fixAVL (fuel + 1) h a = fixAVL fuel h' frame.value ∧
      frame.attach (rebalance (.node a l r)) = .node frame.value l' r' ∧ Open h' (pathTop path) frame.value l' r' ∧
      PathRep h' (some frame.value) path ∧ ∀ x ∉ inorder (plug (frame :: path) (.node a l r)), h' x = h x := by
  obtain ⟨distinctNode, distinctPath, apart⟩ := nodup_plug distinct
  have bound := height_le_plug (frame :: path) (.node a l r)
  have rep := spot.update distinctNode (by omega)
  have member : a ∈ inorder (BinaryTree.node a l r) := by simp
  have outsidePath : a ∉ pathNodes (frame :: path) := fun other => apart member other
  have outsideSibling : a ∉ inorder frame.sibling := fun other => outsidePath (by simp [pathNodes, other])
  have around1 : PathRep (update h a) (some a) (frame :: path) :=
    around.congr fun x inside => Heap.update_of_ne fun same => outsidePath (same ▸ inside)
  obtain ⟨h2, n, fixed, rep2, frame2⟩ := fixNode_rep rep distinctNode (by omega)
  have around2 : PathRep h2 (some a) (frame :: path) :=
    around1.congr fun x inside => frame2 x fun other => apart other inside
  have around3 := around2.store (some n) distinctPath
  have valueOutside : frame.value ∉ inorder (rebalance (.node a l r)) := by
    rw [inorder_rebalance]
    exact fun other => apart other (by simp [pathNodes])
  have rep3 : Rep (h2.store frame (some n)) (some frame.value) (some n) (rebalance (.node a l r)) := by
    refine rep2.congr fun x inside => Heap.store_of_ne ?_
    rintro rfl
    exact valueOutside inside
  have linked : fixAVL (fuel + 1) h a = fixAVL fuel (h2.store frame (some n)) frame.value := by
    have up : (update h a a).parent = some frame.value := rep.2.1
    have from' : fromOf (update h a) a = some (frame.value, decide ((update h a frame.value).left = some a)) := by
      simp [fromOf, up]
    have above : ((h2.store frame (some n)) n).parent = some frame.value := by
      rw [Heap.store_parent]
      exact rep2.parent_eq
    simp only [fixAVL, from', fixed, Option.bind_eq_bind, Option.bind_some, link_eq around1 outsideSibling, above]
  obtain ⟨l', r', attached, spot'⟩ := frame_open rep3 around3
  refine ⟨h2.store frame (some n), l', r', linked, attached, spot', around3.2.2, fun x outside => ?_⟩
  have away := mem_plug.not.mp outside
  rw [not_or] at away
  rw [Heap.store_of_ne, frame2 x away.1, Heap.update_of_ne]
  · rintro rfl
    exact away.1 (by simp)
  · rintro rfl
    exact away.2 (by simp [pathNodes])

theorem fixAVL_rep (fuel : Nat) {path : List (Frame Addr)} {h : Heap} {a : Addr} {l r : BinaryTree Addr}
    (spot : Open h (pathTop path) a l r) (around : PathRep h (some a) path)
    (distinct : (inorder (plug path (.node a l r))).Nodup)
    (shallow : (plug path (.node a l r)).height + 2 < 2 ^ 32) (enough : path.length < fuel) :
    ∃ h' root, fixAVL fuel h a = some (h', root) ∧ Rep h' none (some root) (climb path (.node a l r)) ∧
      ∀ x ∉ inorder (plug path (.node a l r)), h' x = h x := by
  -- induction on the path: one round of the loop a frame, the root in the empty path
  induction path generalizing h a l r fuel with
  | nil =>
      obtain ⟨fuel, rfl⟩ : ∃ rest, fuel = rest + 1 := ⟨fuel - 1, by omega⟩
      have rep := spot.update distinct (by simp only [plug] at shallow; omega)
      obtain ⟨h2, n, fixed, rep2, frame⟩ := fixNode_rep rep distinct shallow
      have top : fromOf (update h a) a = none := by
        have up : (update h a a).parent = none := rep.2.1
        simp [fromOf, up]
      refine ⟨h2, n, by simp [fixAVL, top, fixed], rep2, fun x outside => ?_⟩
      rw [frame x outside]
      apply Heap.update_of_ne
      rintro rfl
      exact outside (by simp [plug])
  | cons frame path ih =>
      obtain ⟨fuel, rfl⟩ : ∃ rest, fuel = rest + 1 := ⟨fuel - 1, by omega⟩
      obtain ⟨h1, l', r', round, attached, spot', around', frame1⟩ := fixAVL_round fuel spot around distinct shallow
      -- the same nodes and no more height, so the round leaves what the next one asks for
      have whole := inorder_plug_rebalance frame path (.node a l r)
      have lower := height_plug_rebalance frame path (.node a l r)
      rw [climb, round]
      rw [attached] at whole lower ⊢
      obtain ⟨h2, root, done, rep, frame2⟩ := ih fuel spot' around' (by rw [whole]; exact distinct) (by omega)
        (by simp only [List.length_cons] at enough; omega)
      refine ⟨h2, root, done, rep, fun x outside => ?_⟩
      rw [frame2 x (by rw [whole]; exact outside), frame1 x outside]

end Coxx.Avl
