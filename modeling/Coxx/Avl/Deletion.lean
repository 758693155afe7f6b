import Coxx.Avl.Rotation

/-! Deletion from a represented tree: what `delAVL` returns, and that the tree stays balanced. -/

set_option autoImplicit false

namespace Coxx.Avl

open Library BinaryTree

theorem leftmost_rep {tree : BinaryTree Addr} {h : Heap} {path : List (Frame Addr)} {root : Addr} {limit : Nat}
    (rep : Rep h (pathTop path) (some root) tree) (around : PathRep h (some root) path)
    (enough : tree.height ≤ limit + 1) :
    ∃ path' victim right, leftmost limit h root = some victim ∧
      plug path' (.node victim .nil right) = plug path tree ∧
      Rep h (pathTop path') (some victim) (.node victim .nil right) ∧ PathRep h (some victim) path' ∧
      before path' = before path ∧ inorder tree ++ after path = victim :: (inorder right ++ after path') ∧
      right.numNodes < tree.numNodes := by
  induction tree generalizing path root limit with
  | nil => cases rep
  | node a left right ihLeft _ =>
      obtain ⟨start, up, depth, count, l, r⟩ := id rep
      cases start
      -- no left child: this is the first node; otherwise the path gains a frame
      cases left with
      | nil =>
          have stop : (h a).left = none := l
          refine ⟨path, a, right, ?_, rfl, rep, around, rfl, by simp, by simp⟩
          rw [leftmost.eq_def, stop]
      | node b ll lr =>
          have next : (h a).left = some b := l.1
          obtain ⟨limit, rfl⟩ : ∃ rest, limit = rest + 1 := ⟨limit - 1, by simp only [height] at enough; omega⟩
          rw [next] at l
          obtain ⟨path', victim, right', found, plugged, rep', around', order, tail, small⟩ :=
            @ihLeft (⟨.left, a, right⟩ :: path) _ limit l ⟨⟨next, r⟩, up, around⟩
              (by simp only [height] at enough ⊢; omega)
          refine ⟨path', victim, right', ?_, plugged, rep', around', order, ?_, ?_⟩
          · rw [leftmost.eq_def, next]
            exact found
          · simp only [after, inorder_node, List.append_assoc, List.cons_append] at tail ⊢
            exact tail
          · simp only [numNodes] at small ⊢
            omega

/-- The first half of `takeOver`: the victim copies the record of the node, then the two subtrees learn of their new
parent. -/
def settle (h : Heap) (victim node : Addr) : Heap :=
  let h : Heap := Function.update h victim (h node)
  let h := h.adopt (h victim).left (some victim)
  h.adopt (h victim).right (some victim)

theorem takeOver_eq (h : Heap) (root : Option Addr) (victim node : Addr) :
    takeOver h root victim node =
      match (settle h victim node node).parent with
      | some parent => ((settle h victim node).replaceChild parent node (some victim), root)
      | none => (settle h victim node, some victim) := rfl

theorem settle_open {h : Heap} {parent : Option Addr} {a v : Addr} {l r : BinaryTree Addr} (spot : Open h parent a l r)
    (distinct : (inorder (.node a l r)).Nodup) (outside : v ∉ inorder (.node a l r)) :
    Open (settle h v a) parent v l r ∧ settle h v a v = h a ∧
      ∀ x, x ≠ v → x ∉ inorder l → x ∉ inorder r → settle h v a x = h x := by
  simp only [inorder_node, List.mem_append, List.mem_cons, not_or, List.nodup_append', List.nodup_cons,
    List.disjoint_cons_right] at distinct outside
  obtain ⟨distinctL, ⟨aNotR, distinctR⟩, aNotL, disjoint⟩ := distinct
  obtain ⟨vNotL, vNeA, vNotR⟩ := outside
  set h2 : Heap := Function.update h v (h a) with named2
  have same2 : ∀ x, x ≠ v → h2 x = h x := fun x away => by simp [named2, away]
  have at2 : h2 v = h a := by simp [named2]
  have rep2L : Rep h2 (some a) (h a).left l :=
    spot.left.congr fun x member => same2 x fun same => vNotL (same ▸ member)
  have rep2R : Rep h2 (some a) (h a).right r :=
    spot.right.congr fun x member => same2 x fun same => vNotR (same ▸ member)
  set h3 := h2.adopt (h2 v).left (some v) with named3
  have same3 : ∀ x ∉ inorder l, h3 x = h2 x := fun x away =>
    Heap.adopt_of_ne fun same => away (spot.left.root_mem (at2 ▸ same))
  have rep3L : Rep h3 (some v) (h a).left l := by
    rw [named3, at2]
    exact rep2L.adopt distinctL _
  have rep3R : Rep h3 (some a) (h a).right r :=
    rep2R.congr fun x member => same3 x fun other => disjoint other member
  have at3 : h3 v = h a := by rw [same3 v vNotL, at2]
  have named4 : settle h v a = h3.adopt (h3 v).right (some v) := rfl
  have same4 : ∀ x ∉ inorder r, settle h v a x = h3 x := fun x away =>
    Heap.adopt_of_ne fun same => away (spot.right.root_mem (at3 ▸ same))
  have rep4R : Rep (settle h v a) (some v) (h a).right r := by
    rw [named4, at3]
    exact rep3R.adopt distinctR _
  have rep4L : Rep (settle h v a) (some v) (h a).left l :=
    rep3L.congr fun x member => same4 x fun other => disjoint member other
  have at4 : settle h v a v = h a := by rw [same4 v vNotR, at3]
  refine ⟨⟨by rw [at4]; exact spot.parent, by rwa [at4], by rwa [at4]⟩, at4, fun x notV notL notR => ?_⟩
  rw [same4 x notR, same3 x notL, same2 x notV]

/-- `takeOver` puts the victim in the place of a node, with its subtrees and its caches. -/
theorem takeOver_rep {h : Heap} {root : Option Addr} {path : List (Frame Addr)} {a v : Addr}
    {l r : BinaryTree Addr} (rep : Rep h none root (plug path (.node a l r)))
    (distinct : (inorder (plug path (.node a l r))).Nodup) (outside : v ∉ inorder (plug path (.node a l r))) :
    ∃ h' root', takeOver h root v a = (h', root') ∧ Rep h' none root' (plug path (.node v l r)) ∧
      ∀ x ∉ v :: inorder (plug path (.node a l r)), h' x = h x := by
  obtain ⟨hole, here, around, cached, rfl⟩ := rep_plug.mp rep
  obtain ⟨rfl, depth, count, spot⟩ := rep_node.mp here
  obtain ⟨distinctNode, distinctPath, apart⟩ := nodup_plug distinct
  rw [mem_plug, not_or] at outside
  obtain ⟨vOut, vPath⟩ := outside
  obtain ⟨settled, atV, frameV⟩ := settle_open spot distinctNode vOut
  simp only [inorder_node, List.mem_append, List.mem_cons, not_or, List.nodup_append', List.nodup_cons,
    List.disjoint_cons_right] at distinctNode vOut
  have aPath : a ∉ pathNodes path := fun other => apart (by simp) other
  have up : (settle h v a a).parent = pathTop path := by
    rw [frameV a (Ne.symm vOut.2.1) distinctNode.2.2.1 distinctNode.2.1.1, spot.parent]
  have pathSame : ∀ x ∈ pathNodes path, settle h v a x = h x := fun x member =>
    frameV x (fun same => vPath (same ▸ member)) (fun other => apart (by simp [other]) member)
      (fun other => apart (by simp [other]) member)
  have around' : PathRep (settle h v a) (some a) path := around.congr pathSame
  have repV : Rep (settle h v a) (pathTop path) (some v) (.node v l r) :=
    rep_node.mpr ⟨rfl, by rw [atV]; exact depth, by rw [atV]; exact count, settled⟩
  rw [takeOver_eq, up]
  cases path with
  | nil =>
      refine ⟨settle h v a, some v, rfl, repV, fun x away => ?_⟩
      simp only [plug, inorder_node, List.mem_cons, List.mem_append, not_or] at away
      exact frameV x away.1 away.2.1 away.2.2.2
  | cons frame path =>
      have parentOut : frame.value ∉ inorder (BinaryTree.node v l r) := by
        have parentNotV : frame.value ≠ v := fun same => vPath (by simp [pathNodes, same])
        have old : frame.value ∉ inorder (BinaryTree.node a l r) := fun other => apart other (by simp [pathNodes])
        simp only [inorder_node, List.mem_append, List.mem_cons, not_or] at old ⊢
        exact ⟨old.1, parentNotV, old.2.2⟩
      have stored : (settle h v a).replaceChild frame.value a (some v) = (settle h v a).store frame (some v) :=
        replaceChild_eq around'.1 fun other => aPath (by simp [pathNodes, other])
      have same : ∀ x, x ≠ frame.value → (settle h v a).store frame (some v) x = settle h v a x := fun x away =>
        Heap.store_of_ne away
      refine ⟨(settle h v a).store frame (some v), rootOf (frame :: path) (some a), Prod.ext stored rfl, ?_, fun x away => ?_⟩
      · refine rep_plug.mpr ⟨some v, ?_, around'.store _ distinctPath, ?_, rfl⟩
        · exact repV.congr fun x member => same x fun other => parentOut (other ▸ member)
        · refine cached.congr rfl rfl fun x member => ?_
          rw [← pathSame x member]
          exact Heap.store_caches
      · rw [List.mem_cons, not_or, mem_plug, not_or] at away
        obtain ⟨notV, notNode, notPath⟩ := away
        simp only [inorder_node, List.mem_append, List.mem_cons, not_or] at notNode
        rw [same x fun other => notPath (by simp [pathNodes, other]), frameV x notV notNode.1 notNode.2.2]

theorem takeOver_order {h : Heap} {root : Option Addr} {tree : BinaryTree Addr} {a v : Addr} {front back : List Addr}
    (rep : Rep h none root tree) (distinct : (inorder tree).Nodup) (balanced : Balanced tree)
    (here : inorder tree = front ++ a :: back) (outside : v ∉ inorder tree) :
    ∃ h' root' tree', takeOver h root v a = (h', root') ∧ Rep h' none root' tree' ∧ Balanced tree' ∧
      inorder tree' = front ++ v :: back ∧ ∀ x ∉ v :: inorder tree, h' x = h x := by
  obtain ⟨path, l, r, rfl⟩ := exists_plug (show a ∈ inorder tree by simp [here])
  obtain ⟨h', root', taken, rep', frame⟩ := takeOver_rep rep distinct outside
  have split : before path ++ inorder l ++ a :: (inorder r ++ after path) = front ++ a :: back := by
    rw [← here, inorder_plug]
    simp
  have unique : a ∉ front ++ back := (List.nodup_cons.mp (List.nodup_middle.mp (here ▸ distinct))).1
  rw [List.mem_append, not_or] at unique
  -- the node occurs once, so what surrounds it on its path is what surrounds it in order
  obtain ⟨rfl, _, rfl⟩ := (List.append_cons_inj_of_notMem unique.1 unique.2).mp split.symm
  obtain ⟨nodeBalanced, aroundBalanced⟩ := balanced_plug.mp balanced
  refine ⟨h', root', plug path (.node v l r), taken, rep', balanced_plug.mpr ⟨nodeBalanced, aroundBalanced⟩, ?_, frame⟩
  rw [inorder_plug]
  simp

/-- The node without a right subtree: its left subtree moves up, and the climb starts at its parent. -/
theorem unlink_rep {h : Heap} {frame : Frame Addr} {path : List (Frame Addr)} {a : Addr} {l : BinaryTree Addr}
    {limit : Nat} (rep : Rep h (some frame.value) (some a) (.node a l .nil))
    (around : PathRep h (some a) (frame :: path))
    (distinct : (inorder (plug (frame :: path) (.node a l .nil))).Nodup)
    (balanced : Balanced (plug (frame :: path) (.node a l .nil)))
    (shallow : (plug (frame :: path) (.node a l .nil)).height + 2 < 2 ^ 32)
    (reach : (plug (frame :: path) (.node a l .nil)).height ≤ limit) :
    ∃ h' root, fixAVL limit ((h.adopt (h a).left (some frame.value)).replaceChild frame.value a (h a).left)
        frame.value = some (h', root) ∧
      Rep h' none (some root) (climb path (frame.attach l)) ∧ Balanced (climb path (frame.attach l)) ∧
      ∀ x ∉ inorder (plug (frame :: path) (.node a l .nil)), h' x = h x := by
  have spot := (rep_node.mp rep).2.2.2
  obtain ⟨distinctNode, distinctPath, apart⟩ := nodup_plug distinct
  have distinctL : (inorder l).Nodup := (List.nodup_append'.mp distinctNode).1
  have aPath : a ∉ pathNodes (frame :: path) := fun other => apart (by simp) other
  have apartL : (inorder l).Disjoint (pathNodes (frame :: path)) := fun x inside =>
    apart (show x ∈ inorder (BinaryTree.node a l .nil) by simp [inside])
  have valueOut : frame.value ∉ inorder l := fun other => apartL other (by simp [pathNodes])
  set h1 := h.adopt (h a).left (some frame.value) with named1
  have same1 : ∀ x ∉ inorder l, h1 x = h x := fun x away =>
    Heap.adopt_of_ne fun same => away (spot.left.root_mem same)
  have around1 : PathRep h1 (some a) (frame :: path) := around.congr fun x member =>
    same1 x fun other => apartL other member
  have rep1 : Rep h1 (some frame.value) (h a).left l := spot.left.adopt distinctL _
  rw [replaceChild_eq around1.1 fun other => aPath (by simp [pathNodes, other])]
  have around2 := around1.store (h a).left distinctPath
  have rep2 : Rep (h1.store frame (h a).left) (some frame.value) (h a).left l :=
    rep1.congr fun x member => Heap.store_of_ne fun same => valueOut (same ▸ member)
  obtain ⟨l', r', attached, spot'⟩ := frame_open rep2 around2
  have oldNodes : inorder (plug (frame :: path) (.node a l .nil)) =
      before (frame :: path) ++ (inorder l ++ a :: after (frame :: path)) := by
    rw [inorder_plug]; simp
  have newNodes : inorder (plug path (frame.attach l)) =
      before (frame :: path) ++ (inorder l ++ after (frame :: path)) := inorder_plug (frame :: path) l
  have sub : (inorder (plug path (frame.attach l))).Sublist (inorder (plug (frame :: path) (.node a l .nil))) := by
    rw [oldNodes, newNodes]
    exact (List.Sublist.refl _).append ((List.Sublist.refl _).append (List.sublist_cons_self _ _))
  have lower : (plug path (frame.attach l)).height ≤ (plug (frame :: path) (.node a l .nil)).height :=
    height_plug_mono (frame :: path) (by simp)
  have far := height_le_plug (frame :: path) (.node a l .nil)
  simp only [List.length_cons, height] at far
  have shape : Balanced (climb path (frame.attach l)) := by
    have node := (balanced_plug.mp balanced).1
    exact climb_shrunk balanced node.2.1 (by simp) (by simp)
  rw [attached] at sub lower shape ⊢
  obtain ⟨h3, root, done, rep3, frame3⟩ := fixAVL_rep limit spot' around2.2.2 (distinct.sublist sub)
    (by omega) (by omega)
  refine ⟨h3, root, done, rep3, shape, fun x outside => ?_⟩
  have away := mem_plug.not.mp outside
  rw [not_or] at away
  rw [frame3 x fun other => outside (sub.subset other), Heap.store_of_ne, same1]
  · exact fun other => away.1 (by simp [other])
  · rintro rfl
    exact away.2 (by simp [pathNodes])

theorem delAVL_unlinks (limit fuel : Nat) {h : Heap} {path : List (Frame Addr)} {a : Addr} {l : BinaryTree Addr}
    (rep : Rep h (pathTop path) (some a) (.node a l .nil)) (around : PathRep h (some a) path)
    (distinct : (inorder (plug path (.node a l .nil))).Nodup) (balanced : Balanced (plug path (.node a l .nil)))
    (shallow : (plug path (.node a l .nil)).height + 2 < 2 ^ 32) (reach : (plug path (.node a l .nil)).height ≤ limit) :
    ∃ h' root tree, delAVL limit (fuel + 1) h a = some (h', root) ∧ Rep h' none root tree ∧ Balanced tree ∧
      inorder tree = before path ++ (inorder l ++ after path) ∧
      ∀ x ∉ inorder (plug path (.node a l .nil)), h' x = h x := by
  have spot := (rep_node.mp rep).2.2.2
  have noRight : (h a).right = none := spot.right
  cases path with
  | nil =>
      have up : (h a).parent = none := spot.parent
      have distinctL : (inorder l).Nodup := (List.nodup_append'.mp distinct).1
      refine ⟨h.adopt (h a).left none, (h a).left, l, ?_, spot.left.adopt distinctL none, balanced.2.1,
        by simp [before, after], fun x outside => ?_⟩
      · simp [delAVL, noRight, up]
      · refine Heap.adopt_of_ne fun same => outside ?_
        simp [plug, spot.left.root_mem same]
  | cons frame path =>
      have up : (h a).parent = some frame.value := spot.parent
      obtain ⟨h', root, done, rep', balanced', frame'⟩ := unlink_rep rep around distinct balanced shallow reach
      refine ⟨h', some root, climb path (frame.attach l), ?_, rep', balanced', ?_, frame'⟩
      · simp [delAVL, noRight, up, done]
      · rw [inorder_climb, ← plug, inorder_plug]

theorem delAVL_path (limit fuel : Nat) {h : Heap} {path : List (Frame Addr)} {a : Addr} {l r : BinaryTree Addr}
    (rep : Rep h (pathTop path) (some a) (.node a l r)) (around : PathRep h (some a) path)
    (distinct : (inorder (plug path (.node a l r))).Nodup) (balanced : Balanced (plug path (.node a l r)))
    (shallow : (plug path (.node a l r)).height + 2 < 2 ^ 32) (reach : (plug path (.node a l r)).height ≤ limit)
    (enough : r.numNodes < fuel) :
    ∃ h' root tree, delAVL limit fuel h a = some (h', root) ∧ Rep h' none root tree ∧ Balanced tree ∧
      inorder tree = before path ++ (inorder l ++ (inorder r ++ after path)) ∧
      ∀ x ∉ inorder (plug path (.node a l r)), h' x = h x := by
  -- induction on the depth of the recursion: the successor's right subtree is smaller than `r`
  induction fuel generalizing h path a l r with
  | zero => omega
  | succ fuel ih =>
      have spot := (rep_node.mp rep).2.2.2
      cases r with
      | nil => exact delAVL_unlinks limit fuel rep around distinct balanced shallow reach
      | node b m rr =>
          -- the victim is the first node of the right subtree, seen from the path through the node itself
          have start : (h a).right = some b := spot.right.1
          have rightRep := spot.right
          rw [start] at rightRep
          have bound := height_le_plug path (.node a l (.node b m rr))
          obtain ⟨path', victim, vr, found, plugged, repV, aroundV, order, tail, small⟩ :=
            @leftmost_rep _ _ (⟨.right, a, l⟩ :: path) _ limit rightRep
              ⟨⟨start, spot.left⟩, spot.parent, around⟩ (by simp only [height] at bound ⊢; omega)
          have whole : plug (⟨.right, a, l⟩ :: path) (.node b m rr) = plug path (.node a l (.node b m rr)) := rfl
          rw [whole] at plugged
          rw [← plugged] at distinct balanced shallow reach
          obtain ⟨h1, root1, tree1, deleted, rep1, balanced1, order1, frame1⟩ :=
            ih repV aroundV distinct balanced shallow reach (by omega)
          simp only [before] at order
          simp only [after] at tail
          have here : inorder tree1 = before path ++ inorder l ++ a :: (inorder vr ++ after path') := by
            rw [order1, order]
            simp
          have victimOut : victim ∉ inorder tree1 := by
            rw [inorder_plug] at distinct
            rw [order1]
            simp only [inorder_node, inorder_nil, List.nil_append, List.nodup_append', List.cons_append,
              List.nodup_cons, List.mem_append, List.disjoint_cons_right] at distinct ⊢
            tauto
          have sub : (inorder tree1).Sublist (inorder (plug path' (.node victim .nil vr))) := by
            rw [order1, inorder_plug]
            exact (List.Sublist.refl _).append (by simp)
          -- rebalancing may have moved the node, but not in order
          obtain ⟨h2, root2, tree2, taken, rep2, balanced2, order2, frame2⟩ :=
            takeOver_order rep1 (distinct.sublist sub) balanced1 here victimOut
          refine ⟨h2, root2, tree2, ?_, rep2, balanced2, ?_, ?_⟩
          · simp [delAVL, start, found, deleted, taken]
          · rw [order2, ← tail]
            simp
          · intro x outside
            rw [← plugged] at outside
            have notVictim : x ≠ victim := by
              rintro rfl
              exact outside (by rw [mem_plug]; simp)
            rw [frame2 x (by simp [notVictim]; exact fun other => outside (sub.subset other)), frame1 x outside]

/-- A heap holds a whole tree: every link and every cache is right, no node occurs twice, and it is balanced. -/
structure Holds (h : Heap) (root : Option Addr) (tree : BinaryTree Addr) : Prop where
  rep : Rep h none root tree
  distinct : (inorder tree).Nodup
  balanced : Balanced tree

theorem Holds.shallow {h : Heap} {root : Option Addr} {tree : BinaryTree Addr} (holds : Holds h root tree)
    (fits : tree.numNodes + 1 < 2 ^ 64) : tree.height < 128 :=
  holds.balanced.height_lt (k := 64) fits

theorem Holds.congr {h other : Heap} {root : Option Addr} {tree : BinaryTree Addr} (holds : Holds h root tree)
    (same : ∀ x ∈ inorder tree, other x = h x) : Holds other root tree :=
  ⟨holds.rep.congr same, holds.distinct, holds.balanced⟩

theorem delAVL_holds (limit fuel : Nat) {h : Heap} {root : Option Addr} {tree : BinaryTree Addr} {a : Addr}
    (holds : Holds h root tree) (fits : tree.numNodes + 1 < 2 ^ 64) (member : a ∈ inorder tree)
    (far : tree.height ≤ limit) (enough : tree.numNodes ≤ fuel) :
    ∃ h' root' tree', delAVL limit fuel h a = some (h', root') ∧ Holds h' root' tree' ∧
      inorder tree' = (inorder tree).erase a ∧ ∀ x ∉ inorder tree, h' x = h x := by
  have shallow := holds.shallow fits
  obtain ⟨path, l, r, rfl⟩ := exists_plug member
  obtain ⟨hole, here, around, _, _⟩ := rep_plug.mp holds.rep
  obtain ⟨rfl, _⟩ := rep_node.mp here
  have inside : r.numNodes < (plug path (.node a l r)).numNodes := by
    rw [← length_inorder (plug path _), inorder_plug]
    simp
    omega
  obtain ⟨h', root', tree', done, rep', balanced', order, frame⟩ :=
    delAVL_path limit fuel here around holds.distinct holds.balanced (by omega) far (by omega)
  have whole : inorder (plug path (.node a l r)) = (before path ++ inorder l) ++ a :: (inorder r ++ after path) := by
    rw [inorder_plug]; simp
  have erased : inorder tree' = (inorder (plug path (.node a l r))).erase a := by
    have outside : a ∉ before path ++ inorder l := by
      have split := List.nodup_middle.mp (whole ▸ holds.distinct)
      exact fun other => (List.nodup_cons.mp split).1 (List.mem_append_left _ other)
    rw [whole, List.erase_append_right _ outside, List.erase_cons_head, order]
    simp
  refine ⟨h', root', tree', done, ⟨rep', ?_, balanced'⟩, erased, frame⟩
  rw [erased]
  exact holds.distinct.erase a

/-! ### Well-formed trees -/

/-- A tree whose counts do not wrap: parents, depths and counts are exact, and it is balanced. -/
structure WellFormed (h : Heap) (root : Option Addr) (tree : BinaryTree Addr) : Prop extends Holds h root tree where
  small : tree.numNodes < 2 ^ 32

section WellFormed

variable {h : Heap} {root : Option Addr} {tree : BinaryTree Addr}

theorem WellFormed.count_eq (wf : WellFormed h root tree) : count h root = tree.numNodes := by
  rw [wf.rep.count_eq, Nat.mod_eq_of_lt wf.small]

theorem Holds.links (holds : Holds h root tree) {x y : Addr} (member : x ∈ inorder tree) (outside : y ∉ inorder tree) :
    (h x).left ≠ some y ∧ (h x).right ≠ some y ∧ (h x).parent ≠ some y := by
  obtain ⟨left, right, up⟩ := @Rep.links _ _ _ _ holds.rep x y member
  exact ⟨fun same => outside (left same), fun same => outside (right same), fun same => by
    rcases up same with above | inside
    · cases above
    · exact outside inside⟩

/-- Deleting a node of a well-formed tree leaves a well-formed tree of the other nodes, in their order, and no pointer
to the node in it. -/
theorem delAVL_removes {a : Addr} {limit fuel : Nat} (wf : WellFormed h root tree) (member : a ∈ inorder tree)
    (far : tree.height ≤ limit) (enough : tree.numNodes ≤ fuel) :
    ∃ h' root' tree', delAVL limit fuel h a = some (h', root') ∧ WellFormed h' root' tree' ∧
      inorder tree' = (inorder tree).erase a ∧ (root' = none ↔ tree.numNodes = 1) ∧
      (∀ x ∈ inorder tree', (h' x).left ≠ some a ∧ (h' x).right ≠ some a ∧ (h' x).parent ≠ some a) ∧
      ∀ x ∉ inorder tree, h' x = h x := by
  have small := wf.small
  obtain ⟨h', root', tree', deleted, holds, order, frame⟩ := delAVL_holds limit fuel wf.toHolds (by omega) member far enough
  have size := List.length_erase_of_mem member
  rw [← order, length_inorder, length_inorder] at size
  have outside : a ∉ inorder tree' := by
    rw [order]
    exact wf.distinct.not_mem_erase
  refine ⟨h', root', tree', deleted, ⟨holds, by omega⟩, order, ?_, fun x inside => holds.links inside outside, frame⟩
  have some' : 0 < tree.numNodes := by
    rw [← length_inorder]
    exact List.length_pos_of_mem member
  rw [holds.rep.root_none]
  cases tree' with
  | nil =>
      simp only [numNodes] at size
      simp only [true_iff]
      omega
  | node b l r =>
      simp only [numNodes] at size
      simp only [reduceCtorEq, false_iff]
      omega

end WellFormed

def threeNodes : Heap := fun a =>
  if a = 1 then { depth := 2, count := 3, left := some 0, right := some 2, parent := none }
  else { init with parent := some 1 }

theorem threeNodes_wellFormed :
    WellFormed threeNodes (some 1) (.node 1 (.node 0 .nil .nil) (.node 2 .nil .nil)) where
  rep := by simp [Rep, threeNodes, init]
  distinct := by decide
  balanced := by simp [Near]
  small := by decide

theorem delAVL_removes_root : ∃ h' root' tree', delAVL 2 3 threeNodes 1 = some (h', root') ∧
    WellFormed h' root' tree' ∧ inorder tree' = [0, 2] := by
  obtain ⟨h', root', tree', deleted, wf, order, _⟩ :=
    delAVL_removes threeNodes_wellFormed (show 1 ∈ _ by decide) (show _ ≤ 2 by decide) (show _ ≤ 3 by decide)
  exact ⟨h', root', tree', deleted, wf, order⟩

end Coxx.Avl
