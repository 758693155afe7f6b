import Coxx.Avl.Deletion

/-! Offsets in a represented tree: `offsetAVL` finds the node at a relative position in order. -/

set_option autoImplicit false

namespace Coxx.Avl

open Library BinaryTree

/-- Reading a list at a signed position. -/
def nth (xs : List Addr) (i : Int) : Option Addr :=
  if i < 0 then none else xs[i.toNat]?

theorem nth_append_right {xs ys : List Addr} {i : Int} (inside : 0 ≤ i) : nth (xs ++ ys) (xs.length + i) = nth ys i := by
  obtain ⟨n, rfl⟩ := Int.eq_ofNat_of_zero_le inside
  have cast : ((xs.length : Int) + (n : Int)).toNat = xs.length + n := by omega
  rw [nth, nth, if_neg (by omega), if_neg (by omega), cast, List.getElem?_append_right (by omega)]
  simp

theorem nth_append_left {xs ys : List Addr} {i : Int} (inside : i < xs.length) : nth (xs ++ ys) i = nth xs i := by
  unfold nth
  split
  · rfl
  · rw [List.getElem?_append_left (by omega)]

theorem nth_cons_succ {x : Addr} {xs : List Addr} {i : Int} (inside : 0 ≤ i) : nth (x :: xs) (i + 1) = nth xs i := by
  obtain ⟨n, rfl⟩ := Int.eq_ofNat_of_zero_le inside
  have cast : ((n : Int) + 1).toNat = n + 1 := by omega
  rw [nth, nth, if_neg (by omega), if_neg (by omega), cast]
  simp

theorem nth_outside {xs : List Addr} {i : Int} (outside : i < 0 ∨ xs.length ≤ i) : nth xs i = none := by
  unfold nth
  split
  · rfl
  · exact List.getElem?_eq_none (by omega)

@[simp] theorem nth_middle {xs ys : List Addr} {x : Addr} : nth (xs ++ x :: ys) xs.length = some x := by
  simp [nth]

theorem int64_of {value : Int} (low : -2 ^ 63 ≤ value) (high : value < 2 ^ 63) : int64 value = some value :=
  if_pos ⟨low, high⟩

section Targets

variable {h : Heap} {parent : Option Addr} {a : Addr} {l r : BinaryTree Addr} {pos : Int}

theorem targetRight_mod (offset : Int) (spot : Open h parent a l r) (low : -2 ^ 62 ≤ pos) (high : pos ≤ 2 ^ 62) :
    targetRight h a offset pos = some (decide (pos < offset ∧ offset ≤ pos + (r.numNodes % 2 ^ 32 : Nat))) := by
  unfold targetRight
  rw [spot.right.count_eq]
  split
  · rename_i ahead
    rw [int64_of (by omega) (by omega)]
    simp [ahead]
  · rename_i behind
    simp [behind]

theorem targetLeft_mod (offset : Int) (spot : Open h parent a l r) (low : -2 ^ 62 ≤ pos) (high : pos ≤ 2 ^ 62) :
    targetLeft h a offset pos = some (decide (offset < pos ∧ pos - (l.numNodes % 2 ^ 32 : Nat) ≤ offset)) := by
  unfold targetLeft
  rw [spot.left.count_eq]
  split
  · rename_i ahead
    rw [int64_of (by omega) (by omega)]
    simp [ahead]
  · rename_i behind
    have : ¬offset < pos := by omega
    simp [this]

end Targets

/-! ### One step of the loop -/

section Step

variable {h : Heap} {parent : Option Addr} {a c : Addr} {l r ll lr rl rr : BinaryTree Addr} {offset pos : Int} {fuel : Nat}

/-- A target in the right subtree, by the counts as they are stored, sends the loop there. -/
theorem offsetAVL_right_mod (spot : Open h parent a l (.node c rl rr)) (low : -2 ^ 62 ≤ pos) (high : pos ≤ 2 ^ 62)
    (ahead : pos < offset) (inside : offset ≤ pos + ((rl.numNodes + rr.numNodes + 1) % 2 ^ 32 : Nat)) :
    offsetAVL (fuel + 1) h a offset pos = offsetAVL fuel h c offset (pos + ((rl.numNodes + 1) % 2 ^ 32 : Nat)) := by
  have below := spot.right
  have start := below.1
  rw [start] at below
  have cached := (rep_node.mp below).2.2.2.left.count_eq
  rw [offsetAVL.eq_def, if_neg (by omega)]
  simp only [targetRight_mod offset spot low high, Option.bind_eq_bind, Option.bind_some, decide_eq_true_eq]
  rw [if_pos ⟨ahead, inside⟩]
  simp only [start, Option.bind_some, cached, Nat.mod_add_mod]
  rw [int64_of (by omega) (by omega), Option.bind_some]

theorem offsetAVL_left_mod (spot : Open h parent a (.node c ll lr) r) (low : -2 ^ 62 ≤ pos) (high : pos ≤ 2 ^ 62)
    (behind : offset < pos) (inside : pos - ((ll.numNodes + lr.numNodes + 1) % 2 ^ 32 : Nat) ≤ offset) :
    offsetAVL (fuel + 1) h a offset pos = offsetAVL fuel h c offset (pos - ((lr.numNodes + 1) % 2 ^ 32 : Nat)) := by
  have below := spot.left
  have start := below.1
  rw [start] at below
  have cached := (rep_node.mp below).2.2.2.right.count_eq
  have notRight : ¬(pos < offset ∧ offset ≤ pos + (r.numNodes % 2 ^ 32 : Nat)) := by omega
  rw [offsetAVL.eq_def, if_neg (by omega)]
  simp only [targetRight_mod offset spot low high, targetLeft_mod offset spot low high, Option.bind_eq_bind,
    Option.bind_some, decide_eq_true_eq, if_neg notRight]
  rw [if_pos ⟨behind, inside⟩]
  simp only [start, Option.bind_some, cached, Nat.mod_add_mod]
  rw [int64_of (by omega) (by omega), Option.bind_some]

/-- A target outside the subtree, by the counts as they are stored, sends the loop to the parent. -/
theorem offsetAVL_up_mod (spot : Open h parent a l r) (low : -2 ^ 62 ≤ pos) (high : pos ≤ 2 ^ 62)
    (outside : pos + (r.numNodes % 2 ^ 32 : Nat) < offset ∨ offset < pos - (l.numNodes % 2 ^ 32 : Nat)) :
    offsetAVL (fuel + 1) h a offset pos =
      match parent with
      | none => some none
      | some up =>
        if (h up).right = some a then offsetAVL fuel h up offset (pos - ((l.numNodes + 1) % 2 ^ 32 : Nat))
        else offsetAVL fuel h up offset (pos + ((r.numNodes + 1) % 2 ^ 32 : Nat)) := by
  have countL := spot.left.count_eq
  have countR := spot.right.count_eq
  have notHere : ¬offset = pos := by omega
  have notRight : ¬(pos < offset ∧ offset ≤ pos + (r.numNodes % 2 ^ 32 : Nat)) := by omega
  have notLeft : ¬(offset < pos ∧ pos - (l.numNodes % 2 ^ 32 : Nat) ≤ offset) := by omega
  rw [offsetAVL.eq_def, if_neg notHere]
  simp only [targetRight_mod offset spot low high, targetLeft_mod offset spot low high, Option.bind_eq_bind,
    Option.bind_some, decide_eq_true_eq, if_neg notRight, if_neg notLeft, spot.parent, countL, countR, Nat.mod_add_mod]
  cases parent with
  | none => rfl
  | some up =>
      rw [int64_of (by omega) (by omega), int64_of (by omega) (by omega)]
      rfl

end Step

theorem offsetAVL_down {tree : BinaryTree Addr} {h : Heap} {parent : Option Addr} {a : Addr} {offset pos : Int}
    {fuel : Nat} (rep : Rep h parent (some a) tree) (small : tree.numNodes < 2 ^ 32)
    (low : -2 ^ 32 ≤ pos - tree.left.numNodes) (high : pos + tree.right.numNodes ≤ 2 ^ 32)
    (after : pos - tree.left.numNodes ≤ offset) (before : offset ≤ pos + tree.right.numNodes)
    (enough : tree.height ≤ fuel) :
    offsetAVL fuel h a offset pos = some (nth (inorder tree) (tree.left.numNodes + (offset - pos))) := by
  induction tree generalizing parent a pos fuel with
  | nil => cases rep
  | node b l r ihLeft ihRight =>
      obtain ⟨start, _, _, spot⟩ := rep_node.mp rep
      cases start
      simp only [BinaryTree.left, BinaryTree.right, numNodes, height] at *
      by_cases here : offset = pos
      · rw [offsetAVL.eq_def, if_pos here, here]
        simp [← length_inorder]
      -- the target is strictly inside one of the two subtrees
      · obtain ⟨fuel, rfl⟩ : ∃ rest, fuel = rest + 1 := ⟨fuel - 1, by omega⟩
        by_cases right : pos < offset
        · cases r with
          | nil => simp at before; omega
          | node c rl rr =>
              simp only [numNodes, height] at *
              have below := spot.right
              rw [below.1] at below
              rw [offsetAVL_right_mod spot (by omega) (by omega) right (by rw [Nat.mod_eq_of_lt (by omega)]; omega),
                Nat.mod_eq_of_lt (by omega : rl.numNodes + 1 < 2 ^ 32),
                ihRight below (by omega) (by push_cast; omega) (by push_cast; omega) (by push_cast; omega)
                  (by push_cast; omega) (by omega)]
              congr 1
              rw [inorder_node b l, ← length_inorder l, nth_append_right (by omega)]
              rw [show offset - pos = (offset - pos - 1) + 1 by ring, nth_cons_succ (by omega)]
              congr 1
              push_cast
              ring
        · cases l with
          | nil => simp at after; omega
          | node c ll lr =>
              simp only [numNodes, height] at *
              have below := spot.left
              rw [below.1] at below
              rw [offsetAVL_left_mod spot (by omega) (by omega) (by omega) (by rw [Nat.mod_eq_of_lt (by omega)]; omega),
                Nat.mod_eq_of_lt (by omega : lr.numNodes + 1 < 2 ^ 32),
                ihLeft below (by omega) (by push_cast; omega) (by push_cast; omega) (by push_cast; omega)
                  (by push_cast; omega) (by omega)]
              congr 1
              rw [inorder_node b, nth_append_left (by simp only [length_inorder, numNodes]; push_cast; omega)]
              congr 1
              push_cast
              ring

theorem size_plug (path : List (Frame Addr)) (a : Addr) (l r : BinaryTree Addr) :
    (inorder (plug path (.node a l r))).length =
      (before path).length + l.numNodes + 1 + (r.numNodes + (after path).length) := by
  rw [inorder_plug]
  simp
  omega

theorem offsetAVL_up {h : Heap} {parent : Option Addr} {a : Addr} {l r : BinaryTree Addr} {offset pos : Int}
    {fuel : Nat} (spot : Open h parent a l r) (small : l.numNodes + 1 + r.numNodes < 2 ^ 32)
    (low : -2 ^ 32 ≤ pos - l.numNodes) (high : pos + r.numNodes ≤ 2 ^ 32)
    (outside : ¬(pos - l.numNodes ≤ offset ∧ offset ≤ pos + r.numNodes)) :
    offsetAVL (fuel + 1) h a offset pos =
      match parent with
      | none => some none
      | some up =>
        if (h up).right = some a then offsetAVL fuel h up offset (pos - (l.numNodes + 1))
        else offsetAVL fuel h up offset (pos + (r.numNodes + 1)) := by
  have left : l.numNodes % 2 ^ 32 = l.numNodes := Nat.mod_eq_of_lt (by omega)
  have right : r.numNodes % 2 ^ 32 = r.numNodes := Nat.mod_eq_of_lt (by omega)
  rw [offsetAVL_up_mod spot (by omega) (by omega) (by rw [left, right]; omega),
    Nat.mod_eq_of_lt (by omega : l.numNodes + 1 < 2 ^ 32), Nat.mod_eq_of_lt (by omega : r.numNodes + 1 < 2 ^ 32)]
  rfl

theorem frame_above {path : List (Frame Addr)} {frame : Frame Addr} {h : Heap} {a : Addr} {l r : BinaryTree Addr}
    (rep : Rep h (pathTop (frame :: path)) (some a) (.node a l r)) (around : PathRep h (some a) (frame :: path))
    (cached : PathCached h (frame :: path) (.node a l r))
    (distinct : (inorder (plug (frame :: path) (.node a l r))).Nodup) :
    Rep h (pathTop path) (some frame.value) (frame.attach (.node a l r)) ∧ PathRep h (some frame.value) path ∧
      PathCached h path (frame.attach (.node a l r)) ∧ ((h frame.value).right = some a ↔ frame.side = .right) := by
  obtain ⟨_, _, apart⟩ := nodup_plug distinct
  obtain ⟨here, up, rest⟩ := around
  obtain ⟨depth, count, cachedRest⟩ := cached
  refine ⟨rep_attach.mpr ⟨rfl, up, depth, count, some a, here, rep⟩, rest, cachedRest, ?_⟩
  have outsideSibling : a ∉ inorder frame.sibling := fun other =>
    apart (show a ∈ inorder (BinaryTree.node a l r) by simp) (by simp [pathNodes, other])
  obtain ⟨side, value, sibling⟩ := frame
  cases side with
  | left => exact iff_of_false (fun same => outsideSibling (here.2.root_mem same)) (by simp)
  | right => exact iff_of_true here.1 rfl

/-- From any node of a tree: a target inside the subtree is below, any other is reached through the parent. -/
theorem offsetAVL_path {path : List (Frame Addr)} {h : Heap} {a : Addr} {l r : BinaryTree Addr} {offset pos : Int}
    {fuel : Nat} (rep : Rep h (pathTop path) (some a) (.node a l r)) (around : PathRep h (some a) path)
    (cached : PathCached h path (.node a l r)) (distinct : (inorder (plug path (.node a l r))).Nodup)
    (small : (inorder (plug path (.node a l r))).length < 2 ^ 32)
    (low : -2 ^ 32 ≤ pos - ((before path).length + l.numNodes))
    (high : pos + (r.numNodes + (after path).length) ≤ 2 ^ 32)
    (enough : path.length + (plug path (.node a l r)).height ≤ fuel) :
    offsetAVL fuel h a offset pos =
      some (nth (inorder (plug path (.node a l r))) ((before path).length + l.numNodes + (offset - pos))) := by
  induction path generalizing a l r pos fuel with
  | nil =>
      have size := size_plug [] a l r
      simp only [plug, before, after, List.length_nil] at *
      by_cases inside : pos - l.numNodes ≤ offset ∧ offset ≤ pos + r.numNodes
      · rw [offsetAVL_down rep (by simp only [numNodes]; omega) (by simp only [BinaryTree.left]; omega)
          (by simp only [BinaryTree.right]; omega) inside.1 inside.2 (by omega)]
        simp [BinaryTree.left]
      · obtain ⟨fuel, rfl⟩ : ∃ rest, fuel = rest + 1 := ⟨fuel - 1, by simp only [height] at enough; omega⟩
        rw [offsetAVL_up (rep_node.mp rep).2.2.2 (by omega) (by omega) (by omega) inside, nth_outside (by omega)]
        rfl
  | cons frame path ih =>
      have size := size_plug (frame :: path) a l r
      by_cases inside : pos - l.numNodes ≤ offset ∧ offset ≤ pos + r.numNodes
      · have deep := height_le_plug (frame :: path) (.node a l r)
        rw [offsetAVL_down rep (by simp only [numNodes]; omega) (by simp only [BinaryTree.left]; omega)
          (by simp only [BinaryTree.right]; omega) inside.1 inside.2 (by omega), inorder_plug, Int.add_assoc,
          nth_append_right (by omega), nth_append_left (by simp only [length_inorder, numNodes]; push_cast; omega)]
        rfl
      · obtain ⟨fuel, rfl⟩ : ∃ rest, fuel = rest + 1 := ⟨fuel - 1, by simp only [List.length_cons] at enough; omega⟩
        rw [offsetAVL_up (rep_node.mp rep).2.2.2 (by omega) (by omega) (by omega) inside]
        -- the loop goes to the parent; its own subtree is one frame larger, its path one frame shorter
        obtain ⟨repUp, rest, cachedRest, isRight⟩ := frame_above rep around cached distinct
        obtain ⟨side, value, sibling⟩ := frame
        simp only [List.length_cons, plug] at enough
        cases side with
        | left =>
            have notRight : (h value).right ≠ some a := by simp [isRight]
            simp only [before, after, List.length_append, List.length_cons, length_inorder, Frame.attach, plug] at *
            rw [pathTop, List.head?_cons, Option.map_some]
            simp only [if_neg notRight]
            rw [ih repUp rest cachedRest distinct small (by simp only [numNodes]; push_cast; omega)
              (by push_cast; omega) (by omega)]
            congr 2
            simp only [numNodes]
            push_cast
            ring
        | right =>
            have ownRight : (h value).right = some a := isRight.mpr rfl
            simp only [before, after, List.length_append, List.length_cons, List.length_nil, length_inorder,
              Frame.attach, plug] at *
            rw [pathTop, List.head?_cons, Option.map_some]
            simp only [if_pos ownRight]
            rw [ih repUp rest cachedRest distinct small (by push_cast; omega)
              (by simp only [numNodes]; push_cast; omega) (by omega)]
            congr 2
            push_cast
            ring

/-- `offsetAVL` from a node of a whole tree returns the node `offset` places further in order, if there is one. -/
theorem offsetAVL_holds {h : Heap} {root : Option Addr} {tree : BinaryTree Addr} {a : Addr} {i : Nat} {offset : Int}
    {fuel : Nat} (holds : Holds h root tree) (small : tree.numNodes < 2 ^ 32) (here : (inorder tree)[i]? = some a)
    (enough : 2 * tree.height ≤ fuel) :
    offsetAVL fuel h a offset 0 = some (nth (inorder tree) (i + offset)) := by
  obtain ⟨path, l, r, rfl⟩ := exists_plug (List.mem_of_getElem? here)
  obtain ⟨hole, rep, around, cached, _⟩ := rep_plug.mp holds.rep
  obtain ⟨rfl, _⟩ := rep_node.mp rep
  have size := size_plug path a l r
  have deep := height_le_plug path (.node a l r)
  have small' : (inorder (plug path (.node a l r))).length < 2 ^ 32 := by rw [length_inorder]; exact small
  have index : i = (before path).length + l.numNodes := by
    have there : (inorder (plug path (.node a l r)))[(before path).length + l.numNodes]? = some a := by
      rw [inorder_plug, List.getElem?_append_right (by omega)]
      simp [← length_inorder]
    exact (List.getElem?_inj (by rw [List.getElem?_eq_some_iff] at here; exact here.1) holds.distinct).mp
      (here.trans there.symm)
  rw [offsetAVL_path rep around cached holds.distinct small' (by omega) (by omega) (by omega), index]
  congr 2
  push_cast
  ring

/-- From the node of rank i, an offset leads to the node of rank i + offset, or to NULL where there is none. The loop
ends, and no sum in it overflows. -/
theorem offsetAVL_rank {h : Heap} {root : Option Addr} {tree : BinaryTree Addr} {a : Addr} {i : Nat} {offset : Int}
    {fuel : Nat} (wf : WellFormed h root tree) (rank : (inorder tree)[i]? = some a) (enough : 2 * tree.height ≤ fuel) :
    (∀ target : Nat, i + offset = target → target < tree.numNodes →
      ∃ b, (inorder tree)[target]? = some b ∧ offsetAVL fuel h a offset 0 = some (some b)) ∧
    (i + offset < 0 ∨ tree.numNodes ≤ i + offset → offsetAVL fuel h a offset 0 = some none) := by
  have found := @offsetAVL_holds _ _ _ _ _ offset _ wf.toHolds wf.small rank enough
  constructor
  · intro target same inside
    rw [← length_inorder] at inside
    refine ⟨(inorder tree)[target], List.getElem?_eq_getElem inside, ?_⟩
    rw [found, same, nth, if_neg (by omega), Int.toNat_natCast, List.getElem?_eq_getElem inside]
  · intro outside
    rw [found, nth_outside (by rw [length_inorder]; exact outside)]

theorem offsetAVL_rank_last : offsetAVL 4 threeNodes 0 2 0 = some (some 2) ∧ offsetAVL 4 threeNodes 0 3 0 = some none := by
  have first : (inorder (.node 1 (.node 0 .nil .nil) (.node 2 .nil .nil)))[0]? = some 0 := rfl
  obtain ⟨b, same, found⟩ :=
    (@offsetAVL_rank _ _ _ _ _ 2 4 threeNodes_wellFormed first (by decide)).1 2 rfl (by decide)
  cases same
  exact ⟨found, (@offsetAVL_rank _ _ _ _ _ 3 4 threeNodes_wellFormed first (by decide)).2 (by decide)⟩

end Coxx.Avl
