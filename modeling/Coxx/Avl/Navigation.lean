import Coxx.Avl.Offset

/-! Offsets in a tree of any size. The stored counts are those of the subtrees modulo 2 ^ 32, and `offsetAVL`
may then miss its target, but it returns, and what it returns lies on the side of the offset.
-/

set_option autoImplicit false

namespace Coxx.Avl

open Library BinaryTree

/-- A target inside a subtree, by the stored counts, is some node of it, on the side of the target. -/
theorem offsetAVL_inside {tree : BinaryTree Addr} {h : Heap} {parent : Option Addr} {a : Addr} {offset pos : Int}
    {fuel : Nat} (rep : Rep h parent (some a) tree) (low : -2 ^ 62 ≤ pos - 2 ^ 32 * tree.height)
    (high : pos + 2 ^ 32 * tree.height ≤ 2 ^ 62) (after : pos - (tree.left.numNodes % 2 ^ 32 : Nat) ≤ offset)
    (before : offset ≤ pos + (tree.right.numNodes % 2 ^ 32 : Nat)) (enough : tree.height ≤ fuel) :
    ∃ x ∈ inorder tree, offsetAVL fuel h a offset pos = some (some x) ∧
      (pos < offset → x ∈ inorder tree.right) ∧ (offset < pos → x ∈ inorder tree.left) ∧ (offset = pos → x = a) := by
  induction tree generalizing parent a pos fuel with
  | nil => cases rep
  | node b l r ihLeft ihRight =>
      obtain ⟨start, _, _, spot⟩ := rep_node.mp rep
      cases start
      simp only [BinaryTree.left, BinaryTree.right, height] at *
      by_cases here : offset = pos
      · refine ⟨b, by simp, ?_, by omega, by omega, fun _ => rfl⟩
        rw [offsetAVL.eq_def, if_pos here]
      · obtain ⟨fuel, rfl⟩ : ∃ rest, fuel = rest + 1 := ⟨fuel - 1, by omega⟩
        by_cases right : pos < offset
        · cases r with
          | nil => simp at before; omega
          | node c rl rr =>
              simp only [numNodes, height] at *
              have below := spot.right
              rw [below.1] at below
              rw [offsetAVL_right_mod spot (by omega) (by omega) right before]
              obtain ⟨x, inside, found, _⟩ := @ihRight _ _ (pos + ((rl.numNodes + 1) % 2 ^ 32 : Nat)) fuel below
                (by omega) (by omega) (by omega) (by omega) (by omega)
              exact ⟨x, List.mem_append_right _ (List.mem_cons_of_mem _ inside), found, fun _ => inside, by omega, by omega⟩
        · cases l with
          | nil => simp at after; omega
          | node c ll lr =>
              simp only [numNodes, height] at *
              have below := spot.left
              rw [below.1] at below
              rw [offsetAVL_left_mod spot (by omega) (by omega) (by omega) after]
              obtain ⟨x, inside, found, _⟩ := @ihLeft _ _ (pos - ((lr.numNodes + 1) % 2 ^ 32 : Nat)) fuel below
                (by omega) (by omega) (by omega) (by omega) (by omega)
              exact ⟨x, List.mem_append_left _ inside, found, by omega, fun _ => inside, by omega⟩

/-- A target outside a subtree, by the stored counts, is looked for along the path, and only on its side. -/
theorem offsetAVL_outside {path : List (Frame Addr)} {h : Heap} {a : Addr} {l r : BinaryTree Addr} {offset pos : Int}
    {fuel : Nat} (rep : Rep h (pathTop path) (some a) (.node a l r)) (around : PathRep h (some a) path)
    (cached : PathCached h path (.node a l r)) (distinct : (inorder (plug path (.node a l r))).Nodup)
    (low : -2 ^ 62 ≤ pos - 2 ^ 32 * (path.length + (plug path (.node a l r)).height))
    (high : pos + 2 ^ 32 * (path.length + (plug path (.node a l r)).height) ≤ 2 ^ 62)
    (outside : pos + (r.numNodes % 2 ^ 32 : Nat) < offset ∨ offset < pos - (l.numNodes % 2 ^ 32 : Nat))
    (enough : path.length + (plug path (.node a l r)).height ≤ fuel) :
    ∃ found, offsetAVL fuel h a offset pos = some found ∧
      ∀ x, found = some x → (pos < offset → x ∈ after path) ∧ (offset < pos → x ∈ before path) := by
  induction path generalizing a l r pos fuel with
  | nil =>
      have spot := (rep_node.mp rep).2.2.2
      simp only [plug, height, List.length_nil] at low high enough
      obtain ⟨fuel, rfl⟩ : ∃ rest, fuel = rest + 1 := ⟨fuel - 1, by omega⟩
      rw [offsetAVL_up_mod spot (by omega) (by omega) outside]
      exact ⟨none, rfl, by simp⟩
  | cons frame path ih =>
      have spot := (rep_node.mp rep).2.2.2
      obtain ⟨repUp, rest, cachedRest, isRight⟩ := frame_above rep around cached distinct
      have deep := height_le_plug path (frame.attach (.node a l r))
      obtain ⟨side, value, sibling⟩ := frame
      simp only [plug, List.length_cons] at low high enough distinct
      obtain ⟨fuel, rfl⟩ : ∃ rest, fuel = rest + 1 := ⟨fuel - 1, by omega⟩
      rw [offsetAVL_up_mod spot (by omega) (by omega) outside, pathTop, List.head?_cons, Option.map_some]
      -- at the parent, the subtree that the loop comes from ends where it ended before
      cases side with
      | left =>
          have notRight : (h value).right ≠ some a := by simp [isRight]
          simp only [if_neg notRight, Frame.attach, before, after] at *
          by_cases inside : pos < offset ∧
              offset ≤ pos + ((r.numNodes + 1) % 2 ^ 32 : Nat) + (sibling.numNodes % 2 ^ 32 : Nat)
          · obtain ⟨x, _, found, right, _, same⟩ := @offsetAVL_inside _ _ _ _ offset
              (pos + ((r.numNodes + 1) % 2 ^ 32 : Nat)) fuel repUp (by omega) (by omega)
              (by simp only [BinaryTree.left]; omega) (by simp only [BinaryTree.right]; omega) (by omega)
            refine ⟨some x, found, ?_⟩
            rintro _ ⟨⟩
            refine ⟨fun _ => ?_, by omega⟩
            rcases Int.lt_or_eq_of_le (show pos + ((r.numNodes + 1) % 2 ^ 32 : Nat) ≤ offset by omega) with less | equal
            · exact List.mem_cons_of_mem _ (List.mem_append_left _ (right less))
            · rw [same equal.symm]
              exact List.mem_cons_self
          · obtain ⟨found, result, sides⟩ := @ih _ _ _ (pos + ((r.numNodes + 1) % 2 ^ 32 : Nat)) fuel repUp rest
              cachedRest distinct (by omega) (by omega) (by simp only [numNodes]; omega) (by omega)
            refine ⟨found, result, fun x same => ⟨fun ahead => ?_, fun behind => (sides x same).2 (by omega)⟩⟩
            exact List.mem_cons_of_mem _ (List.mem_append_right _ ((sides x same).1 (by omega)))
      | right =>
          have ownRight : (h value).right = some a := isRight.mpr rfl
          simp only [if_pos ownRight, Frame.attach, before, after] at *
          by_cases inside : offset < pos ∧
              pos - ((l.numNodes + 1) % 2 ^ 32 : Nat) - (sibling.numNodes % 2 ^ 32 : Nat) ≤ offset
          · obtain ⟨x, _, found, _, left, same⟩ := @offsetAVL_inside _ _ _ _ offset
              (pos - ((l.numNodes + 1) % 2 ^ 32 : Nat)) fuel repUp (by omega) (by omega)
              (by simp only [BinaryTree.left]; omega) (by simp only [BinaryTree.right]; omega) (by omega)
            refine ⟨some x, found, ?_⟩
            rintro _ ⟨⟩
            refine ⟨by omega, fun _ => List.mem_append_right _ ?_⟩
            rcases Int.lt_or_eq_of_le (show offset ≤ pos - ((l.numNodes + 1) % 2 ^ 32 : Nat) by omega) with less | equal
            · exact List.mem_append_left _ (left less)
            · rw [same equal]
              exact List.mem_append_right _ List.mem_cons_self
          · obtain ⟨found, result, sides⟩ := @ih _ _ _ (pos - ((l.numNodes + 1) % 2 ^ 32 : Nat)) fuel repUp rest
              cachedRest distinct (by omega) (by omega) (by simp only [numNodes]; omega) (by omega)
            refine ⟨found, result, fun x same => ⟨fun ahead => (sides x same).1 (by omega), fun behind => ?_⟩⟩
            exact List.mem_append_left _ ((sides x same).2 (by omega))

/-- From a node of a whole tree: `offsetAVL` returns, with a node before it, behind it or itself. -/
theorem offsetAVL_returns {h : Heap} {root : Option Addr} {tree : BinaryTree Addr} {a : Addr} {front back : List Addr}
    {fuel : Nat} (holds : Holds h root tree) (fits : tree.numNodes + 1 < 2 ^ 64)
    (split : inorder tree = front ++ a :: back) (offset : Int) (enough : 2 * tree.height ≤ fuel) :
    ∃ found, offsetAVL fuel h a offset 0 = some found ∧
      ∀ x, found = some x → (0 < offset → x ∈ back) ∧ (offset < 0 → x ∈ front) ∧ (offset = 0 → x = a) := by
  have shallow := holds.shallow fits
  have distinct := holds.distinct
  obtain ⟨path, l, r, rfl⟩ := exists_plug (show a ∈ inorder tree by simp [split])
  obtain ⟨hole, rep, around, cached, _⟩ := rep_plug.mp holds.rep
  obtain ⟨rfl, _⟩ := rep_node.mp rep
  have deep := height_le_plug path (.node a l r)
  simp only [height] at deep
  have shape : front ++ a :: back = before path ++ inorder l ++ a :: (inorder r ++ after path) := by
    rw [← split, inorder_plug, inorder_node]
    simp
  rw [split, List.nodup_middle, List.nodup_cons, List.mem_append, not_or] at distinct
  obtain ⟨rfl, _, rfl⟩ := (List.append_cons_inj_of_notMem distinct.1.1 distinct.1.2).mp shape
  by_cases inside : -(l.numNodes % 2 ^ 32 : Nat) ≤ offset ∧ offset ≤ (r.numNodes % 2 ^ 32 : Nat)
  · obtain ⟨x, _, found, right, left, same⟩ := @offsetAVL_inside _ _ _ _ offset 0 fuel rep
      (by simp only [height]; omega) (by simp only [height]; omega)
      (by simp only [BinaryTree.left]; omega) (by simp only [BinaryTree.right]; omega) (by simp only [height]; omega)
    refine ⟨some x, found, ?_⟩
    rintro _ ⟨⟩
    exact ⟨fun ahead => List.mem_append_left _ (right ahead), fun behind => List.mem_append_right _ (left behind), same⟩
  · obtain ⟨found, result, sides⟩ := @offsetAVL_outside _ _ _ _ _ offset 0 fuel rep around cached holds.distinct
      (by omega) (by omega) (by omega) (by omega)
    refine ⟨found, result, fun x same => ⟨fun ahead => ?_, fun behind => ?_, by omega⟩⟩
    · exact List.mem_append_right _ ((sides x same).1 ahead)
    · exact List.mem_append_left _ ((sides x same).2 behind)

end Coxx.Avl
