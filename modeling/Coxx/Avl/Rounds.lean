import Coxx.Avl.Insertion
import Coxx.Avl.Offset
import Coxx.Library.Fuel

/-! How many rounds the loops over a balanced tree make, and how deep `delAVL` recurses. -/

set_option autoImplicit false

namespace Coxx.Avl

open Library BinaryTree

section Fuel

variable {h : Heap} {a : Addr}

theorem fixAVL_succ {fuel : Nat} {result : Heap × Addr} (done : fixAVL fuel h a = some result) :
    fixAVL (fuel + 1) h a = some result := by
  induction fuel generalizing h a with
  | zero => cases done
  | succ fuel ih =>
      rw [fixAVL.eq_def] at done ⊢
      simp only [Option.bind_eq_bind, Option.bind_eq_some_iff] at done ⊢
      obtain ⟨⟨h1, n⟩, fixed, rest⟩ := done
      refine ⟨(h1, n), fixed, ?_⟩
      cases link : fromOf (update h a) a with
      | none =>
          rw [link] at rest
          exact rest
      | some from' =>
          rw [link] at rest
          simp only [Option.bind_eq_some_iff] at rest ⊢
          obtain ⟨parent, up, climbed⟩ := rest
          exact ⟨parent, up, ih climbed⟩

theorem leftmost_succ {fuel : Nat} {victim : Addr} (done : leftmost fuel h a = some victim) :
    leftmost (fuel + 1) h a = some victim := by
  induction fuel generalizing a with
  | zero =>
      rw [leftmost.eq_def] at done ⊢
      split at done
      · exact done
      · cases done
  | succ fuel ih =>
      rw [leftmost.eq_def] at done ⊢
      split at done
      · exact done
      · exact ih done

theorem fixAVL_fueled (h : Heap) (a : Addr) : Fueled fun fuel => fixAVL fuel h a := fun _ _ => fixAVL_succ

theorem leftmost_fueled (h : Heap) (a : Addr) : Fueled fun fuel => leftmost fuel h a := fun _ _ => leftmost_succ

theorem delAVL_more {limit more fuel deeper : Nat} {result : Heap × Option Addr} (wider : limit ≤ more)
    (deep : fuel ≤ deeper) (done : delAVL limit fuel h a = some result) : delAVL more deeper h a = some result := by
  induction fuel generalizing deeper a result with
  | zero => cases done
  | succ fuel ih =>
      obtain ⟨deeper, rfl⟩ : ∃ rest, deeper = rest + 1 := ⟨deeper - 1, by omega⟩
      rw [delAVL.eq_def] at done ⊢
      cases side : (h a).right with
      | none =>
          simp only [side] at done ⊢
          cases up : (h a).parent with
          | none =>
              simp only [up] at done ⊢
              exact done
          | some parent =>
              simp only [up, Option.map_eq_some_iff] at done ⊢
              obtain ⟨fixed, climbed, same⟩ := done
              exact ⟨fixed, (fixAVL_fueled _ _).mono wider climbed, same⟩
      | some right =>
          simp only [side, Option.bind_eq_bind, Option.bind_eq_some_iff] at done ⊢
          obtain ⟨victim, found, taken, deleted, same⟩ := done
          exact ⟨victim, (leftmost_fueled h right).mono wider found, taken, ih (by omega) deleted, same⟩

end Fuel

/-! ### The recursion of `delAVL` -/

theorem numNodes_of_height {tree : BinaryTree Addr} (low : tree.height ≤ 1) : tree.numNodes ≤ 1 := by
  cases tree with
  | nil => exact Nat.zero_le _
  | node a l r =>
      simp only [height] at low
      have left : l = .nil := by
        cases l with
        | nil => rfl
        | node => simp only [height] at low; omega
      have right : r = .nil := by
        cases r with
        | nil => rfl
        | node => simp only [height] at low; omega
      subst left right
      exact Nat.le_refl 1

/-- The successor of a node has no left subtree, so that its right one is a leaf at most: whatever the size of the tree,
two calls inside the first one are enough. -/
theorem delAVL_three {limit : Nat} {h : Heap} {path : List (Frame Addr)} {a : Addr} {l r : BinaryTree Addr}
    (rep : Rep h (pathTop path) (some a) (.node a l r)) (around : PathRep h (some a) path)
    (distinct : (inorder (plug path (.node a l r))).Nodup) (balanced : Balanced (plug path (.node a l r)))
    (shallow : (plug path (.node a l r)).height + 2 < 2 ^ 32) (reach : (plug path (.node a l r)).height ≤ limit) :
    ∃ result, delAVL limit 3 h a = some result := by
  have spot := (rep_node.mp rep).2.2.2
  cases r with
  | nil =>
      obtain ⟨h', root, _, done, _⟩ := delAVL_unlinks limit 2 rep around distinct balanced shallow reach
      exact ⟨_, done⟩
  | node b m rr =>
      have start : (h a).right = some b := spot.right.1
      have rightRep := spot.right
      rw [start] at rightRep
      have bound := height_le_plug path (.node a l (.node b m rr))
      obtain ⟨path', victim, vr, found, plugged, repV, aroundV, _, _, _⟩ :=
        @leftmost_rep _ _ (⟨.right, a, l⟩ :: path) _ limit rightRep
          ⟨⟨start, spot.left⟩, spot.parent, around⟩ (by simp only [height] at bound ⊢; omega)
      have whole : plug (⟨.right, a, l⟩ :: path) (.node b m rr) = plug path (.node a l (.node b m rr)) := rfl
      rw [whole] at plugged
      rw [← plugged] at distinct balanced shallow reach
      have low : vr.height ≤ 1 := by
        have near := (balanced_plug.mp balanced).1.1.2
        simpa using near
      have few := numNodes_of_height low
      obtain ⟨h1, root1, _, deleted, _⟩ := delAVL_path limit 2 repV aroundV distinct balanced shallow reach (by omega)
      refine ⟨takeOver h1 root1 victim a, ?_⟩
      rw [delAVL.eq_def]
      simp [start, found, deleted]

/-! ### Whole trees -/

section Holds

variable {h : Heap} {root : Option Addr} {tree : BinaryTree Addr} {a : Addr}

theorem Holds.delAVL_within (holds : Holds h root tree) (fits : tree.numNodes + 1 < 2 ^ 64) (member : a ∈ inorder tree) :
    ∃ result, ∀ limit fuel, tree.height ≤ limit → 3 ≤ fuel → delAVL limit fuel h a = some result := by
  have shallow := holds.shallow fits
  obtain ⟨path, l, r, rfl⟩ := exists_plug member
  obtain ⟨hole, here, around, _, _⟩ := rep_plug.mp holds.rep
  obtain ⟨rfl, _⟩ := rep_node.mp here
  obtain ⟨result, done⟩ := delAVL_three here around holds.distinct holds.balanced (by omega) (Nat.le_refl _)
  exact ⟨result, fun limit fuel far deep => delAVL_more far deep done⟩

theorem Holds.offsetAVL_within (holds : Holds h root tree) (small : tree.numNodes < 2 ^ 32) (member : a ∈ inorder tree)
    (offset : Int) : Within (2 * tree.height) fun fuel => offsetAVL fuel h a offset 0 := by
  obtain ⟨i, here⟩ := List.mem_iff_getElem?.mp member
  exact ⟨_, fun fuel enough => offsetAVL_holds holds small here enough⟩

end Holds

end Coxx.Avl
