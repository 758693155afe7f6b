import Coxx.Avl.Offset
import Coxx.Library.Search
import Coxx.Map.Refinement
import Coxx.Zset.ZSet
import Mathlib.Data.Prod.Lex

/-! The invariant of a sorted set, and the order its comparisons decide. -/

set_option autoImplicit false

namespace Coxx.Zset

open Library BinaryTree

/-- Scores first, then names; a proper prefix of a name comes before it. -/
abbrev Rank := ℤ ×ₗ List ℕ

def rankOf (score : Double) (name : Bytes) : Rank := toLex (score.place, word name)

def ZNode.rank (node : ZNode) : Rank := rankOf node.score node.name

structure ZNode.Proper (node : ZNode) : Prop where
  sized : node.name.length = node.len
  number : node.score.isNaN = false

theorem lessThan_eq {node : ZNode} {score : Double} (proper : node.Proper)
    (number : score.isNaN = false) (name : CxxString) :
    lessThan node score name name.bytes.length = some (decide (node.rank < rankOf score name.bytes)) := by
  have scores : node.score.eq score = true ↔ node.score.place = score.place := Double.eq_iff proper.number number
  simp only [lessThan, ZNode.rank, rankOf, Prod.Lex.toLex_lt_toLex]
  by_cases same : node.score.place = score.place
  · rw [if_neg (by simp [scores.mpr same]), ← proper.sized, CxxString.read_of_le (by simp),
      CxxString.read_of_le (Nat.min_le_right _ _)]
    -- equal scores: `memcmp` on the shorter length decides, and the length where it finds no difference
    have order := memcmp_take node.name name.bytes
    simp only [same, lt_irrefl, false_or, true_and, Option.bind_eq_bind, Option.bind_some]
    generalize memcmp (node.name.take (min node.name.length name.bytes.length))
      (name.bytes.take (min node.name.length name.bytes.length)) = compared at order ⊢
    cases compared with
    | lt => exact congrArg some (decide_eq_true order).symm
    | gt => exact congrArg some (decide_eq_false (not_lt_of_gt order)).symm
    | eq => exact congrArg some (decide_eq_decide.mpr order)
  · rw [if_pos (by simp [Bool.eq_false_iff.mpr (scores.not.mpr same)])]
    simp only [same, false_and, or_false, Option.some.injEq]
    by_cases below : node.score.place < score.place
    · rw [decide_eq_true below, (Double.lt_iff proper.number number).mpr below]
    · rw [decide_eq_false below]
      exact Bool.eq_false_iff.mpr ((Double.lt_iff proper.number number).not.mpr below)

theorem less_eq {left right : ZNode} (properL : left.Proper) (properR : right.Proper) :
    less left right = some (decide (left.rank < right.rank)) := by
  rw [less, ← properR.sized]
  exact lessThan_eq properL properR.number ⟨right.name, .guarded⟩

theorem mapCmp_eq {set : ZSet} {key : Key} {node : Addr} (proper : (set.nodes node).Proper)
    (whole : key.len = key.name.bytes.length) :
    mapCmp set key node = some (decide ((set.nodes node).name = key.name.bytes)) := by
  simp only [mapCmp, whole]
  by_cases same : (set.nodes node).len = key.name.bytes.length
  · have sizes : (set.nodes node).name.length = key.name.bytes.length := proper.sized.trans same
    rw [if_neg (by simp [same]), ← proper.sized, CxxString.read_of_le (by simp),
      CxxString.read_of_le (by simp [sizes])]
    simp only [Option.bind_eq_bind, Option.bind_some, Option.some.injEq, List.take_length]
    rw [sizes, List.take_length, decide_eq_decide]
    exact memcmp_eq_iff sizes
  · rw [if_pos same, eq_comm, Option.some.injEq, decide_eq_false_iff_not]
    intro equal
    exact same (by rw [← proper.sized, equal])

/-- The two indexes hold the same nodes, the tree in the order of their ranks. -/
structure Sound (set : ZSet) (tree : BinaryTree Addr) : Prop where
  holds : Avl.Holds set.heap set.tree tree
  tracks : Map.Tracks set.map (inorder tree)
  few : tree.numNodes ≤ MAX_OBJECTS
  fresh : ∀ x ∈ inorder tree, x < set.fresh
  proper : ∀ x ∈ inorder tree, (set.nodes x).Proper
  sorted : (inorder tree).Pairwise fun x y => (set.nodes x).rank ≤ (set.nodes y).rank

theorem initZSet_sound : Sound initZSet .nil where
  holds := ⟨rfl, by simp, trivial⟩
  tracks := Map.Tracks.empty _
  few := Nat.zero_le _
  fresh := by simp
  proper := by simp
  sorted := by simp

namespace Sound

variable {set : ZSet} {tree : BinaryTree Addr}

theorem size_eq (sound : Sound set tree) : Map.CMapSize set.map.map = tree.numNodes := by
  rw [sound.tracks.size_eq, length_inorder]

theorem fits (sound : Sound set tree) : tree.numNodes + 3 < 2 ^ 58 := by
  have := sound.few
  unfold MAX_OBJECTS at this
  omega

theorem rounds_eq (sound : Sound set tree) : set.rounds = 2 * tree.numNodes + 2 := by
  rw [ZSet.rounds, sound.size_eq]

theorem ne_fresh (sound : Sound set tree) {x : Addr} (member : x ∈ inorder tree) : x ≠ set.fresh :=
  (sound.fresh x member).ne

theorem sorted_upward (sound : Sound set tree) (rank : Rank) :
    (inorder tree).Pairwise fun x y =>
      (!decide ((set.nodes x).rank < rank)) = true → (!decide ((set.nodes y).rank < rank)) = true := by
  refine sound.sorted.imp fun {x y} le above => ?_
  simp only [Bool.not_eq_true', decide_eq_false_iff_not, not_lt] at above ⊢
  exact above.trans le

theorem tree_none (sound : Sound set tree) : set.tree.isNone = true ↔ tree = .nil := by
  rw [Option.isNone_iff_eq_none]
  exact sound.holds.rep.root_none

end Sound

end Coxx.Zset
