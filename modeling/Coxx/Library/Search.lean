import Coxx.Library.Tree

/-! Descents in a search tree.

The walk is steered by a predicate that holds from some place on in order; it ends at
that place, between the values before and the values after it.
-/

set_option autoImplicit false

namespace Coxx.Library

open BinaryTree

variable {α : Type}

/-- The path to the empty place where the walk ends; `goLeft` steers it. -/
def descend (goLeft : α → Bool) : BinaryTree α → List (Frame α) → List (Frame α)
  | .nil, path => path
  | .node value left right, path =>
    if goLeft value then descend goLeft left (⟨.left, value, right⟩ :: path)
    else descend goLeft right (⟨.right, value, left⟩ :: path)

theorem plug_descend (goLeft : α → Bool) (tree : BinaryTree α) (path : List (Frame α)) :
    plug (descend goLeft tree path) .nil = plug path tree := by
  induction tree generalizing path with
  | nil => rfl
  | node value left right ihLeft ihRight =>
      simp only [descend]
      split
      · rw [ihLeft]; rfl
      · rw [ihRight]; rfl

/-- `goLeft` fails on the front and holds on the back. -/
structure Divides (goLeft : α → Bool) (front back : List α) : Prop where
  front : ∀ x ∈ front, goLeft x = false
  back : ∀ x ∈ back, goLeft x = true

theorem descend_divides {goLeft : α → Bool} {tree : BinaryTree α} {front back : List α}
    (divides : Divides goLeft front back) (same : inorder tree = front ++ back) (path : List (Frame α)) :
    before (descend goLeft tree path) = before path ++ front ∧
      after (descend goLeft tree path) = back ++ after path := by
  induction tree generalizing path front back with
  | nil =>
      obtain ⟨rfl, rfl⟩ := List.append_eq_nil_iff.mp same.symm
      simp [descend]
  | node value left right ihLeft ihRight =>
      rw [inorder_node] at same
      simp only [descend]
      by_cases turn : goLeft value = true
      · -- everything from the value on belongs to the back
        obtain ⟨middle, leftSame, rfl⟩ : ∃ middle, inorder left = front ++ middle ∧ back = middle ++ value :: inorder right := by
          rcases List.append_eq_append_iff.mp same with ⟨middle, frontSame, backSame⟩ | ⟨middle, leftSame, backSame⟩
          · cases middle with
            | nil => exact ⟨[], by simpa using frontSame.symm, by simpa using backSame.symm⟩
            | cons first rest =>
                have wrong := divides.front value (by
                  rw [frontSame, List.mem_append]
                  right
                  have := (List.cons.inj backSame).1
                  simp [this])
                rw [turn] at wrong
                cases wrong
          · exact ⟨middle, leftSame, backSame⟩
        have divides' : Divides goLeft front middle :=
          ⟨divides.front, fun x member => divides.back x (List.mem_append_left _ member)⟩
        obtain ⟨first, second⟩ := ihLeft divides' leftSame (⟨.left, value, right⟩ :: path)
        rw [if_pos turn, first, second]
        exact ⟨rfl, by simp [after]⟩
      · have stay : goLeft value = false := Bool.eq_false_iff.mpr turn
        obtain ⟨middle, rfl, rightSame⟩ :
            ∃ middle, front = inorder left ++ value :: middle ∧ inorder right = middle ++ back := by
          rcases List.append_eq_append_iff.mp same with ⟨middle, frontSame, backSame⟩ | ⟨middle, leftSame, backSame⟩
          · cases middle with
            | nil =>
                have wrong := divides.back value (by rw [← List.nil_append back, ← backSame]; simp)
                rw [stay] at wrong
                cases wrong
            | cons first rest =>
                obtain ⟨rfl, restSame⟩ := List.cons.inj backSame
                exact ⟨rest, frontSame, restSame⟩
          · have wrong := divides.back value (by rw [backSame]; simp)
            rw [stay] at wrong
            cases wrong
        have divides' : Divides goLeft middle back :=
          ⟨fun x member => divides.front x (by simp [member]), divides.back⟩
        obtain ⟨first, second⟩ := ihRight divides' rightSame (⟨.right, value, left⟩ :: path)
        rw [if_neg turn, first, second]
        exact ⟨by simp [before], rfl⟩

theorem exists_divides {goLeft : α → Bool} {xs : List α}
    (upward : xs.Pairwise fun x y => goLeft x = true → goLeft y = true) :
    ∃ front back, xs = front ++ back ∧ Divides goLeft front back := by
  induction xs with
  | nil => exact ⟨[], [], rfl, by simp, by simp⟩
  | cons x xs ih =>
      obtain ⟨head, tail⟩ := List.pairwise_cons.mp upward
      by_cases turn : goLeft x = true
      · refine ⟨[], x :: xs, rfl, by simp, ?_⟩
        intro y member
        rcases List.mem_cons.mp member with rfl | inside
        · exact turn
        · exact head y inside turn
      · obtain ⟨front, back, rfl, divides⟩ := ih tail
        refine ⟨x :: front, back, rfl, ?_, divides.back⟩
        intro y member
        rcases List.mem_cons.mp member with rfl | inside
        · exact Bool.eq_false_iff.mpr turn
        · exact divides.front y inside

end Coxx.Library
