import Coxx.Avl.CxxAvl
import Mathlib.Data.List.Perm.Basic

/-! The tree of avl.cxx keeps one node at most: a new node has depth one, and so has the
node that is in the tree already, so that the two are equivalent in the set's order.
-/

set_option autoImplicit false

namespace Coxx.CxxAvl

variable {set : AvlSet} {s s' : AVLTree set} {node other : Addr}

/-! ### Fields -/

@[simp] theorem AVLTree.assign_tree (s : AVLTree set) (node : Addr) (value : AVLNode) :
    (s.assign node value).tree = s.tree := rfl

@[simp] theorem AVLTree.assign_elements (s : AVLTree set) (node : Addr) (value : AVLNode) :
    (s.assign node value).elements = s.elements := rfl

@[simp] theorem AVLTree.assign_self (s : AVLTree set) (node : Addr) (value : AVLNode) :
    (s.assign node value).nodes node = value := by
  simp [assign]

theorem AVLTree.assign_of_ne (s : AVLTree set) (value : AVLNode) (away : other ≠ node) :
    (s.assign node value).nodes other = s.nodes other := by
  simp [assign, away]

theorem update_frame (result : update s (some node) = some s') :
    s'.tree = s.tree ∧ (s'.nodes node).parent = (s.nodes node).parent ∧
      ∀ other, other ≠ node → s'.nodes other = s.nodes other := by
  simp only [update, Option.bind_eq_bind, Option.bind_eq_some_iff, Option.some.injEq] at result
  obtain ⟨_, _, _, _, _, _, _, _, rfl⟩ := result
  refine ⟨rfl, by simp, fun other away => ?_⟩
  rw [AVLTree.assign_of_ne _ _ away, AVLTree.assign_of_ne _ _ away]

theorem fix_orphan (orphan : (s.nodes node).parent = none) : fix MAX_NODES s (some node) = update s (some node) := by
  have supply : MAX_NODES = (MAX_NODES - 1) + 1 := rfl
  rw [supply, fix, Option.bind_eq_bind]
  cases result : update s (some node) with
  | none => rfl
  | some s' => rw [Option.bind_some, (update_frame result).2.1, orphan, fix]

theorem insert_placed {tree : set.State} (inserted : set.insert_unique s.nodes s.tree node = (tree, true))
    (first : set.before s.nodes tree node = some none) :
    insert s node = fix MAX_NODES { s with tree := tree } (some node) := by
  unfold insert
  simp only [inserted, first, Option.bind_eq_bind, Option.bind_some, if_true]

theorem insert_kept (refused : set.insert_unique s.nodes s.tree node = (s.tree, false)) :
    insert s node = fix MAX_NODES s (some node) := by
  unfold insert
  simp only [refused, Bool.false_eq_true, if_false]

/-- What a node holds while it is alone in the tree. -/
def lone : AVLNode := { depth := 1, count := 1, parent := none }

section Lawful

variable (lawful : set.Lawful)

include lawful

theorem update_lone (alone : s.elements = [node]) : update s (some node) =
    some (s.assign node { s.nodes node with depth := 1, count := 1 }) := by
  have nothing (nodes : Fields) : set.before nodes s.tree node = some none ∧ set.behind nodes s.tree node = some none :=
    ⟨lawful.before nodes s.tree [] node [] alone List.not_mem_nil,
      lawful.behind nodes s.tree [] node [] alone List.not_mem_nil⟩
  simp [update, find_left, find_right, nothing, depth, AVLTree.assign]

theorem insert_first (empty : s.elements = []) (node : Addr) :
    ∃ s', Call.run s (.insert node) = some s' ∧ s'.elements = [node] ∧ s'.nodes node = lone := by
  let fresh := init (s.assign node {}) node
  have nothing : set.elements fresh.tree = [] := empty
  obtain ⟨tree, inserted, elements⟩ := lawful.inserted fresh.nodes fresh.tree node (by rw [nothing]; exact .nil)
    (by rw [nothing]; simp)
  rw [nothing] at elements
  let placed : AVLTree set := { fresh with tree := tree }
  have alone : placed.elements = [node] := elements
  have prepared : placed.nodes node = lone := by simp [placed, fresh, init, lone]
  refine ⟨placed.assign node { placed.nodes node with depth := 1, count := 1 }, ?_, alone, ?_⟩
  · rw [Call.run, insert_placed inserted (lawful.before _ _ [] node [] alone List.not_mem_nil)]
    exact (fix_orphan (by rw [prepared]; rfl)).trans (update_lone lawful alone)
  · rw [AVLTree.assign_self, prepared]
    rfl

/-- A second node is equivalent to the first and stays outside; only its own caches are written. -/
theorem insert_refused (alone : s.elements = [other]) (cached : s.nodes other = lone) (away : other ≠ node) :
    Call.run s (.insert node) = update (init (s.assign node {}) node) (some node) := by
  let fresh := init (s.assign node {}) node
  have first : fresh.nodes other = lone := by
    rw [← cached]
    simp only [fresh, init, AVLTree.assign_of_ne _ _ away]
  have second : fresh.nodes node = lone := by simp [fresh, init, lone]
  have refused : set.insert_unique fresh.nodes fresh.tree node = (fresh.tree, false) := by
    have only : set.elements fresh.tree = [other] := alone
    refine lawful.refused _ _ _ (by rw [only]; exact List.pairwise_singleton _ _) ⟨other, ?_, ?_, ?_⟩
    · rw [only]
      exact List.mem_cons_self
    · simp [Fields.less, AVLNode.less, first, second]
    · simp [Fields.less, AVLNode.less, first, second]
  rw [Call.run, insert_kept refused]
  exact fix_orphan (by rw [second]; rfl)

theorem insert_second (alone : s.elements = [other]) (cached : s.nodes other = lone) (away : other ≠ node)
    (result : Call.run s (.insert node) = some s') : s'.elements = [other] ∧ s'.nodes other = lone := by
  rw [insert_refused lawful alone cached away] at result
  obtain ⟨tree, _, others⟩ := update_frame result
  refine ⟨(congrArg set.elements tree).trans alone, ?_⟩
  rw [others other away, ← cached]
  simp only [init, AVLTree.assign_of_ne _ _ away]

theorem erase_lone (alone : s.elements = [node]) (cached : s.nodes node = lone) :
    ∃ s', Call.run s (.erase node) = some s' ∧ s'.elements = [] := by
  have orphan : (s.nodes node).parent = none := by rw [cached]; rfl
  have inside : node ∈ s.elements := by rw [alone]; exact List.mem_cons_self
  refine ⟨{ s with tree := set.erase s.tree node }, ?_, ?_⟩
  · simp [Call.run, erase, inside, orphan, fix]
  · rw [AVLTree.elements, lawful.erased s.tree node inside, show set.elements s.tree = [node] from alone]
    simp

/-! ### Runs -/

inductive Sparse (s : AVLTree set) (present : List Addr) : Prop where
  | empty : s.elements = [] → Sparse s present
  | single {node : Addr} : s.elements = [node] → s.nodes node = lone → node ∈ present → Sparse s present

theorem Ran.sparse {good : AVLTree set → Call → Prop} {present : List Addr} (ran : Ran good s present) :
    Sparse s present := by
  induction ran with
  | empty nodes => exact .empty lawful.empty
  | @call s s' present call _ allowed _ result ih =>
      cases call with
      | insert node =>
          cases ih with
          | empty nothing =>
              obtain ⟨s₁, first, tree, cached⟩ := insert_first lawful nothing node
              cases result.symm.trans first
              exact .single tree cached List.mem_cons_self
          | @single other alone cached member =>
              have away : other ≠ node := fun same => allowed (same ▸ member)
              obtain ⟨tree, kept⟩ := insert_second lawful alone cached away result
              exact .single tree kept (List.mem_cons_of_mem _ member)
      | erase node =>
          have inside : node ∈ s.elements := allowed
          cases ih with
          | empty nothing => simp [nothing] at inside
          | @single other alone cached member =>
              obtain rfl : node = other := by simpa [alone] using inside
              obtain ⟨s₁, erased, tree⟩ := erase_lone lawful alone cached
              cases result.symm.trans erased
              exact .empty tree

end Lawful

/-- The tree holds the nodes inserted and not erased, and its root counts them. -/
structure Exact (s : AVLTree set) (present : List Addr) : Prop where
  kept : s.elements.Perm present
  counted : count s (root s) = present.length

/-- A call returns and leaves the tree exact. -/
def Call.Sound (s : AVLTree set) (present : List Addr) (call : Call) : Prop :=
  ∃ s', call.run s = some s' ∧ Exact s' (call.present present)

/-- Only an empty tree takes a node. -/
def Call.Harmless (s : AVLTree set) : Call → Prop
  | .insert _ => s.elements = []
  | .erase _ => True

section

variable {present : List Addr} (lawful : set.Lawful)

include lawful

theorem Sparse.exact (sparse : Sparse s present) (kept : s.elements.Perm present) : Exact s present := by
  refine ⟨kept, ?_⟩
  rw [← kept.length_eq]
  cases sparse with
  | empty nothing => simp [root, nothing, count]
  | @single node alone cached _ =>
      have found := lawful.found s.tree
      rw [show set.elements s.tree = [node] from alone] at found
      cases first : set.find s.tree with
      | none => rw [first] at found; cases found
      | some other =>
          rw [first] at found
          obtain rfl := List.mem_singleton.mp found
          simp [root, alone, first, count, cached, lone]

theorem Sparse.call (sparse : Sparse s present) (kept : s.elements.Perm present) {call : Call}
    (allowed : call.Allowed s present) (harmless : call.Harmless s) :
    ∃ s', call.run s = some s' ∧ s'.elements.Perm (call.present present) := by
  cases call with
  | insert node =>
      have nothing : s.elements = [] := harmless
      obtain ⟨s', result, tree, _⟩ := insert_first lawful nothing node
      refine ⟨s', result, ?_⟩
      rw [tree]
      rw [nothing] at kept
      exact kept.cons node
  | erase node =>
      have inside : node ∈ s.elements := allowed
      cases sparse with
      | empty nothing => simp [nothing] at inside
      | @single other alone cached _ =>
          obtain rfl : node = other := by simpa [alone] using inside
          obtain ⟨s', result, tree⟩ := erase_lone lawful alone cached
          refine ⟨s', result, ?_⟩
          rw [alone] at kept
          have erased := kept.erase node
          rw [tree]
          simpa [Call.present] using erased

theorem Ran.kept (ran : Ran (fun s call => call.Harmless s) s present) : s.elements.Perm present := by
  induction ran with
  | empty nodes =>
      rw [AVLTree.elements, lawful.empty]
  | call before allowed harmless result ih =>
      obtain ⟨s', result', kept⟩ := (before.sparse lawful).call lawful ih allowed harmless
      cases result.symm.trans result'
      exact kept

/-- The tree is exact in every state of a run that inserts into the empty tree only, and any
other insertion makes it inexact. -/
theorem exact_iff_empty (ran : Ran (fun s call => call.Harmless s) s present) :
    Exact s present ∧ ∀ call : Call, call.Allowed s present → (call.Sound s present ↔ call.Harmless s) := by
  have kept := ran.kept lawful
  refine ⟨(ran.sparse lawful).exact lawful kept, fun call allowed => ⟨?_, fun harmless => ?_⟩⟩
  · rintro ⟨s', result, exact⟩
    cases call with
    | erase node => trivial
    | insert node =>
        cases ran.sparse lawful with
        | empty nothing => exact nothing
        | @single other alone cached member =>
            have away : other ≠ node := fun same => allowed (same ▸ member)
            have more := exact.kept.length_eq
            rw [(insert_second lawful alone cached away result).1, ← alone, kept.length_eq] at more
            simp [Call.present] at more
  · obtain ⟨s', result, kept'⟩ := (ran.sparse lawful).call lawful kept allowed harmless
    exact ⟨s', result, ((ran.call allowed harmless result).sparse lawful).exact lawful kept'⟩

end

/-! ### A set -/

/-- A set that is the list of its elements. An object outside of it has no neighbours. -/
def listSet : AvlSet where
  State := List Addr
  empty := []
  elements := id
  insert_unique nodes s node :=
    if ∃ other ∈ s, nodes.less other node = false ∧ nodes.less node other = false then (s, false)
    else (s.takeWhile (nodes.less · node) ++ node :: s.dropWhile (nodes.less · node), true)
  erase := List.erase
  find := List.head?
  before _ s node := some (if node ∈ s then (s.takeWhile (· ≠ node)).getLast? else none)
  behind _ s node := some (s.dropWhile (· ≠ node)).tail.head?

theorem listSet_lawful : listSet.Lawful where
  empty := rfl
  refused _ _ _ _ equivalent := if_pos equivalent
  inserted nodes s node _ comparable := by
    refine ⟨_, if_neg ?_, rfl⟩
    rintro ⟨other, member, above, below⟩
    rcases comparable other member with less | less
    · exact Bool.false_ne_true (above.symm.trans less)
    · exact Bool.false_ne_true (below.symm.trans less)
  erased _ _ _ := rfl
  found s := by
    cases s with
    | nil => rfl
    | cons first rest => exact List.mem_cons_self
  before _ s front node back split outside := by
    obtain rfl : s = front ++ node :: back := split
    have others : ∀ x ∈ front, x ≠ node := fun x member same => outside (same ▸ member)
    have walk : (front ++ node :: back).takeWhile (· ≠ node) = front := by
      rw [List.takeWhile_append_of_pos (by simpa using others)]
      simp
    simp only [listSet, walk]
    rw [if_pos (by simp)]
  behind _ s front node back split outside := by
    obtain rfl : s = front ++ node :: back := split
    have others : ∀ x ∈ front, x ≠ node := fun x member same => outside (same ▸ member)
    have walk : (front ++ node :: back).dropWhile (· ≠ node) = node :: back := by
      rw [List.dropWhile_append_of_pos (by simpa using others)]
      simp
    simp only [listSet, walk, List.tail_cons]

/-- A node is inserted and erased, and another one inserted. A third would be lost. -/
theorem exact_iff_empty_second : ∃ s : AVLTree listSet, Ran (fun s call => call.Harmless s) s [16] ∧ s.elements = [16] ∧
    Exact s [16] ∧ ¬(Call.insert 24).Sound s [16] := by
  obtain ⟨s1, result1, tree1, cached1⟩ := @insert_first listSet ⟨fun _ => {}, listSet.empty⟩ listSet_lawful rfl 8
  have ran1 : Ran (fun s call => call.Harmless s) s1 [8] :=
    @Ran.call _ _ _ _ _ (.insert 8) (.empty fun _ => {}) (by simp [Call.Allowed]) rfl result1
  obtain ⟨s2, result2, tree2⟩ := erase_lone listSet_lawful tree1 cached1
  have ran2 : Ran (fun s call => call.Harmless s) s2 [] :=
    @Ran.call _ _ _ _ _ (.erase 8) ran1 (by simp [Call.Allowed, tree1]) trivial result2
  obtain ⟨s3, result3, tree3, _⟩ := insert_first listSet_lawful tree2 16
  have ran3 : Ran (fun s call => call.Harmless s) s3 [16] :=
    @Ran.call _ _ _ _ _ (.insert 16) ran2 (by simp [Call.Allowed]) tree2 result3
  obtain ⟨exact, calls⟩ := exact_iff_empty listSet_lawful ran3
  refine ⟨s3, ran3, tree3, exact, fun sound => ?_⟩
  have empty := (calls (.insert 24) (by simp [Call.Allowed])).mp sound
  rw [Call.Harmless, tree3] at empty
  cases empty

/-- In every set that behaves as documented, the second of two nodes inserted is not in the tree. -/
theorem second_kept_out : ¬ ∃ set : AvlSet, set.Lawful ∧ ∀ (s : AVLTree set) (present : List Addr),
    Ran (fun _ _ => True) s present → ∀ call : Call, call.Allowed s present → call.Sound s present := by
  rintro ⟨set, lawful, sound⟩
  obtain ⟨s, result, tree, cached⟩ := @insert_first set ⟨fun _ => {}, set.empty⟩ lawful lawful.empty 8
  have first : Ran (fun _ _ => True) s [8] :=
    @Ran.call _ _ _ _ _ (.insert 8) (.empty fun _ => {}) (by simp [Call.Allowed]) trivial result
  obtain ⟨s', again, exact⟩ := sound s [8] first (.insert 16) (by simp [Call.Allowed])
  have lost := exact.kept.length_eq
  rw [(insert_second lawful tree cached (by decide) again).1] at lost
  simp [Call.present] at lost

end Coxx.CxxAvl
