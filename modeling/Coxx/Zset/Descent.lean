import Coxx.Avl.Insertion
import Coxx.Zset.Invariant

/-! The two walks down the tree: `treeAdd` to the empty place of a new node, and `query` to the
first node that is not below a pair. -/

set_option autoImplicit false

namespace Coxx.Zset

open Library BinaryTree Avl

/-- The comparison that steers `treeAdd`: it sends the new node to the left of the nodes where `goLeft` holds. -/
def Steers (set : ZSet) (x : Addr) (tree : BinaryTree Addr) (goLeft : Addr → Bool) : Prop :=
  ∀ y ∈ inorder tree, less (set.nodes x) (set.nodes y) = some (goLeft y)

/-- Where a new node with the data of `x` belongs. -/
def goesBefore (set : ZSet) (x y : Addr) : Bool := decide ((set.nodes x).rank < (set.nodes y).rank)

theorem goesBefore_steers {set : ZSet} {x : Addr} {tree : BinaryTree Addr} (here : (set.nodes x).Proper)
    (proper : ∀ y ∈ inorder tree, (set.nodes y).Proper) : Steers set x tree (goesBefore set x) :=
  fun y member => less_eq here (proper y member)

theorem findPlace_rep {set : ZSet} {x : Addr} {goLeft : Addr → Bool} {tree : BinaryTree Addr} {path : List (Frame Addr)}
    {curr : Addr} {fuel : Nat} (rep : Rep set.heap (pathTop path) (some curr) tree)
    (around : PathRep set.heap (some curr) path) (steers : Steers set x tree goLeft) (enough : tree.height ≤ fuel + 1) :
    ∃ frame rest, descend goLeft tree path = frame :: rest ∧
      findPlace fuel set x curr = some (frame.value, decide (frame.side = .left)) ∧
      PathRep set.heap none (frame :: rest) := by
  induction tree generalizing path curr fuel with
  | nil => cases rep
  | node a l r ihLeft ihRight =>
      obtain ⟨start, _, _, spot⟩ := rep_node.mp rep
      cases start
      rw [findPlace.eq_def, steers a (by simp)]
      simp only [Option.bind_eq_bind, Option.bind_some, descend, height] at *
      by_cases turn : goLeft a = true
      · simp only [turn, if_true]
        cases l with
        | nil =>
            have stop : (set.heap a).left = none := spot.left
            exact ⟨_, _, rfl, by simp [stop], ⟨stop, spot.right⟩, spot.parent, around⟩
        | node b ll lr =>
            have next : (set.heap a).left = some b := spot.left.1
            obtain ⟨fuel, rfl⟩ : ∃ rest, fuel = rest + 1 := ⟨fuel - 1, by simp only [height] at enough; omega⟩
            have below := spot.left
            rw [next] at below
            simp only [next]
            exact @ihLeft (⟨.left, a, r⟩ :: path) _ fuel below ⟨⟨next, spot.right⟩, spot.parent, around⟩
              (fun y member => steers y (List.mem_append_left _ member)) (by simp only [height] at enough ⊢; omega)
      · simp only [Bool.eq_false_iff.mpr turn, Bool.false_eq_true, if_false]
        cases r with
        | nil =>
            have stop : (set.heap a).right = none := spot.right
            exact ⟨_, _, rfl, by simp [stop], ⟨stop, spot.left⟩, spot.parent, around⟩
        | node b rl rr =>
            have next : (set.heap a).right = some b := spot.right.1
            obtain ⟨fuel, rfl⟩ : ∃ rest, fuel = rest + 1 := ⟨fuel - 1, by simp only [height] at enough; omega⟩
            have below := spot.right
            rw [next] at below
            simp only [next]
            exact @ihRight (⟨.right, a, l⟩ :: path) _ fuel below ⟨⟨next, spot.left⟩, spot.parent, around⟩
              (fun y member => steers y (List.mem_append_right _ (List.mem_cons_of_mem _ member)))
              (by simp only [height] at enough ⊢; omega)

theorem attach_rep {set : ZSet} {x : Addr} {goLeft : Addr → Bool} {tree : BinaryTree Addr}
    (holds : Holds set.heap set.tree tree) (steers : Steers set x tree goLeft) (outside : x ∉ inorder tree)
    (left : (set.heap x).left = none) (right : (set.heap x).right = none) :
    ∃ h, (∀ fuel, tree.height ≤ fuel + 1 → attach fuel set x = some h) ∧ Open h (pathTop (descend goLeft tree [])) x .nil .nil ∧
      PathRep h (some x) (descend goLeft tree []) ∧ ∀ y ∉ x :: inorder tree, h y = set.heap y := by
  have rep := holds.rep
  cases tree with
  | nil =>
      have empty : set.tree = none := rep
      refine ⟨set.heap.setParent x none, fun _ _ => by simp [attach, empty], ⟨by simp [descend, pathTop], ?_, ?_⟩, trivial, ?_⟩
      · simpa using left
      · simpa using right
      · intro y away
        exact Heap.setParent_of_ne (by simpa using away)
  | node a l r =>
      have walk := fun fuel (enough : _ ≤ fuel + 1) =>
        @findPlace_rep set x goLeft _ [] _ fuel (rep.1 ▸ rep) trivial steers enough
      obtain ⟨frame, rest, path, _, around⟩ := walk _ (Nat.le_succ _)
      have whole := plug_descend goLeft (.node a l r) []
      rw [path] at whole ⊢
      -- the hole at the end of the walk is empty, so the path has all nodes of the tree
      have nodes : ∀ y, y ∈ inorder (BinaryTree.node a l r) ↔ y ∈ pathNodes (frame :: rest) := by
        intro y
        have := @mem_plug (frame :: rest) .nil y
        rw [whole] at this
        simpa [plug] using this
      have distinct : (inorder (plug (frame :: rest) .nil)).Nodup := by
        rw [whole]
        exact holds.distinct
      have stored : (if decide (frame.side = .left) then set.heap.setLeft frame.value (some x)
          else set.heap.setRight frame.value (some x)) = set.heap.store frame (some x) := by
        unfold Heap.store
        cases side : frame.side <;> simp
      obtain ⟨spot, hung, away⟩ := hang_rep around (nodup_plug distinct).2.1
        (fun member => outside ((nodes x).mpr member)) left right
      refine ⟨_, fun fuel enough => ?_, spot, hung, fun y other => ?_⟩
      · obtain ⟨frame', rest', path', found, _⟩ := walk fuel enough
        cases path.symm.trans path'
        simp only [attach, rep.1, found, Option.bind_eq_bind, Option.bind_some]
        rw [stored]
      · rw [List.mem_cons, not_or] at other
        exact away y other.1 fun same => other.2 ((nodes y).mpr (by simp [pathNodes, same]))

/-- `treeAdd` puts a node where its comparison divides the tree, and touches no other tree. -/
theorem treeAdd_holds {set : ZSet} {x : Addr} {goLeft : Addr → Bool} {tree : BinaryTree Addr} {front back : List Addr}
    {fuel : Nat} (holds : Holds set.heap set.tree tree) (fits : tree.numNodes + 2 < 2 ^ 64) (steers : Steers set x tree goLeft)
    (outside : x ∉ inorder tree) (left : (set.heap x).left = none) (right : (set.heap x).right = none)
    (enough : tree.height < fuel) (divides : Divides goLeft front back) (same : inorder tree = front ++ back) :
    ∃ h root tree', treeAdd fuel set x = some { set with heap := h, tree := some root } ∧
      Holds h (some root) tree' ∧ inorder tree' = front ++ x :: back ∧ ∀ y ∉ x :: inorder tree, h y = set.heap y := by
  obtain ⟨h, attached, spot, around, frame⟩ := attach_rep holds steers outside left right
  obtain ⟨before', after'⟩ := descend_divides divides same []
  have whole := plug_descend goLeft tree []
  set path := descend goLeft tree [] with named
  simp only [before, after, List.nil_append, List.append_nil, plug] at before' after' whole
  obtain ⟨h', root, tree', fixed, holds', order, frame'⟩ := @fixAVL_leaf fuel h path x spot around
    (by rw [whole]; exact holds.distinct) (by rw [whole]; exact outside) (by rw [whole]; exact holds.balanced)
    (by rw [whole]; omega) (by rw [whole]; omega)
  rw [whole] at frame'
  refine ⟨h', root, tree', ?_, holds', by rw [order, before', after'], fun y away => ?_⟩
  · simp only [treeAdd, attached fuel (by omega), fixed, Option.bind_eq_bind, Option.bind_some]
  · rw [frame' y away, frame y away]

/-! ### Insertion -/

/-- No node is below one that comes before it, in the comparison of the program. -/
def Ordered (set : ZSet) (xs : List Addr) : Prop :=
  xs.Pairwise fun y z => less (set.nodes z) (set.nodes y) = some false

theorem less_nan {left right : ZNode} (nan : left.score.isNaN = true) : less left right = some false := by
  have different : left.score.eq right.score = false := by simp [Double.eq, nan]
  unfold less lessThan
  rw [if_pos (by simp [different])]
  simp [Double.lt, nan]

/-- The comparison with any new node divides an ordered list of proper nodes, and the new node fits in between. -/
theorem exists_place {set : ZSet} {x : Addr} {tree : BinaryTree Addr} (sized : (set.nodes x).name.length = (set.nodes x).len)
    (proper : ∀ y ∈ inorder tree, (set.nodes y).Proper) (ordered : Ordered set (inorder tree)) :
    ∃ goLeft front back, Steers set x tree goLeft ∧ inorder tree = front ++ back ∧ Divides goLeft front back ∧
      Ordered set (front ++ x :: back) := by
  cases number : (set.nodes x).score.isNaN with
  | true =>
      refine ⟨fun _ => false, inorder tree, [], fun y _ => less_nan number, by simp, ⟨by simp, by simp⟩, ?_⟩
      refine List.pairwise_append.mpr ⟨ordered, by simp, fun y _ z last => ?_⟩
      obtain rfl := List.mem_singleton.mp last
      exact less_nan number
  | false =>
      have here : (set.nodes x).Proper := ⟨sized, number⟩
      -- among proper nodes the comparison is that of the ranks
      have ranks : (inorder tree).Pairwise fun y z => (set.nodes y).rank ≤ (set.nodes z).rank := by
        refine ordered.imp_of_mem fun {y z} memberY memberZ above => ?_
        rw [less_eq (proper z memberZ) (proper y memberY), Option.some.injEq, decide_eq_false_iff_not, not_lt] at above
        exact above
      have upward : (inorder tree).Pairwise fun y z => goesBefore set x y = true → goesBefore set x z = true := by
        refine ranks.imp fun {y z} le above => ?_
        simp only [goesBefore, decide_eq_true_eq] at above ⊢
        exact above.trans_le le
      obtain ⟨front, back, same, divides⟩ := exists_divides upward
      refine ⟨goesBefore set x, front, back, goesBefore_steers here proper, same, divides, ?_⟩
      rw [same] at ordered proper
      obtain ⟨orderedFront, orderedBack, across⟩ := List.pairwise_append.mp ordered
      refine List.pairwise_append.mpr ⟨orderedFront, List.pairwise_cons.mpr ⟨fun z member => ?_, orderedBack⟩, ?_⟩
      · have below := divides.back z member
        simp only [goesBefore, decide_eq_true_eq] at below
        rw [less_eq (proper z (List.mem_append_right _ member)) here, decide_eq_false below.not_gt]
      · intro y memberY z memberZ
        rcases List.mem_cons.mp memberZ with rfl | inside
        · have above := divides.front y memberY
          rw [less_eq here (proper y (List.mem_append_left _ memberY))]
          exact congrArg some above
        · exact across y memberY z inside

/-- `fixAVL` from a fresh node at any empty place of a well-formed tree returns a well-formed tree with the node at that
place. So `treeAdd` puts a node of any score and name where the order is kept. -/
theorem insertion_balances :
    (∀ {h : Heap} {root : Option Addr} {tree : BinaryTree Addr} {x : Addr} {place : Place} {fuel : Nat},
      WellFormed h root tree → tree.numNodes + 1 < 2 ^ 32 → x ∉ inorder tree → Vacant h root tree place →
      tree.height < fuel →
      ∃ h' root' tree', fixAVL fuel (hang h x place) x = some (h', root') ∧ WellFormed h' (some root') tree' ∧
        (h' root').parent = none ∧ Placed x place (inorder tree) (inorder tree')) ∧
    ∀ {set : ZSet} {tree : BinaryTree Addr} {x : Addr} {fuel : Nat},
      WellFormed set.heap set.tree tree → tree.numNodes + 1 < 2 ^ 32 → x ∉ inorder tree → set.heap x = Avl.init →
      (set.nodes x).name.length = (set.nodes x).len → (∀ y ∈ inorder tree, (set.nodes y).Proper) →
      Ordered set (inorder tree) → tree.height < fuel →
      ∃ h root tree', treeAdd fuel set x = some { set with heap := h, tree := some root } ∧
        WellFormed h (some root) tree' ∧ (h root).parent = none ∧ Ordered set (inorder tree') ∧
        (inorder tree').Perm (x :: inorder tree) := by
  constructor
  · intro h root tree x place fuel wf few outside vacant enough
    obtain ⟨h', root', tree', fixed, wf', top, placed, _⟩ := wf.hang few vacant outside enough
    exact ⟨h', root', tree', fixed, wf', top, placed⟩
  · intro set tree x fuel wf few outside fresh sized proper ordered enough
    obtain ⟨goLeft, front, back, steers, same, divides, ordered'⟩ := exists_place sized proper ordered
    obtain ⟨h, root, tree', added, holds, order, _⟩ := treeAdd_holds wf.toHolds (by omega) steers outside
      (by rw [fresh]; rfl) (by rw [fresh]; rfl) enough divides same
    have perm : (inorder tree').Perm (x :: inorder tree) := by
      rw [order, same]
      exact List.perm_middle
    have size := perm.length_eq
    rw [List.length_cons, length_inorder, length_inorder] at size
    exact ⟨h, root, tree', added, ⟨holds, by omega⟩, holds.rep.parent_eq, by rw [order]; exact ordered', perm⟩

/-- A node at the right of the last one of three, and a node in an empty set. -/
theorem insertion_balances_last :
    (∃ h root tree', fixAVL 3 (hang threeNodes 3 (some (2, .right))) 3 = some (h, root) ∧
      WellFormed h (some root) tree' ∧ inorder tree' = [0, 1, 2, 3]) ∧
    ∃ h root tree', treeAdd 1 initZSet 0 = some { initZSet with heap := h, tree := some root } ∧
      WellFormed h (some root) tree' ∧ (inorder tree').Perm [0] := by
  constructor
  · obtain ⟨h, root, tree', fixed, wf, _, placed⟩ := @insertion_balances.1 _ _ _ 3 (some (2, .right)) 3
      threeNodes_wellFormed (by decide) (by decide) ⟨by decide, rfl⟩ (by decide)
    refine ⟨h, root, tree', fixed, wf, ?_⟩
    simp only [inorder_node, inorder_nil, List.nil_append, List.singleton_append] at placed
    exact placed.unique (by decide) (@Placed.right 3 2 [0, 1] [])
  · obtain ⟨h, root, tree', added, wf, _, _, perm⟩ := @insertion_balances.2 initZSet .nil 0 1
      ⟨initZSet_sound.holds, by decide⟩ (by decide) (by simp) rfl rfl (by simp) .nil Nat.one_pos
    exact ⟨h, root, tree', added, wf, perm⟩

theorem queryFrom_rep {set : ZSet} {score : Double} {name : CxxString} {tree : BinaryTree Addr}
    {path : List (Frame Addr)} {parent curr : Option Addr} {fuel : Nat} (rep : Rep set.heap parent curr tree)
    (proper : ∀ y ∈ inorder tree, (set.nodes y).Proper) (number : score.isNaN = false)
    (enough : tree.height ≤ fuel) :
    queryFrom fuel set score name name.bytes.length curr (after path).head? =
      some (after (descend (fun y => !decide ((set.nodes y).rank < rankOf score name.bytes)) tree path)).head? := by
  induction tree generalizing path parent curr fuel with
  | nil =>
      cases rep
      rw [queryFrom.eq_def]
      rfl
  | node a l r ihLeft ihRight =>
      obtain ⟨rfl, _, _, spot⟩ := rep_node.mp rep
      obtain ⟨fuel, rfl⟩ : ∃ rest, fuel = rest + 1 := ⟨fuel - 1, by simp only [height] at enough; omega⟩
      have compare := lessThan_eq (proper a (by simp)) number name
      simp only [height] at enough
      rw [queryFrom.eq_def]
      simp only [compare, Option.bind_eq_bind, Option.bind_some, descend]
      -- a node that is not below the pair becomes the candidate: the first value after the path
      by_cases below : (set.nodes a).rank < rankOf score name.bytes
      · simp only [below, decide_true, if_true, Bool.not_true, Bool.false_eq_true, if_false]
        exact @ihRight (⟨.right, a, l⟩ :: path) _ _ fuel spot.right (fun y member => proper y (by simp [member]))
          (by omega)
      · simp only [below, decide_false, if_true, Bool.not_false, Bool.false_eq_true, if_false]
        exact @ihLeft (⟨.left, a, r⟩ :: path) _ _ fuel spot.left (fun y member => proper y (by simp [member]))
          (by omega)

theorem query_sound {set : ZSet} {tree : BinaryTree Addr} (sound : Sound set tree) {score : Double}
    {name : CxxString} (number : score.isNaN = false) :
    ∃ front back, inorder tree = front ++ back ∧
      query set score name name.bytes.length = some back.head? ∧
      (∀ x ∈ front, (set.nodes x).rank < rankOf score name.bytes) ∧
      (∀ x ∈ back, rankOf score name.bytes ≤ (set.nodes x).rank) := by
  obtain ⟨front, back, same, divides⟩ := exists_divides (sound.sorted_upward (rankOf score name.bytes))
  have high := height_le_numNodes tree
  have found := @queryFrom_rep set score name tree [] none set.tree set.rounds sound.holds.rep
    sound.proper number (by rw [sound.rounds_eq]; omega)
  rw [(descend_divides divides same []).2] at found
  refine ⟨front, back, same, by simpa [query, after] using found, ?_, ?_⟩
  · intro x member
    simpa using divides.front x member
  · intro x member
    simpa using divides.back x member

end Coxx.Zset
