import Coxx.Avl.Rounds
import Coxx.Zset.Runs

/-! Every loop over the tree of a sorted set makes a number of rounds that is logarithmic in the number of members. -/

set_option autoImplicit false

namespace Coxx.Zset

open Library BinaryTree Avl

/-- `treeAdd` walks down and climbs up in a number of rounds that this depth bounds. The last round of `findPlace` takes
no fuel.
-/
structure AddsWithin (deep : Nat) (set : ZSet) (x : Addr) : Prop where
  walk : ∀ root, set.tree = some root → ∃ place, ∀ fuel, deep ≤ fuel + 1 → findPlace fuel set x root = some place
  climb : ∃ h, (∀ fuel, deep ≤ fuel + 1 → attach fuel set x = some h) ∧ Within (deep + 1) fun fuel => fixAVL fuel h x

section Rounds

variable {set : ZSet} {tree : BinaryTree Addr} {members : Members}

theorem findPlace_within {x root : Addr} (holds : Holds set.heap set.tree tree) (here : set.tree = some root)
    (own : (set.nodes x).Proper) (proper : ∀ y ∈ inorder tree, (set.nodes y).Proper) :
    ∃ place, ∀ fuel, tree.height ≤ fuel + 1 → findPlace fuel set x root = some place := by
  have rep := holds.rep
  rw [here] at rep
  have walk := fun fuel (enough : tree.height ≤ fuel + 1) =>
    @findPlace_rep set x _ tree [] root fuel rep trivial (goesBefore_steers own proper) enough
  obtain ⟨frame, rest, path, _, _⟩ := walk tree.height (Nat.le_succ _)
  refine ⟨(frame.value, decide (frame.side = .left)), fun fuel enough => ?_⟩
  obtain ⟨frame', rest', path', found, _⟩ := walk fuel enough
  cases path.symm.trans path'
  exact found

theorem queryFrom_within (sound : Sound set tree) {score : Double} (number : score.isNaN = false) (name : CxxString) :
    Within tree.height fun fuel => queryFrom fuel set score name name.bytes.length set.tree none :=
  ⟨_, fun _ enough => @queryFrom_rep set score name tree [] none set.tree _ sound.holds.rep sound.proper number enough⟩

theorem Pending.addsWithin {x : Addr} (pending : Pending set tree x) : AddsWithin tree.height set x where
  walk root here := findPlace_within pending.holds here (pending.proper x (by simp))
    fun y member => pending.proper y (List.mem_cons_of_mem _ member)
  climb := by
    have outside : x ∉ inorder tree := (List.nodup_cons.mp pending.tracks.nodup).1
    have few := pending.few
    unfold MAX_OBJECTS at few
    obtain ⟨h, attached, spot, around, _⟩ := attach_rep pending.holds
      (goesBefore_steers (pending.proper x (by simp)) fun y member => pending.proper y (List.mem_cons_of_mem _ member))
      outside pending.left pending.right
    have whole := plug_descend (goesBefore set x) tree []
    obtain ⟨h', root, _, fixed, _⟩ := @fixAVL_leaf (tree.height + 1) h (descend (goesBefore set x) tree []) x spot around
      (by rw [whole]; exact pending.holds.distinct) (by rw [whole]; exact outside)
      (by rw [whole]; exact pending.holds.balanced) (by rw [whole]; simp only [plug]; omega)
      (by rw [whole]; exact Nat.lt_succ_self _)
    exact ⟨h, attached, (fixAVL_fueled h x).within fixed⟩

theorem AddsWithin.mono {few many : Nat} {x : Addr} (adds : AddsWithin few set x) (le : few ≤ many) :
    AddsWithin many set x where
  walk root here := by
    obtain ⟨place, found⟩ := adds.walk root here
    exact ⟨place, fun fuel enough => found fuel (Nat.le_trans le enough)⟩
  climb := by
    obtain ⟨h, attached, within⟩ := adds.climb
    exact ⟨h, fun fuel enough => attached fuel (Nat.le_trans le enough), within.mono (Nat.add_le_add_right le 1)⟩

theorem created_pending (sound : Sound set tree) {name : CxxString} {len : Nat} {score : Double}
    (number : score.isNaN = false) {set' : ZSet} {x : Addr} {s : Map.Store}
    (created : create set name len score = some (set', x)) (inserted : Map.CMapInsert set'.map x = some s) :
    Pending { set' with map := s } tree x := by
  have fits := sound.fits
  have room : tree.numNodes < MAX_OBJECTS := by
    by_contra full
    rw [create, if_pos (by rw [sound.size_eq]; omega)] at created
    cases created
  obtain ⟨copy, readable⟩ : ∃ copy, name.read len = some copy := by
    rw [create, if_neg (by rw [sound.size_eq]; omega)] at created
    simp only [Option.bind_eq_bind, Option.bind_eq_some_iff] at created
    obtain ⟨copy, readable, _⟩ := created
    exact ⟨copy, readable⟩
  rw [create_eq sound room readable] at created
  cases created
  have outside : set.fresh ∉ inorder tree := fun member => sound.ne_fresh member rfl
  have tracks := sound.tracks.congr (Function.update set.map.nodes set.fresh ⟨none, stringHash name.bytes⟩)
    fun y inside => Function.update_of_ne (sound.ne_fresh inside) _ _
  obtain ⟨s', inserted', tracks', _⟩ := tracks.insert outside (by rw [length_inorder]; omega)
  cases inserted.symm.trans inserted'
  exact @pending_reset { set with map := s, fresh := set.fresh + 1 } tree set.fresh ⟨score, len, copy⟩
    sound.holds tracks' room (lt_next sound.fresh) ⟨CxxString.length_read readable, number⟩ sound.proper sound.sorted

theorem moved_pending (sound : Sound set tree) {score : Double} (number : score.isNaN = false) {set' : ZSet} {x : Addr}
    (member : x ∈ inorder tree) (deleted : treeDel set x = some set') :
    ∃ tree', tree'.numNodes ≤ tree.numNodes ∧
      Pending { set' with
        nodes := Function.update set'.nodes x { set'.nodes x with score := score }
        heap := Function.update set'.heap x Avl.init } tree' x := by
  have fits := sound.fits
  obtain ⟨h, root, tree', deleted', holds, order⟩ :=
    treeDel_holds sound.holds (by omega) member (by rw [sound.rounds_eq]; omega)
  cases deleted.symm.trans deleted'
  have perm : (inorder tree).Perm (x :: inorder tree') := by
    rw [order]
    exact List.perm_cons_erase member
  have size := perm.length_eq
  rw [List.length_cons, length_inorder, length_inorder] at size
  have sub : (inorder tree').Sublist (inorder tree) := by
    rw [order]
    exact List.erase_sublist
  refine ⟨tree', by omega, ?_⟩
  exact @pending_reset { set with heap := h, tree := root } tree' x { set.nodes x with score := score } holds
    (sound.tracks.perm perm) (by rw [← size]; exact sound.few)
    (fun y inside => sound.fresh y (perm.mem_iff.mpr inside)) ⟨(sound.proper x member).sized, number⟩
    (fun y inside => sound.proper y (sub.subset inside)) (sound.sorted.sublist sub)

end Rounds

/-- The bound for a set of so many members: it is logarithmic in their number. -/
def Members.depth (members : Members) : Nat := depthLimit members.keys.length

/-- Every loop over the tree of a set makes a number of rounds that is logarithmic in the number of members: a query, an
offset from a member, the removal of a member, which recurses twice at most, and the adding of a new member or of one with
a new score. -/
theorem rounds_logarithmic {set : ZSet} {members : Members} (reached : Reached set members) :
    2 ^ (members.depth / 2) ≤ members.keys.length + 1 ∧
    ∃ tree, Agreement set tree members ∧
      (∀ score name, score.isNaN = false →
        Within members.depth fun fuel => queryFrom fuel set score name name.bytes.length set.tree none) ∧
      (∀ x ∈ inorder tree, ∀ off, Within (2 * members.depth) fun fuel => offsetAVL fuel set.heap x off 0) ∧
      (∀ x ∈ inorder tree, ∃ result, ∀ limit fuel, members.depth ≤ limit → 3 ≤ fuel →
        delAVL limit fuel set.heap x = some result) ∧
      (∀ name len score set' x s, score.isNaN = false → create set name len score = some (set', x) →
        Map.CMapInsert set'.map x = some s → AddsWithin members.depth { set' with map := s } x) ∧
      ∀ x ∈ inorder tree, ∀ score set', score.isNaN = false → treeDel set x = some set' →
        AddsWithin members.depth { set' with
          nodes := Function.update set'.nodes x { set'.nodes x with score := score }
          heap := Function.update set'.heap x Avl.init } x := by
  obtain ⟨tree, stores⟩ := reached.stores
  have sound := stores.sound
  have fits := sound.fits
  have few := stores.few
  have nodes := stores.size_eq
  have height : tree.height ≤ members.depth := by
    rw [Members.depth, ← nodes]
    exact sound.holds.balanced.height_le
  refine ⟨two_pow_depthLimit_le _, tree, stores.agreement, ?_, ?_, ?_, ?_, ?_⟩
  · exact fun score name number => (queryFrom_within sound number name).mono height
  · exact fun x member off => (sound.holds.offsetAVL_within (by omega) member off).mono (by omega)
  · intro x member
    obtain ⟨result, done⟩ := sound.holds.delAVL_within (by omega) member
    exact ⟨result, fun limit fuel far deep => done limit fuel (height.trans far) deep⟩
  · intro name len score set' x s number created inserted
    exact (created_pending sound number created inserted).addsWithin.mono height
  · intro x member score set' number deleted
    obtain ⟨tree', fewer, pending⟩ := moved_pending sound number member deleted
    refine pending.addsWithin.mono (pending.holds.balanced.height_le.trans ?_)
    rw [Members.depth, ← nodes]
    exact depthLimit_mono fewer

/-- In a set of three members, a query makes two rounds at most, and an offset four. -/
theorem rounds_logarithmic_three : ∃ set tree, Reached set (addAll ∅ threeNames) ∧ Agreement set tree (addAll ∅ threeNames) ∧
    (addAll ∅ threeNames).keys.length = 3 ∧
    (∀ score name, score.isNaN = false →
      Within 2 fun fuel => queryFrom fuel set score name name.bytes.length set.tree none) ∧
    ∀ x ∈ inorder tree, ∀ off, Within 4 fun fuel => offsetAVL fuel set.heap x off 0 := by
  obtain ⟨set, reached⟩ := Reached.empty.addAll (show ∀ pair ∈ threeNames, pair.2.isNaN = false by decide) (by decide)
  obtain ⟨_, tree, agreement, query, offset, _⟩ := rounds_logarithmic reached
  have deep : Members.depth (addAll ∅ threeNames) = 2 := by decide
  rw [deep] at query offset
  exact ⟨set, tree, reached, agreement, by decide, query, offset⟩

end Coxx.Zset
