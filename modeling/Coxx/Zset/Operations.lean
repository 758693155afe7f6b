import Coxx.Zset.Descent

/-! Every operation of the sorted set keeps the two indexes in agreement. -/

set_option autoImplicit false

namespace Coxx.Zset

open Library BinaryTree Avl

def ZSet.code (set : ZSet) (node : Addr) : Nat := (set.map.nodes node).code

section Lookup

variable {set : ZSet} {tree : BinaryTree Addr}

theorem Sound.setMap (sound : Sound set tree) {s : Map.Store} (tracks : Map.Tracks s (inorder tree)) :
    Sound { set with map := s } tree where
  holds := sound.holds
  tracks := tracks
  few := sound.few
  fresh := sound.fresh
  proper := sound.proper
  sorted := sound.sorted

/-- A search that takes an unreadable comparison for a match stops there, as the program does. -/
theorem compared_cases {cmp : Addr → Option Bool} (s : Map.Store) {found : Option Addr}
    (hit : ∀ n, found = some n → (cmp n).getD true = true) :
    compared cmp (some (s, found)) = some (s, found) ∧ (∀ n, found = some n → cmp n = some true) ∨
      compared cmp (some (s, found)) = none ∧ ∃ n, found = some n ∧ cmp n = none := by
  cases found with
  | none => exact .inl ⟨rfl, by simp⟩
  | some n =>
      have outcome := hit n rfl
      unfold compared
      -- the search stops at a match or at a comparison that has no value; both count as a hit of the table
      cases compare : cmp n with
      | none => exact .inr ⟨by simp [compare], n, rfl, compare⟩
      | some equal =>
          simp only [compare, Option.getD_some] at outcome
          subst outcome
          exact .inl ⟨by simp [compare], by rintro _ ⟨⟩; exact compare⟩

theorem mapCmp_of_not_matches {key : Key} {n : Addr}
    (different : ¬Map.Matches set.map.nodes key.code (fun node => (mapCmp set key node).getD true) n)
    (same : set.code n = key.code) : mapCmp set key n = some false := by
  simp only [Map.Matches, not_and, Bool.not_eq_true] at different
  have outcome := different same
  cases compare : mapCmp set key n with
  | none => simp [compare] at outcome
  | some equal => simpa [compare] using outcome

/-- A search in the map: it migrates only, and answers from the nodes that compare equal, unless a comparison
cannot read its bytes. -/
theorem mapLookup_sound (sound : Sound set tree) (key : Key) :
    (∃ s found, mapLookup set key = some ({ set with map := s }, found) ∧ Sound { set with map := s } tree ∧
      Map.SameCodes set.map s ∧
      (∀ n, found = some n → n ∈ inorder tree ∧ set.code n = key.code ∧ mapCmp set key n = some true) ∧
      (found = none → ∀ n ∈ inorder tree, set.code n = key.code → mapCmp set key n = some false)) ∨
    mapLookup set key = none ∧ ∃ n ∈ inorder tree, mapCmp set key n = none := by
  obtain ⟨s, found, result, tracks, codes, hit, miss⟩ :=
    sound.tracks.lookUp key.code fun node => (mapCmp set key node).getD true
  unfold mapLookup
  rw [result]
  rcases compared_cases s fun n here => (hit n here).2.2 with ⟨done, equal⟩ | ⟨fault, n, here, unreadable⟩
  · refine .inl ⟨s, found, by rw [done, Option.map_some], sound.setMap tracks, codes, ?_, ?_⟩
    · exact fun n here => ⟨(hit n here).1, (hit n here).2.1, equal n here⟩
    · exact fun absent n member same => mapCmp_of_not_matches (miss absent n member) same
  · exact .inr ⟨by rw [fault, Option.map_none], n, (hit n here).1, unreadable⟩

theorem mapPop_sound (sound : Sound set tree) (key : Key) :
    (∃ s found, mapPop set key = some ({ set with map := s }, found) ∧ Map.SameCodes set.map s ∧
      (∀ n, found = some n → n ∈ inorder tree ∧ set.code n = key.code ∧ mapCmp set key n = some true ∧
        Map.Tracks s ((inorder tree).erase n)) ∧
      (found = none → (∀ n ∈ inorder tree, set.code n = key.code → mapCmp set key n = some false) ∧
        Map.Tracks s (inorder tree))) ∨
    mapPop set key = none ∧ ∃ n ∈ inorder tree, mapCmp set key n = none := by
  obtain ⟨s, found, result, codes, hit, miss⟩ :=
    sound.tracks.pop key.code fun node => (mapCmp set key node).getD true
  unfold mapPop
  rw [result]
  rcases compared_cases s fun n here => (hit n here).2.1.2 with ⟨done, equal⟩ | ⟨fault, n, here, unreadable⟩
  · refine .inl ⟨s, found, by rw [done, Option.map_some], codes, ?_, ?_⟩
    · exact fun n here => ⟨(hit n here).1, (hit n here).2.1.1, equal n here, (hit n here).2.2⟩
    · intro absent
      obtain ⟨different, tracks⟩ := miss absent
      exact ⟨fun n member same => mapCmp_of_not_matches (different n member) same, tracks⟩
  · exact .inr ⟨by rw [fault, Option.map_none], n, (hit n here).1, unreadable⟩

end Lookup

theorem sorted_insert {rank : Addr → Rank} {x : Addr} {front back : List Addr}
    (sorted : (front ++ back).Pairwise fun y z => rank y ≤ rank z)
    (divides : Divides (fun y => decide (rank x < rank y)) front back) :
    (front ++ x :: back).Pairwise fun y z => rank y ≤ rank z := by
  obtain ⟨sortedFront, sortedBack, across⟩ := List.pairwise_append.mp sorted
  refine List.pairwise_append.mpr ⟨sortedFront, List.pairwise_cons.mpr ⟨?_, sortedBack⟩, ?_⟩
  · intro y member
    have := divides.back y member
    simp only [decide_eq_true_eq] at this
    exact this.le
  · intro y memberY z memberZ
    rcases List.mem_cons.mp memberZ with rfl | inside
    · have := divides.front y memberY
      simpa using this
    · exact across y memberY z inside

/-- A set whose map already holds a node that is missing in its tree. -/
structure Pending (set : ZSet) (tree : BinaryTree Addr) (x : Addr) : Prop where
  holds : Holds set.heap set.tree tree
  tracks : Map.Tracks set.map (x :: inorder tree)
  few : tree.numNodes + 1 ≤ MAX_OBJECTS
  fresh : ∀ y ∈ x :: inorder tree, y < set.fresh
  proper : ∀ y ∈ x :: inorder tree, (set.nodes y).Proper
  sorted : (inorder tree).Pairwise fun y z => (set.nodes y).rank ≤ (set.nodes z).rank
  left : (set.heap x).left = none
  right : (set.heap x).right = none

/-- A node waits for its place in the tree once its tree node is reset and its record is written. -/
theorem pending_reset {set : ZSet} {tree : BinaryTree Addr} {x : Addr} {node : ZNode}
    (holds : Holds set.heap set.tree tree) (tracks : Map.Tracks set.map (x :: inorder tree))
    (few : tree.numNodes + 1 ≤ MAX_OBJECTS) (fresh : ∀ y ∈ x :: inorder tree, y < set.fresh)
    (own : node.Proper) (proper : ∀ y ∈ inorder tree, (set.nodes y).Proper)
    (sorted : (inorder tree).Pairwise fun y z => (set.nodes y).rank ≤ (set.nodes z).rank) :
    Pending { set with
      heap := Function.update set.heap x Avl.init
      nodes := Function.update set.nodes x node } tree x := by
  have outside : x ∉ inorder tree := (List.nodup_cons.mp tracks.nodup).1
  have apart : ∀ y ∈ inorder tree, y ≠ x := fun y inside equal => outside (equal ▸ inside)
  exact {
    holds := holds.congr fun y inside => Function.update_of_ne (apart y inside) _ _
    tracks := tracks
    few := few
    fresh := fresh
    proper := by
      intro y inside
      rcases List.mem_cons.mp inside with rfl | inside
      · simpa using own
      · simpa [apart y inside] using proper y inside
    sorted := by
      refine sorted.imp_of_mem fun {y z} memberY memberZ le => ?_
      simpa [apart y memberY, apart z memberZ] using le
    left := by simp [Avl.init]
    right := by simp [Avl.init] }

theorem Pending.treeAdd {set : ZSet} {tree : BinaryTree Addr} {x : Addr} (pending : Pending set tree x) :
    ∃ h root tree', Zset.treeAdd set.rounds set x = some { set with heap := h, tree := root } ∧
      Sound { set with heap := h, tree := root } tree' ∧ (inorder tree').Perm (x :: inorder tree) := by
  have outside : x ∉ inorder tree := (List.nodup_cons.mp pending.tracks.nodup).1
  have few := pending.few
  unfold MAX_OBJECTS at few
  have rounds : set.rounds = 2 * (tree.numNodes + 1) + 2 := by
    rw [ZSet.rounds, pending.tracks.size_eq, List.length_cons, length_inorder]
  have high := height_le_numNodes tree
  have upward : (inorder tree).Pairwise fun y z =>
      goesBefore set x y = true → goesBefore set x z = true := by
    refine pending.sorted.imp fun {y z} le above => ?_
    simp only [goesBefore, decide_eq_true_eq] at above ⊢
    exact above.trans_le le
  obtain ⟨front, back, same, divides⟩ := exists_divides upward
  obtain ⟨h, root, tree', added, holds, order, _⟩ := treeAdd_holds pending.holds (by omega)
    (goesBefore_steers (pending.proper x (by simp)) fun y member => pending.proper y (List.mem_cons_of_mem _ member))
    outside pending.left pending.right (show tree.height < set.rounds by omega) divides same
  have perm : (inorder tree').Perm (x :: inorder tree) := by
    rw [order, same]
    exact List.perm_middle
  refine ⟨h, some root, tree', added, ?_, perm⟩
  exact {
    holds := holds
    tracks := pending.tracks.perm perm.symm
    few := by
      have size := perm.length_eq
      rw [List.length_cons, length_inorder, length_inorder] at size
      rw [size]
      exact pending.few
    fresh := fun y member => pending.fresh y (perm.mem_iff.mp member)
    proper := fun y member => pending.proper y (perm.mem_iff.mp member)
    sorted := by
      rw [order]
      exact sorted_insert (same ▸ pending.sorted) divides }

theorem treeDel_holds {set : ZSet} {tree : BinaryTree Addr} {x : Addr} (holds : Holds set.heap set.tree tree)
    (fits : tree.numNodes + 1 < 2 ^ 64) (member : x ∈ inorder tree) (enough : tree.numNodes ≤ set.rounds) :
    ∃ h root tree', treeDel set x = some { set with heap := h, tree := root } ∧ Holds h root tree' ∧
      inorder tree' = (inorder tree).erase x := by
  have high := height_le_numNodes tree
  obtain ⟨h, root, tree', deleted, holds', order, _⟩ :=
    delAVL_holds set.rounds set.rounds holds fits member (by omega) enough
  exact ⟨h, root, tree', by simp [treeDel, deleted], holds', order⟩

theorem popped_sound {set : ZSet} {tree : BinaryTree Addr} {x : Addr} {s : Map.Store} (sound : Sound set tree)
    (member : x ∈ inorder tree) (tracks : Map.Tracks s ((inorder tree).erase x)) :
    ∃ h root tree', treeDel { set with map := s } x = some { set with map := s, heap := h, tree := root } ∧
      Sound { set with map := s, heap := h, tree := root } tree' ∧ inorder tree' = (inorder tree).erase x := by
  have fits := sound.fits
  have size := List.length_erase_of_mem member
  rw [length_inorder] at size
  have rounds : ({ set with map := s } : ZSet).rounds = 2 * (tree.numNodes - 1) + 2 := by
    rw [ZSet.rounds, tracks.size_eq, size]
  obtain ⟨h, root, tree', deleted, holds, order⟩ :=
    @treeDel_holds { set with map := s } tree x sound.holds (by omega) member (by rw [rounds]; omega)
  have within : ∀ y ∈ inorder tree', y ∈ inorder tree := fun y inside =>
    List.mem_of_mem_erase (order ▸ inside)
  refine ⟨h, root, tree', deleted, ?_, order⟩
  exact {
    holds := holds
    tracks := by rw [order]; exact tracks
    few := by
      have fewer : tree'.numNodes ≤ tree.numNodes := by rw [← length_inorder tree', order, size]; omega
      exact fewer.trans sound.few
    fresh := fun y inside => sound.fresh y (within y inside)
    proper := fun y inside => sound.proper y (within y inside)
    sorted := by
      rw [order]
      exact sound.sorted.sublist List.erase_sublist }

/-- The score a member has after a new one is given: an equal score is ignored. -/
def newScore (old score : Double) : Double := if old.eq score then old else score

theorem update_sound {set : ZSet} {tree : BinaryTree Addr} {x : Addr} {score : Double} (sound : Sound set tree)
    (member : x ∈ inorder tree) (number : score.isNaN = false) :
    ∃ h root tree', update set x score = some { set with
        heap := h
        tree := root
        nodes := Function.update set.nodes x { set.nodes x with score := newScore (set.nodes x).score score } } ∧
      Sound { set with
        heap := h
        tree := root
        nodes := Function.update set.nodes x { set.nodes x with score := newScore (set.nodes x).score score } } tree' ∧
      (inorder tree').Perm (inorder tree) := by
  by_cases same : (set.nodes x).score.eq score = true
  · have unchanged : Function.update set.nodes x { set.nodes x with score := newScore (set.nodes x).score score } =
        set.nodes := by
      simp [newScore, same]
    refine ⟨set.heap, set.tree, tree, ?_, ?_, List.Perm.refl _⟩
    · rw [unchanged]; simp [update, same]
    · rw [unchanged]; exact sound
  · have fits := sound.fits
    obtain ⟨h, root, tree1, deleted, holds, order⟩ :=
      treeDel_holds sound.holds (by omega) member (by rw [sound.rounds_eq]; omega)
    have score' : newScore (set.nodes x).score score = score := by simp [newScore, same]
    have perm : (inorder tree).Perm (x :: inorder tree1) := by
      rw [order]; exact List.perm_cons_erase member
    have size := perm.length_eq
    rw [List.length_cons, length_inorder, length_inorder] at size
    have within : ∀ y ∈ inorder tree1, y ∈ inorder tree := fun y inside =>
      perm.mem_iff.mpr (List.mem_cons_of_mem _ inside)
    have sub : (inorder tree1).Sublist (inorder tree) := by rw [order]; exact List.erase_sublist
    -- between `treeDel` and `treeAdd` the member is in the map only
    have pending := @pending_reset { set with heap := h, tree := root } tree1 x { set.nodes x with score := score }
      holds (sound.tracks.perm perm) (by rw [← size]; exact sound.few)
      (fun y inside => sound.fresh y (perm.mem_iff.mpr inside)) ⟨(sound.proper x member).sized, number⟩
      (fun y inside => sound.proper y (within y inside)) (sound.sorted.sublist sub)
    obtain ⟨h', root', tree', added, sound', perm'⟩ := pending.treeAdd
    refine ⟨h', root', tree', ?_, by rw [score']; exact sound', perm'.trans perm.symm⟩
    rw [score']
    simp only [update, same, Bool.false_eq_true, if_false, deleted, Option.bind_eq_bind, Option.bind_some]
    exact added

theorem lt_next {fresh : Addr} {present : List Addr} (below : ∀ y ∈ present, y < fresh) :
    ∀ y ∈ fresh :: present, y < fresh + 1 :=
  List.forall_mem_cons.mpr ⟨Nat.lt_succ_self _, fun y inside => Nat.lt_succ_of_lt (below y inside)⟩

theorem create_eq {set : ZSet} {tree : BinaryTree Addr} {name : CxxString} {len : Nat} {score : Double} {copy : Bytes}
    (sound : Sound set tree) (room : tree.numNodes < MAX_OBJECTS) (readable : name.read len = some copy) :
    create set name len score = some ({ set with
      heap := Function.update set.heap set.fresh Avl.init
      map.nodes := Function.update set.map.nodes set.fresh ⟨none, stringHash name.bytes⟩
      nodes := Function.update set.nodes set.fresh ⟨score, len, copy⟩
      fresh := set.fresh + 1 }, set.fresh) := by
  rw [create, if_neg (by rw [sound.size_eq]; omega)]
  simp [readable]

theorem addNew_sound {set : ZSet} {tree : BinaryTree Addr} {name : CxxString} {len : Nat} {score : Double}
    {copy : Bytes} (sound : Sound set tree) (number : score.isNaN = false)
    (room : tree.numNodes < MAX_OBJECTS) (readable : name.read len = some copy) :
    ∃ set' tree', addNew set name len score = some set' ∧ Sound set' tree' ∧
      (inorder tree').Perm (set.fresh :: inorder tree) ∧
      set'.nodes = Function.update set.nodes set.fresh ⟨score, len, copy⟩ ∧
      ∀ y, set'.code y = if y = set.fresh then stringHash name.bytes else set.code y := by
  have fits := sound.fits
  have outside : set.fresh ∉ inorder tree := fun member => sound.ne_fresh member rfl
  -- the fresh address is no member, so filling its records changes no member
  have tracks := sound.tracks.congr (Function.update set.map.nodes set.fresh ⟨none, stringHash name.bytes⟩)
    fun y inside => Function.update_of_ne (sound.ne_fresh inside) _ _
  obtain ⟨s, inserted, tracks', codes⟩ := tracks.insert outside (by rw [length_inorder]; omega)
  have pending := @pending_reset { set with map := s, fresh := set.fresh + 1 } tree set.fresh ⟨score, len, copy⟩
    sound.holds tracks' room (lt_next sound.fresh) ⟨CxxString.length_read readable, number⟩ sound.proper sound.sorted
  obtain ⟨h, root, tree', added, sound', perm⟩ := pending.treeAdd
  refine ⟨_, tree', ?_, sound', perm, rfl, ?_⟩
  · simp only [addNew, create_eq sound room readable, inserted, Option.bind_eq_bind, Option.bind_some]
    exact added
  · intro y
    have same := codes y
    simp only [ZSet.code]
    rw [same]
    by_cases here : y = set.fresh
    · simp [here]
    · simp [here]

end Coxx.Zset
