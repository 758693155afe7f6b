import Coxx.Zset.Operations

/-! The sorted set as a map from names to scores.

`good` says which names are looked up by all of their bytes; the others are carried along.
-/

set_option autoImplicit false

namespace Coxx.Zset

open Library BinaryTree Avl

/-- A good name belongs to one node at most, and the map finds that node by the hash of the name. -/
structure Keyed (good : Bytes → Prop) (set : ZSet) (tree : BinaryTree Addr) : Prop where
  hashed : ∀ x ∈ inorder tree, good (set.nodes x).name → set.code x = stringHash (set.nodes x).name
  unique : ∀ x ∈ inorder tree, ∀ y ∈ inorder tree, good (set.nodes x).name →
    (set.nodes x).name = (set.nodes y).name → x = y

/-- The scores of the good names. -/
def Maps (good : Bytes → Prop) (set : ZSet) (tree : BinaryTree Addr) (scores : Bytes → Option Double) : Prop :=
  ∀ name, good name → ∀ score, scores name = some score ↔
    ∃ x ∈ inorder tree, (set.nodes x).name = name ∧ (set.nodes x).score = score

section Members

variable {good : Bytes → Prop} {set : ZSet} {tree : BinaryTree Addr} {scores : Bytes → Option Double}

theorem Keyed.setMap (keyed : Keyed good set tree) {s : Map.Store} (codes : Map.SameCodes set.map s) :
    Keyed good { set with map := s } tree where
  hashed x member clean := (codes x).trans (keyed.hashed x member clean)
  unique := keyed.unique

theorem Keyed.erase (keyed : Keyed good set tree) {set' : ZSet} {tree' : BinaryTree Addr} {x : Addr}
    (order : inorder tree' = (inorder tree).erase x) (nodes : set'.nodes = set.nodes)
    (codes : ∀ y, set'.code y = set.code y) : Keyed good set' tree' := by
  have within : ∀ y ∈ inorder tree', y ∈ inorder tree := fun y inside => List.mem_of_mem_erase (order ▸ inside)
  constructor
  · intro y inside clean
    rw [nodes] at clean ⊢
    rw [codes]
    exact keyed.hashed y (within y inside) clean
  · intro y insideY z insideZ clean same
    rw [nodes] at clean same
    exact keyed.unique y (within y insideY) z (within z insideZ) clean same

theorem exists_maps (keyed : Keyed good set tree) : ∃ scores, Maps good set tree scores := by
  classical
  refine ⟨fun name => if found : ∃ x ∈ inorder tree, (set.nodes x).name = name
    then some (set.nodes found.choose).score else none, ?_⟩
  intro name clean score
  by_cases found : ∃ x ∈ inorder tree, (set.nodes x).name = name
  · obtain ⟨member, same⟩ := found.choose_spec
    simp only [found, dif_pos, Option.some.injEq]
    constructor
    · rintro rfl
      exact ⟨found.choose, member, same, rfl⟩
    · rintro ⟨y, memberY, sameY, rfl⟩
      rw [keyed.unique _ member y memberY (by rw [same]; exact clean) (same.trans sameY.symm)]
  · simp only [found, dif_neg, not_false_eq_true, reduceCtorEq, false_iff]
    rintro ⟨y, memberY, sameY, _⟩
    exact found ⟨y, memberY, sameY⟩

theorem Maps.none_iff (maps : Maps good set tree scores) {name : Bytes} (clean : good name) :
    scores name = none ↔ ∀ x ∈ inorder tree, (set.nodes x).name ≠ name := by
  constructor
  · intro absent x member same
    have := (maps name clean _).mpr ⟨x, member, same, rfl⟩
    rw [absent] at this
    cases this
  · intro absent
    cases found : scores name with
    | none => rfl
    | some score =>
        obtain ⟨x, member, same, _⟩ := (maps name clean score).mp found
        exact absurd same (absent x member)

theorem lookup_whole (sound : Sound set tree) (keyed : Keyed good set tree) (name : CxxString) (copy : Tail)
    (clean : good name.bytes) :
    ∃ s found, lookup set name copy name.bytes.length = some ({ set with map := s }, found) ∧
      Sound { set with map := s } tree ∧ Map.SameCodes set.map s ∧
      (∀ n, found = some n → n ∈ inorder tree ∧ (set.nodes n).name = name.bytes) ∧
      (found = none → ∀ n ∈ inorder tree, (set.nodes n).name ≠ name.bytes) := by
  by_cases empty : set.tree.isNone = true
  · have shape := sound.tree_none.mp empty
    refine ⟨set.map, none, by rw [lookup, if_pos empty], sound, Map.SameCodes.refl _, by simp, ?_⟩
    intro _ n member
    simp [shape] at member
  · rw [lookup, if_neg empty]
    have compare : ∀ n ∈ inorder tree, mapCmp set (makeKey name copy name.bytes.length) n =
        some (decide ((set.nodes n).name = name.bytes)) := fun n member => mapCmp_eq (sound.proper n member) rfl
    rcases mapLookup_sound sound (makeKey name copy name.bytes.length) with
      ⟨s, found, result, sound', codes, hit, miss⟩ | ⟨_, n, member, fault⟩
    · refine ⟨s, found, result, sound', codes, ?_, ?_⟩
      · intro n here
        obtain ⟨member, _, equal⟩ := hit n here
        rw [compare n member] at equal
        exact ⟨member, by simpa using equal⟩
      · intro absent n member same
        have different := miss absent n member (by rw [keyed.hashed n member (same ▸ clean), same]; rfl)
        rw [compare n member] at different
        simp [same] at different
    · rw [compare n member] at fault
      cases fault

/-- A new node keeps the names apart when a good copy of its name is the name itself and was missing. -/
theorem addNew_keyed (sound : Sound set tree) (keyed : Keyed good set tree) {name : CxxString} {len : Nat}
    {score : Double} {copy : Bytes} (number : score.isNaN = false) (room : tree.numNodes < MAX_OBJECTS)
    (readable : name.read len = some copy)
    (new : good copy → copy = name.bytes ∧ ∀ x ∈ inorder tree, (set.nodes x).name ≠ copy) :
    ∃ set' tree', addNew set name len score = some set' ∧ Sound set' tree' ∧ Keyed good set' tree' ∧
      (inorder tree').Perm (set.fresh :: inorder tree) ∧
      set'.nodes = Function.update set.nodes set.fresh ⟨score, len, copy⟩ := by
  obtain ⟨set', tree', added, sound', perm, nodes, codes⟩ := addNew_sound sound number room readable
  refine ⟨set', tree', added, sound', ⟨?_, ?_⟩, perm, nodes⟩
  · intro x member clean
    rw [codes, nodes] at *
    rcases List.mem_cons.mp (perm.mem_iff.mp member) with rfl | inside
    · simp only [Function.update_self, if_true] at clean ⊢
      rw [(new clean).1]
    · simp only [Function.update_of_ne (sound.ne_fresh inside), if_neg (sound.ne_fresh inside)] at clean ⊢
      exact keyed.hashed x inside clean
  · intro x memberX y memberY clean same
    rw [nodes] at clean same
    rcases List.mem_cons.mp (perm.mem_iff.mp memberX) with rfl | insideX
    · rcases List.mem_cons.mp (perm.mem_iff.mp memberY) with rfl | insideY
      · rfl
      · simp only [Function.update_self, Function.update_of_ne (sound.ne_fresh insideY)] at clean same
        exact absurd same.symm ((new clean).2 y insideY)
    · rcases List.mem_cons.mp (perm.mem_iff.mp memberY) with rfl | insideY
      · simp only [Function.update_self, Function.update_of_ne (sound.ne_fresh insideX)] at clean same
        exact absurd same ((new (same ▸ clean)).2 x insideX)
      · simp only [Function.update_of_ne (sound.ne_fresh insideX), Function.update_of_ne (sound.ne_fresh insideY)] at clean same
        exact keyed.unique x insideX y insideY clean same

theorem update_keyed (sound : Sound set tree) (keyed : Keyed good set tree) {x : Addr} {score : Double}
    (member : x ∈ inorder tree) (number : score.isNaN = false) :
    ∃ set' tree', update set x score = some set' ∧ Sound set' tree' ∧ Keyed good set' tree' ∧
      (inorder tree').Perm (inorder tree) ∧
      set'.nodes = Function.update set.nodes x { set.nodes x with score := newScore (set.nodes x).score score } := by
  obtain ⟨h, root, tree', updated, sound', perm⟩ := update_sound sound member number
  have names : ∀ y, (Function.update set.nodes x
      { set.nodes x with score := newScore (set.nodes x).score score } y).name = (set.nodes y).name := by
    intro y
    by_cases same : y = x
    · subst same; simp
    · simp [same]
  refine ⟨_, tree', updated, sound', ⟨?_, ?_⟩, perm, rfl⟩
  · intro y inside clean
    simp only [names] at clean ⊢
    exact keyed.hashed y (perm.mem_iff.mp inside) clean
  · intro y insideY z insideZ clean same
    simp only [names] at clean same
    exact keyed.unique y (perm.mem_iff.mp insideY) z (perm.mem_iff.mp insideZ) clean same

def added (old : Option Double) (score : Double) : Double :=
  match old with
  | some old => newScore old score
  | none => score

theorem maps_update {set' : ZSet} {tree' : BinaryTree Addr} {x : Addr} {score : Double} (keyed : Keyed good set tree)
    (maps : Maps good set tree scores) (member : x ∈ inorder tree) (perm : (inorder tree').Perm (inorder tree))
    (nodes : set'.nodes = Function.update set.nodes x { set.nodes x with score := score }) :
    Maps good set' tree' (Function.update scores (set.nodes x).name (some score)) := by
  intro name clean value
  rw [nodes]
  by_cases here : name = (set.nodes x).name
  · subst here
    simp only [Function.update_self, Option.some.injEq]
    constructor
    · rintro rfl
      exact ⟨x, perm.mem_iff.mpr member, by simp, by simp⟩
    · rintro ⟨y, inside, same, value⟩
      by_cases equal : y = x
      · subst equal; simpa using value
      · rw [Function.update_of_ne equal] at same
        exact absurd (keyed.unique x member y (perm.mem_iff.mp inside) clean same.symm).symm equal
  · rw [Function.update_of_ne here, maps name clean value]
    constructor
    · rintro ⟨y, inside, same, value⟩
      have apart : y ≠ x := by rintro rfl; exact here same.symm
      exact ⟨y, perm.mem_iff.mpr inside, by simpa [apart] using same, by simpa [apart] using value⟩
    · rintro ⟨y, inside, same, value⟩
      have apart : y ≠ x := by
        rintro rfl
        simp only [Function.update_self] at same
        exact here same.symm
      rw [Function.update_of_ne apart] at same value
      exact ⟨y, perm.mem_iff.mp inside, same, value⟩

theorem maps_new {set' : ZSet} {tree' : BinaryTree Addr} {node : ZNode} (sound : Sound set tree)
    (maps : Maps good set tree scores) (absent : ∀ x ∈ inorder tree, (set.nodes x).name ≠ node.name)
    (perm : (inorder tree').Perm (set.fresh :: inorder tree))
    (nodes : set'.nodes = Function.update set.nodes set.fresh node) :
    Maps good set' tree' (Function.update scores node.name (some node.score)) := by
  intro name clean value
  rw [nodes]
  by_cases here : name = node.name
  · subst here
    simp only [Function.update_self, Option.some.injEq]
    constructor
    · rintro rfl
      exact ⟨set.fresh, perm.mem_iff.mpr (by simp), by simp, by simp⟩
    · rintro ⟨y, inside, same, value⟩
      rcases List.mem_cons.mp (perm.mem_iff.mp inside) with rfl | inside
      · simpa using value
      · rw [Function.update_of_ne (sound.ne_fresh inside)] at same
        exact absurd same (absent y inside)
  · rw [Function.update_of_ne here, maps name clean value]
    constructor
    · rintro ⟨y, inside, same, value⟩
      exact ⟨y, perm.mem_iff.mpr (List.mem_cons_of_mem _ inside), by simpa [sound.ne_fresh inside] using same,
        by simpa [sound.ne_fresh inside] using value⟩
    · rintro ⟨y, inside, same, value⟩
      rcases List.mem_cons.mp (perm.mem_iff.mp inside) with rfl | inside
      · simp only [Function.update_self] at same
        exact absurd same.symm here
      · rw [Function.update_of_ne (sound.ne_fresh inside)] at same value
        exact ⟨y, inside, same, value⟩

theorem maps_erase {set' : ZSet} {tree' : BinaryTree Addr} {x : Addr} (sound : Sound set tree)
    (keyed : Keyed good set tree) (maps : Maps good set tree scores) (member : x ∈ inorder tree)
    (clean : good (set.nodes x).name) (order : inorder tree' = (inorder tree).erase x)
    (nodes : set'.nodes = set.nodes) : Maps good set' tree' (Function.update scores (set.nodes x).name none) := by
  have distinct := sound.holds.distinct
  intro name cleanName value
  rw [nodes, order]
  by_cases here : name = (set.nodes x).name
  · subst here
    simp only [Function.update_self, reduceCtorEq, false_iff]
    rintro ⟨y, inside, same, _⟩
    have equal := keyed.unique x member y (List.mem_of_mem_erase inside) clean same.symm
    exact distinct.not_mem_erase (equal ▸ inside)
  · rw [Function.update_of_ne here, maps name cleanName value]
    constructor
    · rintro ⟨y, inside, same, value⟩
      have apart : y ≠ x := by rintro rfl; exact here same.symm
      exact ⟨y, (List.mem_erase_of_ne apart).mpr inside, same, value⟩
    · rintro ⟨y, inside, same, value⟩
      exact ⟨y, List.mem_of_mem_erase inside, same, value⟩

theorem Maps.setMap (maps : Maps good set tree scores) (s : Map.Store) : Maps good { set with map := s } tree scores :=
  maps

inductive AddStep (set set' : ZSet) (tree tree' : BinaryTree Addr) (name : Bytes) (score : Double) : Bool → Prop where
  | new {node : Addr} (outside : node ∉ inorder tree) (linked : (inorder tree').Perm (node :: inorder tree))
      (nodes : set'.nodes = Function.update set.nodes node ⟨score, name.length, name⟩) :
      AddStep set set' tree tree' name score true
  | old {node : Addr} (member : node ∈ inorder tree) (same : (set.nodes node).name = name)
      (linked : (inorder tree').Perm (inorder tree))
      (nodes : set'.nodes = Function.update set.nodes node
        { set.nodes node with score := newScore (set.nodes node).score score }) :
      AddStep set set' tree tree' name score false

theorem add_whole (sound : Sound set tree) (keyed : Keyed good set tree) (maps : Maps good set tree scores)
    (name : CxxString) (copy : Tail) {score : Double} (clean : good name.bytes) (number : score.isNaN = false)
    (room : tree.numNodes < MAX_OBJECTS) :
    ∃ set' tree', add set name copy name.bytes.length score = some (set', (scores name.bytes).isNone) ∧
      Sound set' tree' ∧ Keyed good set' tree' ∧
      Maps good set' tree' (Function.update scores name.bytes (some (added (scores name.bytes) score))) ∧
      AddStep set set' tree tree' name.bytes score (scores name.bytes).isNone := by
  obtain ⟨s, found, result, sound1, codes, hit, miss⟩ := lookup_whole sound keyed name copy clean
  have keyed1 := keyed.setMap codes
  cases found with
  | some n =>
      obtain ⟨member, same⟩ := hit n rfl
      have known : scores name.bytes = some (set.nodes n).score := (maps _ clean _).mpr ⟨n, member, same, rfl⟩
      obtain ⟨set', tree', updated, sound', keyed', perm, nodes⟩ := update_keyed sound1 keyed1 member number
      rw [known]
      refine ⟨set', tree', by simp [add, result, updated], sound', keyed', ?_, .old member same perm nodes⟩
      rw [← same]
      exact @maps_update good { set with map := s } _ _ _ _ _ _ keyed1 (maps.setMap s) member perm nodes
  | none =>
      have absent := miss rfl
      have unknown : scores name.bytes = none := (maps.none_iff clean).mpr absent
      obtain ⟨set', tree', created, sound', keyed', perm, nodes⟩ :=
        addNew_keyed sound1 keyed1 number room (show name.read name.bytes.length = some name.bytes by simp)
          fun _ => ⟨rfl, absent⟩
      rw [unknown]
      refine ⟨set', tree', by simp [add, result, created], sound', keyed', ?_, .new ?_ perm nodes⟩
      · exact @maps_new good { set with map := s } _ _ _ _ ⟨score, name.bytes.length, name.bytes⟩ sound1
          (maps.setMap s) absent perm nodes
      · exact fun member => sound.ne_fresh member rfl

theorem pop_whole (sound : Sound set tree) (keyed : Keyed good set tree) (maps : Maps good set tree scores)
    (name : CxxString) (copy : Tail) (clean : good name.bytes) :
    ∃ set' found tree', pop set name copy name.bytes.length = some (set', found) ∧ Sound set' tree' ∧
      Keyed good set' tree' ∧ Maps good set' tree' (Function.update scores name.bytes none) ∧
      set'.nodes = set.nodes ∧
      (∀ n, found = some n → n ∈ inorder tree ∧ (set.nodes n).name = name.bytes ∧
        inorder tree' = (inorder tree).erase n) ∧
      (found = none → scores name.bytes = none ∧ tree' = tree) := by
  by_cases empty : set.tree.isNone = true
  · have shape := sound.tree_none.mp empty
    have unknown : scores name.bytes = none := (maps.none_iff clean).mpr (by simp [shape])
    refine ⟨set, none, tree, by rw [pop, if_pos empty], sound, keyed, ?_, rfl, by simp, fun _ => ⟨unknown, rfl⟩⟩
    rw [← unknown, Function.update_eq_self]
    exact maps
  -- whole names are compared within their bytes, so no comparison faults
  · have compare : ∀ n ∈ inorder tree, mapCmp set (makeKey name copy name.bytes.length) n =
        some (decide ((set.nodes n).name = name.bytes)) := fun n member => mapCmp_eq (sound.proper n member) rfl
    rcases mapPop_sound sound (makeKey name copy name.bytes.length) with
      ⟨s, found, result, codes, hit, miss⟩ | ⟨_, n, member, fault⟩
    · cases found with
      | some n =>
          obtain ⟨member, _, equal, tracks⟩ := hit n rfl
          rw [compare n member] at equal
          have same : (set.nodes n).name = name.bytes := by simpa using equal
          obtain ⟨h, root, tree', deleted, sound', order⟩ := popped_sound sound member tracks
          refine ⟨_, some n, tree', ?_, sound', keyed.erase order rfl codes, ?_, rfl, ?_, by simp⟩
          · simp only [pop, if_neg empty, result, Option.bind_eq_bind, Option.bind_some, deleted, Option.map_some]
          · rw [← same]
            exact maps_erase sound keyed maps member (same ▸ clean) order rfl
          · rintro _ ⟨⟩
            exact ⟨member, same, order⟩
      | none =>
          obtain ⟨different, tracks⟩ := miss rfl
          have absent : ∀ n ∈ inorder tree, (set.nodes n).name ≠ name.bytes := by
            intro n member same
            have differs := different n member (by rw [keyed.hashed n member (same ▸ clean), same]; rfl)
            rw [compare n member] at differs
            simp [same] at differs
          have unknown : scores name.bytes = none := (maps.none_iff clean).mpr absent
          refine ⟨{ set with map := s }, none, tree, ?_, sound.setMap tracks, keyed.setMap codes, ?_, rfl, by simp,
            fun _ => ⟨unknown, rfl⟩⟩
          · simp only [pop, if_neg empty, result, Option.bind_eq_bind, Option.bind_some]
          · rw [← unknown, Function.update_eq_self]
            exact maps.setMap s
    · rw [compare n member] at fault
      cases fault

theorem query_member (sound : Sound set tree) (keyed : Keyed good set tree) {x : Addr} (member : x ∈ inorder tree)
    (clean : good (set.nodes x).name) {score : Double} (number : score.isNaN = false)
    (equal : (set.nodes x).score.eq score = true) (tail : Tail) :
    ∃ front rest, inorder tree = front ++ x :: rest ∧
      query set score ⟨(set.nodes x).name, tail⟩ (set.nodes x).name.length = some (some x) := by
  obtain ⟨front, back, split, found, below, above⟩ := @query_sound set tree sound score ⟨(set.nodes x).name, tail⟩ number
  have place := (Double.eq_iff (sound.proper x member).number number).mp equal
  have rank : rankOf score (set.nodes x).name = (set.nodes x).rank := by
    unfold ZNode.rank rankOf
    rw [place]
  simp only [rank] at below above
  have inside : x ∈ back := by
    rw [split, List.mem_append] at member
    exact member.resolve_left fun early => lt_irrefl _ (below x early)
  cases back with
  | nil => simp at inside
  | cons y rest =>
      have first : y = x := by
        have sorted := sound.sorted
        rw [split, List.pairwise_append, List.pairwise_cons] at sorted
        rcases List.mem_cons.mp inside with same | later
        · exact same.symm
        · -- the first node that is not below has the same rank, hence the same name
          have ranks := le_antisymm (sorted.2.1.1 x later) (above y List.mem_cons_self)
          have names : word (set.nodes y).name = word (set.nodes x).name := congrArg (fun r : Rank => (ofLex r).2) ranks
          refine (keyed.unique x member y ?_ clean (word_injective names).symm).symm
          rw [split]
          exact List.mem_append_right _ List.mem_cons_self
      subst first
      exact ⟨front, rest, split, found⟩

end Members

end Coxx.Zset
