import Coxx.Common.Store
import Coxx.Common.Steps

/-! The database simulates the store, command by command, for names of members without NUL bytes. -/

set_option autoImplicit false

namespace Coxx.Common

open Library BinaryTree Zset Request

/-! ### Sorted sets -/

structure Shown (set : ZSet) (tree : BinaryTree Addr) (members : SortedMembers) : Prop where
  sound : Zset.Sound set tree
  keyed : Keyed (fun _ => True) set tree
  maps : Maps (fun _ => True) set tree members.find

section Shown

variable {set set' : ZSet} {tree : BinaryTree Addr} {members : SortedMembers} {name : Bytes} {around : Surroundings}

theorem Shown.mem_iff (shown : Shown set tree members) (member : Member) :
    member ∈ members.list ↔ member ∈ (inorder tree).map (memberOf set) := by
  obtain ⟨name, score⟩ := member
  rw [← members.find_eq_some, shown.maps _ trivial, List.mem_map]
  simp [memberOf]

theorem Shown.list_eq (shown : Shown set tree members) : members.list = (inorder tree).map (memberOf set) := by
  have nodup : ((inorder tree).map fun x => (set.nodes x).name).Nodup :=
    List.Nodup.map_on (fun x memberX y memberY same => shown.keyed.unique x memberX y memberY trivial same)
      shown.sound.holds.distinct
  let listed : SortedMembers := ⟨(inorder tree).map (memberOf set), (ranked shown.sound).sorted, by
    rw [List.map_map]; exact nodup⟩
  have same : members = listed := Ranking.ext_mem Member.rank_distinct shown.mem_iff
  exact congrArg Ranking.list same

theorem Shown.length_eq (shown : Shown set tree members) : tree.numNodes = members.list.length := by
  rw [shown.list_eq, List.length_map, length_inorder]

theorem Shown.clean (shown : Shown set tree members) : Keyed Clean set tree where
  hashed x member _ := shown.keyed.hashed x member trivial
  unique x memberX y memberY _ := shown.keyed.unique x memberX y memberY trivial

theorem shown_init : Shown initZSet .nil Ranking.empty where
  sound := initZSet_sound
  keyed := ⟨by simp, by simp⟩
  maps := by intro name _ score; simp

theorem Shown.lookup (shown : Shown set tree members) (clean : Clean name) :
    ∃ s found, Zset.lookup set ⟨cString name, around.name⟩ around.copy name.length = some ({ set with map := s }, found) ∧
      Shown { set with map := s } tree members ∧ members.find name = found.map fun n => (set.nodes n).score := by
  obtain ⟨s, found, looked, sound, codes, hit, miss⟩ :=
    lookup_whole shown.sound shown.keyed ⟨name, around.name⟩ around.copy trivial
  rw [cString_eq clean]
  refine ⟨s, found, looked, ⟨sound, shown.keyed.setMap codes, shown.maps.setMap s⟩, ?_⟩
  cases found with
  | none => exact (shown.maps.none_iff trivial).mpr (miss rfl)
  | some n => exact (shown.maps name trivial _).mpr ⟨n, (hit n rfl).1, (hit n rfl).2, rfl⟩

theorem Shown.pop (shown : Shown set tree members) (clean : Clean name) :
    ∃ set' found tree', Zset.pop set ⟨cString name, around.name⟩ around.copy name.length = some (set', found) ∧
      Shown set' tree' (members.erase name) ∧ found.isSome = (members.find name).isSome ∧
      (∀ n, found = some n → n ∈ inorder tree ∧ inorder tree' = (inorder tree).erase n) ∧
      (found = none → tree' = tree) := by
  obtain ⟨set', found, tree', popped, sound, keyed, maps, _, hit, miss⟩ :=
    pop_whole shown.sound shown.keyed shown.maps ⟨name, around.name⟩ around.copy trivial
  rw [cString_eq clean]
  refine ⟨set', found, tree', popped, ⟨sound, keyed, by rw [members.find_erase]; exact maps⟩, ?_,
    fun n here => ⟨(hit n here).1, (hit n here).2.2⟩, fun absent => (miss absent).2⟩
  cases found with
  | none => rw [(miss rfl).1]; rfl
  | some n => rw [(shown.maps name trivial _).mpr ⟨n, (hit n rfl).1, (hit n rfl).2.1, rfl⟩]; rfl

theorem Shown.add {score : Double} {added : Bool} (shown : Shown set tree members) (number : score.isNaN = false)
    (clean : Clean name)
    (result : Zset.add set ⟨cString name, around.name⟩ around.copy name.length score = some (set', added)) :
    (∃ tree', Shown set' tree' (members.put name (Zset.added (members.find name) score)) ∧
      (inorder tree').Perm (if added then set.fresh :: inorder tree else inorder tree)) ∧
      added = (members.find name).isNone := by
  obtain ⟨s, found, looked, sound, codes, hit, miss⟩ :=
    lookup_whole shown.sound shown.keyed ⟨name, around.name⟩ around.copy trivial
  have keyed := shown.keyed.setMap codes
  rw [cString_eq clean] at result
  simp only [Zset.add, looked, Option.bind_eq_bind, Option.bind_some] at result
  cases found with
  | some n =>
      have member := (hit n rfl).1
      have same : (set.nodes n).name = name := (hit n rfl).2
      have known : members.find name = some (set.nodes n).score := (shown.maps _ trivial _).mpr ⟨n, member, same, rfl⟩
      obtain ⟨updated, tree', update, sound', keyed', perm, nodes⟩ := update_keyed sound keyed member number
      simp only [update, Option.map_some, Option.some.injEq, Prod.mk.injEq] at result
      obtain ⟨rfl, rfl⟩ := result
      refine ⟨⟨tree', ⟨sound', keyed', ?_⟩, perm⟩, by rw [known]; rfl⟩
      rw [members.find_put, known]
      subst same
      exact @maps_update _ { set with map := s } _ _ _ _ _ _ keyed (shown.maps.setMap s) member perm nodes
  | none =>
      have absent := miss rfl
      have unknown : members.find name = none := (shown.maps.none_iff trivial).mpr absent
      obtain ⟨created, new, value⟩ := Option.map_eq_some_iff.mp result
      obtain ⟨rfl, rfl⟩ := Prod.mk.inj value
      obtain ⟨room, _⟩ := addNew_some sound new
      obtain ⟨set1, tree', again, sound', keyed', perm, nodes⟩ := addNew_keyed sound keyed number room
        (CxxString.read_length ⟨name, around.name⟩) fun _ => ⟨rfl, absent⟩
      obtain rfl := Option.some.inj (again.symm.trans new)
      refine ⟨⟨tree', ⟨sound', keyed', ?_⟩, perm⟩, by rw [unknown]; rfl⟩
      rw [members.find_put, unknown]
      exact @maps_new _ { set with map := s } _ _ _ _ ⟨score, name.length, name⟩ sound (shown.maps.setMap s) absent perm
        nodes

end Shown

/-! ### Entries -/

inductive Stored (entry : Entry) : Item → Prop where
  | str (type : entry.type = .STR) (alone : entry.set = none) : Stored entry (.str entry.val)
  | zset {set : ZSet} {tree : BinaryTree Addr} {members : SortedMembers} (type : entry.type = .ZSET)
      (here : entry.set = some set) (shown : Shown set tree members) : Stored entry (.zset entry.val members)

theorem Stored.sound {entry : Entry} {item : Item} (stored : Stored entry item) : EntrySound entry := by
  cases stored with
  | str type alone => exact ⟨fun wrong => by simp [type] at wrong, fun set here => by simp [alone] at here⟩
  | zset type here shown =>
      refine ⟨fun _ => by rw [here]; rfl, fun set other => ?_⟩
      obtain rfl := Option.some.inj (here.symm.trans other)
      exact ⟨_, shown.sound, shown.clean⟩

theorem Stored.val {entry : Entry} {item : Item} (stored : Stored entry item) : item.val = entry.val := by
  cases stored <;> rfl

theorem Stored.setVal {entry : Entry} {item : Item} (stored : Stored entry item) (val : Bytes) :
    Stored { entry with val := val } (item.setVal val) := by
  cases stored with
  | str type alone => exact @Stored.str { entry with val := val } type alone
  | zset type here shown => exact @Stored.zset { entry with val := val } _ _ _ type here shown

/-- The entries present are what the keys stand for. -/
structure Refines (cm : CommandMap) (present : List Addr) (contents : Contents) : Prop where
  sound : Sound cm present
  stored : ∀ x ∈ present, ∃ item, contents (cm.entries x).key = some item ∧ Stored (cm.entries x) item
  absent : ∀ key, (∀ x ∈ present, (cm.entries x).key ≠ key) → contents key = none

theorem refines_init : Refines initCommandMap [] Contents.empty where
  sound := initCommandMap_sound
  stored := by simp
  absent _ _ := rfl

section Refines

variable {cm cm' : CommandMap} {present : List Addr} {contents : Contents} {key : Bytes}

theorem Refines.isSome_iff (refines : Refines cm present contents) (key : Bytes) :
    (contents key).isSome ↔ ∃ x ∈ present, (cm.entries x).key = key := by
  constructor
  · intro known
    by_contra missing
    rw [refines.absent key (by simpa using missing)] at known
    cases known
  · rintro ⟨x, member, rfl⟩
    obtain ⟨item, here, _⟩ := refines.stored x member
    rw [here]
    rfl

theorem Refines.lookup (refines : Refines cm present contents) (key : Bytes) :
    ∃ s found, Request.lookup cm key = some ({ cm with db := s }, found) ∧
      Refines { cm with db := s } present contents ∧ (found = none → contents key = none) ∧
      ∀ n, found = some n → n ∈ present ∧ (cm.entries n).key = key ∧
        ∃ item, contents key = some item ∧ Stored (cm.entries n) item := by
  obtain ⟨s, found, looked, sound, hit, miss⟩ := lookup_sound refines.sound key
  refine ⟨s, found, looked, ⟨sound, refines.stored, refines.absent⟩, fun none => refines.absent key (miss none), ?_⟩
  intro n here
  obtain ⟨member, rfl⟩ := hit n here
  exact ⟨member, rfl, refines.stored n member⟩

theorem Refines.setEntry (refines : Refines cm present contents) {node : Addr} {entry : Entry} {item : Item}
    (member : node ∈ present) (same : (cm.entries node).key = key) (kept : entry.key = key) (stored : Stored entry item) :
    Refines (Request.setEntry cm node entry) present (Function.update contents key (some item)) where
  sound := setEntry_sound refines.sound stored.sound (kept.trans same.symm)
  stored := by
    intro x inside
    by_cases here : x = node
    · subst here
      exact ⟨item, by simp [Request.setEntry, kept], by simpa [Request.setEntry] using stored⟩
    · have other : (cm.entries x).key ≠ key := fun equal =>
        here (refines.sound.unique x inside node member (equal.trans same.symm))
      simpa [Request.setEntry, here, other] using refines.stored x inside
  absent := by
    intro other missing
    have apart : other ≠ key := by
      rintro rfl
      exact missing node member (by simpa [Request.setEntry] using kept)
    rw [Function.update_of_ne apart]
    refine refines.absent other fun x inside equal => missing x inside ?_
    by_cases here : x = node
    · subst here
      exact absurd (equal.symm.trans same) apart
    · simpa [Request.setEntry, here] using equal

theorem Refines.setZSet (refines : Refines cm present contents) {node : Addr} {set : ZSet} {tree : BinaryTree Addr}
    {members : SortedMembers} (member : node ∈ present) (same : (cm.entries node).key = key)
    (type : (cm.entries node).type = .ZSET) (shown : Shown set tree members) :
    Refines (Request.setZSet cm node set) present
      (Function.update contents key (some (.zset (cm.entries node).val members))) :=
  refines.setEntry member same same (@Stored.zset { cm.entries node with set := some set } _ _ _ type rfl shown)

theorem Refines.insert (refines : Refines cm present contents) {entry : Entry} {item : Item}
    (new : contents entry.key = none) (stored : Stored entry item) (result : Request.insert cm entry = some cm') :
    (∃ s, cm' = withEntry cm s entry) ∧
      Refines cm' (cm.fresh :: present) (Function.update contents entry.key (some item)) := by
  have unknown : ∀ x ∈ present, (cm.entries x).key ≠ entry.key := by
    intro x inside same
    have known := (refines.isSome_iff entry.key).mpr ⟨x, inside, same⟩
    rw [new] at known
    cases known
  obtain ⟨s, rfl, sound⟩ := inserted_sound refines.sound stored.sound unknown result
  have apart : ∀ x ∈ present, x ≠ cm.fresh := fun x inside => refines.sound.ne_fresh inside
  refine ⟨⟨s, rfl⟩, sound, ?_, ?_⟩
  · intro x inside
    rcases List.mem_cons.mp inside with rfl | inside
    · exact ⟨item, by simp [withEntry], by simpa [withEntry] using stored⟩
    · simpa [withEntry, apart x inside, unknown x inside] using refines.stored x inside
  · intro key missing
    have other : key ≠ entry.key := by
      rintro rfl
      exact missing cm.fresh List.mem_cons_self (by simp [withEntry])
    rw [Function.update_of_ne other]
    refine refines.absent key fun x inside same => missing x (List.mem_cons_of_mem _ inside) ?_
    simpa [withEntry, apart x inside] using same

theorem exists_view (sound : Sound cm present) {α : Type} (part : Entry → α) : ∃ parts, View part cm present parts := by
  classical
  refine ⟨fun key => if found : ∃ x ∈ present, (cm.entries x).key = key then some (part (cm.entries found.choose))
    else none, ?_⟩
  intro key value
  by_cases found : ∃ x ∈ present, (cm.entries x).key = key
  · obtain ⟨member, same⟩ := found.choose_spec
    simp only [found, dif_pos, Option.some.injEq]
    constructor
    · rintro rfl
      exact ⟨found.choose, member, same, rfl⟩
    · rintro ⟨x, inside, named, rfl⟩
      rw [sound.unique _ member x inside (same.trans named.symm)]
  · simp only [found, dif_neg, not_false_eq_true, reduceCtorEq, false_iff]
    rintro ⟨x, inside, named, _⟩
    exact found ⟨x, inside, named⟩

theorem Refines.del (refines : Refines cm present contents) (key output : Bytes) :
    ∃ s present', Request.del cm key output =
        some ({ cm with db := s }, Out.num output (if (contents key).isSome then 1 else 0)) ∧
      Refines { cm with db := s } present' (Function.update contents key none) := by
  obtain ⟨s, present', removed, result, sound, found, views⟩ := del_views refines.sound key output
  obtain ⟨parts, view⟩ := exists_view refines.sound id
  have left := views view
  have known : removed = (contents key).isSome := by
    rw [Bool.eq_iff_iff, found, refines.isSome_iff]
  refine ⟨s, present', known ▸ result, sound, ?_, ?_⟩
  · intro x inside
    have part := (left (cm.entries x).key (cm.entries x)).mpr ⟨x, inside, rfl, rfl⟩
    have other : (cm.entries x).key ≠ key := by
      intro same
      rw [same, Function.update_self] at part
      cases part
    rw [Function.update_of_ne other, view] at part
    obtain ⟨y, member, _, same⟩ := part
    rw [Function.update_of_ne other, ← show cm.entries y = cm.entries x from same]
    exact refines.stored y member
  · intro other missing
    by_cases same : other = key
    · rw [same, Function.update_self]
    · have none := (left.none_iff other).mpr missing
      rw [Function.update_of_ne same] at none ⊢
      exact refines.absent other ((view.none_iff other).mp none)

theorem Refines.expectZSet (refines : Refines cm present contents) (key output : Bytes) :
    ∃ s, Refines { cm with db := s } present contents ∧
      ((contents key = none ∧ Request.expectZSet cm key output = some ({ cm with db := s }, Out.nil output, none)) ∨
      (∃ val, contents key = some (.str val) ∧ Request.expectZSet cm key output =
        some ({ cm with db := s }, Out.err output Error.TYPE.code (text "expect zset"), none)) ∨
      ∃ n ∈ present, ∃ set tree members, (cm.entries n).key = key ∧ (cm.entries n).type = .ZSET ∧
        (cm.entries n).set = some set ∧ Shown set tree members ∧
        contents key = some (.zset (cm.entries n).val members) ∧
        Request.expectZSet cm key output = some ({ cm with db := s }, output, some n)) := by
  obtain ⟨s, found, looked, refines', miss, hit⟩ := refines.lookup key
  refine ⟨s, refines', ?_⟩
  simp only [Request.expectZSet, looked, Option.bind_eq_bind, Option.bind_some]
  cases found with
  | none => exact .inl ⟨miss rfl, rfl⟩
  | some n =>
      obtain ⟨member, named, item, here, stored⟩ := hit n rfl
      cases stored with
      | str type alone => exact .inr (.inl ⟨_, here, by simp [type]⟩)
      | zset type set shown => exact .inr (.inr ⟨n, member, _, _, _, named, type, set, shown, here, by simp [type]⟩)

end Refines

end Coxx.Common
