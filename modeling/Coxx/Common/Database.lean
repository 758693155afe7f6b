import Coxx.Common.Request
import Coxx.Zset.Names

/-! The invariant of the database, kept by every command that completes. -/

set_option autoImplicit false

namespace Coxx.Common

open Library BinaryTree Zset

/-- An entry that a sorted set was made for holds one whose indexes agree. -/
structure EntrySound (entry : Entry) : Prop where
  typed : entry.type = .ZSET → entry.set.isSome
  sets : ∀ set, entry.set = some set → ∃ tree, Zset.Sound set tree ∧ Keyed Clean set tree

theorem EntrySound.members {entry : Entry} (entrySound : EntrySound entry) (typed : entry.type = .ZSET) :
    ∃ set tree scores, entry.set = some set ∧ Zset.Sound set tree ∧ Keyed Clean set tree ∧
      Maps Clean set tree scores := by
  obtain ⟨set, here⟩ := Option.isSome_iff_exists.mp (entrySound.typed typed)
  obtain ⟨tree, setSound, keyed⟩ := entrySound.sets set here
  obtain ⟨scores, maps⟩ := exists_maps keyed
  exact ⟨set, tree, scores, here, setSound, keyed, maps⟩

theorem entrySound_new (key : Bytes) : EntrySound { key := key, type := .ZSET, val := [], set := some initZSet } where
  typed _ := rfl
  sets := by
    rintro _ ⟨⟩
    exact ⟨.nil, initZSet_sound, by simp, by simp⟩

theorem entrySound_str (key val : Bytes) : EntrySound { key := key, type := .STR, val := val, set := none } where
  typed wrong := nomatch wrong
  sets _ wrong := nomatch wrong

/-- The entries present: one for each key, found by the hash of the key. -/
structure Sound (cm : CommandMap) (present : List Addr) : Prop where
  tracks : Map.Tracks cm.db present
  few : present.length ≤ MAX_OBJECTS
  fresh : ∀ x ∈ present, x < cm.fresh
  hashed : ∀ x ∈ present, (cm.db.nodes x).code = stringHash (cm.entries x).key
  unique : ∀ x ∈ present, ∀ y ∈ present, (cm.entries x).key = (cm.entries y).key → x = y
  entries : ∀ x ∈ present, EntrySound (cm.entries x)

theorem initCommandMap_sound : Sound initCommandMap [] where
  tracks := Map.Tracks.empty _
  few := Nat.zero_le _
  fresh := by simp
  hashed := by simp
  unique := by simp
  entries := by simp

/-- A part of the entries, for the keys present. -/
def View {α : Type} (part : Entry → α) (cm : CommandMap) (present : List Addr) (view : Bytes → Option α) : Prop :=
  ∀ key value, view key = some value ↔ ∃ x ∈ present, (cm.entries x).key = key ∧ part (cm.entries x) = value

def Values (cm : CommandMap) (present : List Addr) (values : Bytes → Option Bytes) : Prop :=
  ∀ key val, values key = some val ↔ ∃ x ∈ present, (cm.entries x).key = key ∧ (cm.entries x).val = val

section Database

variable {cm : CommandMap} {present : List Addr} {values : Bytes → Option Bytes} {α : Type} {part : Entry → α}
  {parts : Bytes → Option α}

theorem View.none_iff (view : View part cm present parts) (key : Bytes) :
    parts key = none ↔ ∀ x ∈ present, (cm.entries x).key ≠ key := by
  constructor
  · intro absent x member same
    have := (view key _).mpr ⟨x, member, same, rfl⟩
    rw [absent] at this
    cases this
  · intro absent
    cases found : parts key with
    | none => rfl
    | some value =>
        obtain ⟨x, member, same, _⟩ := (view key value).mp found
        exact absurd same (absent x member)

theorem Values.view (view : Values cm present values) : View Entry.val cm present values := view

theorem Values.none_iff (view : Values cm present values) (key : Bytes) :
    values key = none ↔ ∀ x ∈ present, (cm.entries x).key ≠ key :=
  view.view.none_iff key

theorem Sound.ne_fresh (sound : Sound cm present) {x : Addr} (member : x ∈ present) : x ≠ cm.fresh :=
  (sound.fresh x member).ne

theorem Sound.setMap (sound : Sound cm present) {s : Map.Store} (tracks : Map.Tracks s present)
    (codes : Map.SameCodes cm.db s) : Sound { cm with db := s } present where
  tracks := tracks
  few := sound.few
  fresh := sound.fresh
  hashed x member := (codes x).trans (sound.hashed x member)
  unique := sound.unique
  entries := sound.entries

theorem lookup_sound (sound : Sound cm present) (key : Bytes) :
    ∃ s found, Request.lookup cm key = some ({ cm with db := s }, found) ∧ Sound { cm with db := s } present ∧
      (∀ n, found = some n → n ∈ present ∧ (cm.entries n).key = key) ∧
      (found = none → ∀ n ∈ present, (cm.entries n).key ≠ key) := by
  obtain ⟨s, found, result, tracks, codes, hit, miss⟩ :=
    sound.tracks.lookUp (stringHash key) fun node => entryEquality (cm.entries node) key
  refine ⟨s, found, by simp [Request.lookup, result], sound.setMap tracks codes, ?_, ?_⟩
  · intro n here
    obtain ⟨member, _, equal⟩ := hit n here
    exact ⟨member, by simpa [entryEquality] using equal⟩
  · intro absent n member same
    refine miss absent n member ⟨?_, by simpa [entryEquality] using same⟩
    rw [sound.hashed n member, same]

theorem insert_sound (sound : Sound cm present) {entry : Entry} (entrySound : EntrySound entry)
    (new : ∀ x ∈ present, (cm.entries x).key ≠ entry.key) (room : present.length < MAX_OBJECTS) :
    ∃ s, Request.insert cm entry =
        some { db := s, entries := Function.update cm.entries cm.fresh entry, fresh := cm.fresh + 1 } ∧
      Sound { db := s, entries := Function.update cm.entries cm.fresh entry, fresh := cm.fresh + 1 }
        (cm.fresh :: present) := by
  have outside : cm.fresh ∉ present := fun member => sound.ne_fresh member rfl
  have apart : ∀ y ∈ present, y ≠ cm.fresh := fun y inside => sound.ne_fresh inside
  have few := room
  unfold MAX_OBJECTS at few
  have tracks := sound.tracks.congr (Function.update cm.db.nodes cm.fresh ⟨none, stringHash entry.key⟩)
    fun y inside => Function.update_of_ne (apart y inside) _ _
  obtain ⟨s, inserted, tracks', codes⟩ := tracks.insert outside (by omega)
  refine ⟨s, ?_, ?_⟩
  · rw [Request.insert, if_neg (by rw [sound.tracks.size_eq]; omega)]
    simp only [inserted, Option.map_some]
  · exact {
      tracks := tracks'
      few := room
      fresh := lt_next sound.fresh
      hashed := by
        intro y inside
        have same := codes y
        simp only at same ⊢
        rw [same]
        rcases List.mem_cons.mp inside with rfl | inside
        · simp
        · simp [apart y inside, sound.hashed y inside]
      unique := by
        intro x insideX y insideY same
        rcases List.mem_cons.mp insideX with rfl | insideX
        · rcases List.mem_cons.mp insideY with rfl | insideY
          · rfl
          · simp only [Function.update_self, Function.update_of_ne (apart y insideY)] at same
            exact absurd same.symm (new y insideY)
        · rcases List.mem_cons.mp insideY with rfl | insideY
          · simp only [Function.update_self, Function.update_of_ne (apart x insideX)] at same
            exact absurd same (new x insideX)
          · simp only [Function.update_of_ne (apart x insideX), Function.update_of_ne (apart y insideY)] at same
            exact sound.unique x insideX y insideY same
      entries := by
        intro y inside
        rcases List.mem_cons.mp inside with rfl | inside
        · simpa using entrySound
        · simpa [apart y inside] using sound.entries y inside }

theorem insert_view (sound : Sound cm present) (view : View part cm present parts) {entry : Entry} {s : Map.Store}
    (new : ∀ x ∈ present, (cm.entries x).key ≠ entry.key) :
    View part { db := s, entries := Function.update cm.entries cm.fresh entry, fresh := cm.fresh + 1 }
      (cm.fresh :: present) (Function.update parts entry.key (some (part entry))) := by
  have apart : ∀ y ∈ present, y ≠ cm.fresh := fun y inside => sound.ne_fresh inside
  intro key val
  by_cases here : key = entry.key
  · subst here
    simp only [Function.update_self, Option.some.injEq]
    constructor
    · rintro rfl
      exact ⟨cm.fresh, by simp, by simp, by simp⟩
    · rintro ⟨y, inside, same, value⟩
      rcases List.mem_cons.mp inside with rfl | inside
      · simpa using value
      · rw [Function.update_of_ne (apart y inside)] at same
        exact absurd same (new y inside)
  · rw [Function.update_of_ne here, view key val]
    constructor
    · rintro ⟨y, inside, same, value⟩
      exact ⟨y, List.mem_cons_of_mem _ inside, by simpa [apart y inside] using same,
        by simpa [apart y inside] using value⟩
    · rintro ⟨y, inside, same, value⟩
      rcases List.mem_cons.mp inside with rfl | inside
      · simp only [Function.update_self] at same
        exact absurd same.symm here
      · simp only [Function.update_of_ne (apart y inside)] at same value
        exact ⟨y, inside, same, value⟩

theorem insert_values (sound : Sound cm present) (view : Values cm present values) {entry : Entry} {s : Map.Store}
    (new : ∀ x ∈ present, (cm.entries x).key ≠ entry.key) :
    Values { db := s, entries := Function.update cm.entries cm.fresh entry, fresh := cm.fresh + 1 }
      (cm.fresh :: present) (Function.update values entry.key (some entry.val)) :=
  insert_view sound view.view new

theorem setEntry_sound (sound : Sound cm present) {node : Addr} {entry : Entry} (entrySound : EntrySound entry)
    (same : entry.key = (cm.entries node).key) : Sound (Request.setEntry cm node entry) present := by
  have keys : ∀ x, ((Request.setEntry cm node entry).entries x).key = (cm.entries x).key := by
    intro x
    by_cases here : x = node
    · subst here; simp [Request.setEntry, same]
    · simp [Request.setEntry, here]
  exact {
    tracks := sound.tracks
    few := sound.few
    fresh := sound.fresh
    hashed := fun x member => by rw [keys]; exact sound.hashed x member
    unique := fun x memberX y memberY equal => sound.unique x memberX y memberY (by rw [← keys, ← keys y, equal])
    entries := by
      intro x member
      by_cases here : x = node
      · subst here; simpa [Request.setEntry] using entrySound
      · simpa [Request.setEntry, here] using sound.entries x member }

theorem setEntry_view (sound : Sound cm present) (view : View part cm present parts) {node : Addr} {entry : Entry}
    (member : node ∈ present) (same : entry.key = (cm.entries node).key) :
    View part (Request.setEntry cm node entry) present (Function.update parts entry.key (some (part entry))) := by
  intro key val
  by_cases here : key = entry.key
  · subst here
    simp only [Function.update_self, Option.some.injEq]
    constructor
    · rintro rfl
      exact ⟨node, member, by simp [Request.setEntry], by simp [Request.setEntry]⟩
    · rintro ⟨y, inside, equal, value⟩
      by_cases there : y = node
      · subst there; simpa [Request.setEntry] using value
      · simp only [Request.setEntry, Function.update_of_ne there] at equal
        exact absurd (sound.unique y inside node member (equal.trans same)) there
  · rw [Function.update_of_ne here, view key val]
    have away : ∀ y, (cm.entries y).key = key → y ≠ node := by
      rintro y equal rfl
      exact here (equal.symm.trans same.symm)
    constructor
    · rintro ⟨y, inside, equal, value⟩
      exact ⟨y, inside, by simpa [Request.setEntry, away y equal] using equal,
        by simpa [Request.setEntry, away y equal] using value⟩
    · rintro ⟨y, inside, equal, value⟩
      have apart : y ≠ node := by
        rintro rfl
        simp only [Request.setEntry, Function.update_self] at equal
        exact here equal.symm
      simp only [Request.setEntry, Function.update_of_ne apart] at equal value
      exact ⟨y, inside, equal, value⟩

theorem setEntry_values (sound : Sound cm present) (view : Values cm present values) {node : Addr} {entry : Entry}
    (member : node ∈ present) (same : entry.key = (cm.entries node).key) :
    Values (Request.setEntry cm node entry) present (Function.update values entry.key (some entry.val)) :=
  setEntry_view sound view.view member same

theorem setZSet_sound (sound : Sound cm present) {node : Addr} {set : ZSet} {tree : BinaryTree Addr}
    (setSound : Zset.Sound set tree) (keyed : Keyed Clean set tree) : Sound (Request.setZSet cm node set) present :=
  setEntry_sound sound ⟨fun _ => rfl, by rintro _ ⟨⟩; exact ⟨tree, setSound, keyed⟩⟩ rfl

theorem setZSet_view (view : View part cm present parts) {node : Addr} {set : ZSet}
    (apart : ∀ entry : Entry, part { entry with set := some set } = part entry) :
    View part (Request.setZSet cm node set) present parts := by
  have same : ∀ y, ((Request.setZSet cm node set).entries y).key = (cm.entries y).key ∧
      part ((Request.setZSet cm node set).entries y) = part (cm.entries y) := by
    intro y
    by_cases here : y = node
    · subst here; simp [Request.setZSet, Request.setEntry, apart]
    · simp [Request.setZSet, Request.setEntry, here]
  intro key val
  rw [view key val]
  constructor
  · rintro ⟨y, inside, equal, value⟩
    exact ⟨y, inside, (same y).1.trans equal, (same y).2.trans value⟩
  · rintro ⟨y, inside, equal, value⟩
    exact ⟨y, inside, (same y).1.symm.trans equal, (same y).2.symm.trans value⟩

theorem del_views (sound : Sound cm present) (key output : Bytes) :
    ∃ s present' removed, Request.del cm key output =
        some ({ cm with db := s }, Out.num output (if removed = true then 1 else 0)) ∧
      Sound { cm with db := s } present' ∧ (removed = true ↔ ∃ x ∈ present, (cm.entries x).key = key) ∧
      ∀ {α : Type} {part : Entry → α} {parts : Bytes → Option α}, View part cm present parts →
        View part { cm with db := s } present' (Function.update parts key none) := by
  obtain ⟨s, found, result, codes, hit, miss⟩ :=
    sound.tracks.pop (stringHash key) fun node => entryEquality (cm.entries node) key
  cases found with
  | none =>
      obtain ⟨different, tracks⟩ := miss rfl
      have absent : ∀ x ∈ present, (cm.entries x).key ≠ key := by
        refine fun x member same => different x member ⟨?_, ?_⟩
        · rw [sound.hashed x member, same]
        · simpa [entryEquality] using same
      refine ⟨s, present, false, by simp [Request.del, result], sound.setMap tracks codes, ?_, ?_⟩
      · simpa using absent
      · intro α part parts view
        rw [← (view.none_iff key).mpr absent, Function.update_eq_self]
        exact view
  | some n =>
      obtain ⟨member, ⟨_, equal⟩, tracks⟩ := hit n rfl
      have same : (cm.entries n).key = key := by simpa [entryEquality] using equal
      have within : ∀ x ∈ present.erase n, x ∈ present := fun x inside => List.mem_of_mem_erase inside
      refine ⟨s, present.erase n, true, by simp [Request.del, result], ?_, ?_, ?_⟩
      · exact {
          tracks := tracks
          few := (List.erase_sublist.length_le).trans sound.few
          fresh := fun x inside => sound.fresh x (within x inside)
          hashed := fun x inside => (codes x).trans (sound.hashed x (within x inside))
          unique := fun x insideX y insideY => sound.unique x (within x insideX) y (within y insideY)
          entries := fun x inside => sound.entries x (within x inside) }
      · exact iff_of_true rfl ⟨n, member, same⟩
      · intro α part parts view other value
        by_cases here : other = key
        · subst here
          simp only [Function.update_self, reduceCtorEq, false_iff]
          rintro ⟨y, inside, equal, _⟩
          have twice := sound.unique y (within y inside) n member (equal.trans same.symm)
          exact sound.tracks.nodup.not_mem_erase (twice ▸ inside)
        · rw [Function.update_of_ne here, view other value]
          constructor
          · rintro ⟨y, inside, named, shown⟩
            have apart : y ≠ n := by rintro rfl; exact here (named.symm.trans same)
            exact ⟨y, (List.mem_erase_of_ne apart).mpr inside, named, shown⟩
          · rintro ⟨y, inside, equal, shown⟩
            exact ⟨y, within y inside, equal, shown⟩

theorem del_sound (sound : Sound cm present) (view : Values cm present values) (key output : Bytes) :
    ∃ s present', Request.del cm key output =
        some ({ cm with db := s }, Out.num output (if (values key).isSome then 1 else 0)) ∧
      Sound { cm with db := s } present' ∧ Values { cm with db := s } present' (Function.update values key none) := by
  obtain ⟨s, present', removed, result, sound', found, views⟩ := del_views sound key output
  have known : removed = (values key).isSome := by
    rw [Bool.eq_iff_iff, found, Option.isSome_iff_exists]
    constructor
    · rintro ⟨x, member, same⟩
      exact ⟨_, (view key _).mpr ⟨x, member, same, rfl⟩⟩
    · rintro ⟨val, there⟩
      obtain ⟨x, member, same, _⟩ := (view key val).mp there
      exact ⟨x, member, same⟩
  rw [known] at result
  exact ⟨s, present', result, sound', views view.view⟩

end Database

end Coxx.Common
