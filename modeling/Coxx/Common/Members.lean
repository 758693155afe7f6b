import Coxx.Common.Replies

/-! The members of a sorted set as the commands on its key show them. Names are whole byte strings exactly as long as
they hold no NUL byte: `data()` gives the set a C string, and the size of the name beside it.
-/

set_option autoImplicit false

namespace Coxx.Common

open Library BinaryTree Zset

/-- The entry of a key holds a sorted set, and the scores of its members. -/
structure Holding (cm : CommandMap) (present : List Addr) (key : Bytes) (node : Addr) (set : ZSet)
    (tree : BinaryTree Addr) (scores : Bytes → Option Double) : Prop where
  sound : Sound cm present
  member : node ∈ present
  named : (cm.entries node).key = key
  typed : (cm.entries node).type = .ZSET
  here : (cm.entries node).set = some set
  setSound : Zset.Sound set tree
  keyed : Keyed Clean set tree
  maps : Maps Clean set tree scores

section Holding

variable {cm : CommandMap} {present : List Addr} {key name : Bytes} {node : Addr} {set : ZSet}
  {tree : BinaryTree Addr} {scores : Bytes → Option Double}

theorem Holding.lookup (holding : Holding cm present key node set tree scores) :
    ∃ db, Request.lookup cm key = some ({ cm with db := db }, some node) ∧
      Holding { cm with db := db } present key node set tree scores := by
  obtain ⟨db, found, looked, sound, hit, miss⟩ := lookup_sound holding.sound key
  cases found with
  | none => exact absurd holding.named (miss rfl node holding.member)
  | some n =>
      obtain ⟨member, named⟩ := hit n rfl
      obtain rfl := holding.sound.unique n member node holding.member (named.trans holding.named.symm)
      exact ⟨db, looked, { holding with sound := sound }⟩

theorem Holding.expectZSet (holding : Holding cm present key node set tree scores) (output : Bytes) :
    ∃ db, Request.expectZSet cm key output = some ({ cm with db := db }, output, some node) ∧
      Holding { cm with db := db } present key node set tree scores := by
  obtain ⟨db, looked, holding'⟩ := holding.lookup
  refine ⟨db, ?_, holding'⟩
  unfold Request.expectZSet
  simp only [looked, Option.bind_eq_bind, Option.bind_some]
  rw [if_neg (not_not.mpr holding.typed)]

theorem Holding.setZSet (holding : Holding cm present key node set tree scores) {set' : ZSet}
    {tree' : BinaryTree Addr} {scores' : Bytes → Option Double} (setSound : Zset.Sound set' tree')
    (keyed : Keyed Clean set' tree') (maps : Maps Clean set' tree' scores') :
    Holding (Request.setZSet cm node set') present key node set' tree' scores' where
  sound := setZSet_sound holding.sound setSound keyed
  member := holding.member
  named := by simp [Request.setZSet, Request.setEntry, holding.named]
  typed := by simp [Request.setZSet, Request.setEntry, holding.typed]
  here := by simp [Request.setZSet, Request.setEntry]
  setSound := setSound
  keyed := keyed
  maps := maps

def scoreAnswer (score : Option Double) : Bytes :=
  match score with
  | none => Out.nil []
  | some score => Out.dbl [] score

theorem Holding.zscore (holding : Holding cm present key node set tree scores) (around : Surroundings)
    (clean : Clean name) :
    ∃ cm' set', Request.zscore cm around key name [] = some (cm', scoreAnswer (scores name)) ∧
      Holding cm' present key node set' tree scores := by
  obtain ⟨db, expected, holding'⟩ := holding.expectZSet []
  obtain ⟨s, found, looked, setSound, codes, hit, miss⟩ :=
    lookup_whole holding.setSound holding.keyed ⟨name, around.name⟩ around.copy clean
  refine ⟨_, { set with map := s }, ?_,
    holding'.setZSet setSound (holding.keyed.setMap codes) (holding.maps.setMap s)⟩
  unfold Request.zscore
  simp only [expected, holding.here, cString_eq clean, looked, Option.bind_eq_bind, Option.bind_some]
  cases found with
  | none =>
      have unknown := (holding.maps.none_iff clean).mpr (miss rfl)
      rw [unknown]
      rfl
  | some n =>
      obtain ⟨member, same⟩ := hit n rfl
      have known := (holding.maps name clean _).mpr ⟨n, member, same, rfl⟩
      rw [known]
      rfl

theorem Holding.zrem (holding : Holding cm present key node set tree scores) (around : Surroundings)
    (clean : Clean name) :
    ∃ cm' set' tree', Request.zrem cm around key name [] =
        some (cm', Out.num [] (if (scores name).isSome then 1 else 0)) ∧
      Holding cm' present key node set' tree' (Function.update scores name none) := by
  obtain ⟨db, expected, holding'⟩ := holding.expectZSet []
  obtain ⟨set', found, tree', popped, setSound, keyed, maps, _, hit, miss⟩ :=
    pop_whole holding.setSound holding.keyed holding.maps ⟨name, around.name⟩ around.copy clean
  refine ⟨_, set', tree', ?_, holding'.setZSet setSound keyed maps⟩
  unfold Request.zrem
  simp only [expected, holding.here, cString_eq clean, popped, Option.bind_eq_bind, Option.bind_some]
  cases found with
  | none =>
      rw [(miss rfl).1]
      rfl
  | some n =>
      obtain ⟨member, same, _⟩ := hit n rfl
      rw [(holding.maps name clean _).mpr ⟨n, member, same, rfl⟩]
      rfl

theorem Holding.addMember (holding : Holding cm present key node set tree scores) (room : tree.numNodes < MAX_OBJECTS)
    (around : Surroundings) {number : Double} (isNumber : number.isNaN = false) (clean : Clean name) :
    ∃ cm' set' tree', Request.addMember cm around node number name [] =
        some (cm', Out.num [] (if (scores name).isNone then 1 else 0)) ∧
      Holding cm' present key node set' tree'
        (Function.update scores name (some (Zset.added (scores name) number))) := by
  obtain ⟨set', tree', added, setSound, keyed, maps, _⟩ := add_whole holding.setSound holding.keyed holding.maps
    ⟨name, around.name⟩ around.copy clean isNumber room
  refine ⟨_, set', tree', ?_, holding.setZSet setSound keyed maps⟩
  unfold Request.addMember
  simp only [holding.here, cString_eq clean, added, Option.bind_eq_bind, Option.bind_some]

theorem Holding.zadd (holding : Holding cm present key node set tree scores) (space : ¬Full cm)
    (around : Surroundings) {score : Bytes} {number : Double} (parsed : strToDouble score = some number)
    (clean : Clean name) :
    ∃ cm' set' tree', Request.zadd cm around key score name [] =
        some (cm', Out.num [] (if (scores name).isNone then 1 else 0)) ∧
      Holding cm' present key node set' tree'
        (Function.update scores name (some (Zset.added (scores name) number))) := by
  obtain ⟨db, looked, holding'⟩ := holding.lookup
  have room := (holding.sound.room space).2 node holding.member set holding.here tree holding.setSound
  obtain ⟨cm', set', tree', added, after⟩ := holding'.addMember room around (strToDouble_number parsed) clean
  refine ⟨cm', set', tree', ?_, after⟩
  unfold Request.zadd
  simp only [parsed, looked, Option.bind_eq_bind, Option.bind_some]
  rw [if_neg (not_not.mpr holding.typed)]
  exact added

theorem zadd_new (sound : Sound cm present) (space : ¬Full cm) (absent : ∀ x ∈ present, (cm.entries x).key ≠ key)
    (around : Surroundings) {score : Bytes} {number : Double} (parsed : strToDouble score = some number)
    (clean : Clean name) :
    ∃ cm' set' tree', Request.zadd cm around key score name [] = some (cm', Out.num [] 1) ∧
      Holding cm' (cm.fresh :: present) key cm.fresh set' tree' (Function.update (fun _ => none) name (some number)) := by
  obtain ⟨db, found, looked, sound', hit, _⟩ := lookup_sound sound key
  obtain rfl : found = none := by
    cases found with
    | none => rfl
    | some n => exact absurd (hit n rfl).2 (absent n (hit n rfl).1)
  obtain ⟨s, inserted, sound''⟩ := insert_sound sound' (entrySound_new key) absent (sound.room space).1
  have holding : Holding _ (cm.fresh :: present) key cm.fresh initZSet .nil fun _ => none := {
    sound := sound''
    member := by simp
    named := by simp
    typed := by simp
    here := by simp
    setSound := initZSet_sound
    keyed := ⟨by simp, by simp⟩
    maps := by intro name _ score; simp }
  obtain ⟨cm', set', tree', added, after⟩ := holding.addMember (by decide) around (strToDouble_number parsed) clean
  refine ⟨cm', set', tree', ?_, after⟩
  unfold Request.zadd
  simp only [parsed, looked, inserted, Option.bind_eq_bind, Option.bind_some]
  exact added

/-- With a NUL byte in the name, `zadd` reads past the end of the string that it is given. -/
theorem Holding.zadd_nul (holding : Holding cm present key node set tree scores) {score : Bytes} {number : Double}
    (parsed : strToDouble score = some number) (nul : ¬Clean name) :
    Request.zadd cm ⟨.guarded, .guarded⟩ key score name [] = none := by
  obtain ⟨db, looked, _⟩ := holding.lookup
  unfold Request.zadd Request.addMember
  simp only [parsed, looked, Option.bind_eq_bind, Option.bind_some]
  rw [if_neg (not_not.mpr holding.typed)]
  simp only [holding.here, add_nul holding.setSound nul, Option.bind_some, Option.bind_none]

theorem queryMembers_first {x : Addr} (setSound : Zset.Sound set tree) (keyed : Keyed Clean set tree)
    (member : x ∈ inorder tree) (clean : Clean (set.nodes x).name) (around : Surroundings) {seek : Double}
    (number : seek.isNaN = false) (equal : (set.nodes x).score.eq seek = true) {limit : Int} (positive : 0 < limit) :
    ∃ items, Request.queryMembers set around seek (set.nodes x).name 0 limit [] =
      some (Value.arr (.str (set.nodes x).name :: .dbl (set.nodes x).score :: items)).encoded := by
  obtain ⟨front, rest, split, found⟩ := query_member setSound keyed member clean number equal around.name
  have still : offset set (some x) 0 = some (some x) := by
    simp only [offset]
    rw [Avl.offsetAVL.eq_def, if_pos rfl]
  have size := congrArg List.length split
  rw [length_inorder, List.length_append] at size
  obtain ⟨⟨output, n⟩, listed⟩ := @outputMembers_ends set tree setSound limit set.rounds front (x :: rest) (some x) 0
    (Out.begin_arr []).1 split (.inr rfl) (by rw [setSound.rounds_eq]; omega)
  obtain ⟨_, rfl, rfl, _, first⟩ := outputMembers_values listed (by decide)
  obtain ⟨items, rfl⟩ := first x rfl positive
  rw [Nat.zero_add] at listed
  refine ⟨items, ?_⟩
  unfold Request.queryMembers
  rw [cString_eq clean]
  simp only [found, still, listed, end_arr_encoded, Option.bind_eq_bind, Option.bind_some]

theorem Holding.zquery (holding : Holding cm present key node set tree scores) (around : Surroundings)
    (clean : Clean name) {old seek : Double} (known : scores name = some old) {score off limit : Bytes} {count : Int}
    (parsed : strToDouble score = some seek) (equal : old.eq seek = true) (still : strToInt off = some 0)
    (counted : strToInt limit = some count) (positive : 0 < count) :
    ∃ cm' items, Request.zquery cm around key score name off limit [] =
      some (cm', (Value.arr (.str name :: .dbl old :: items)).encoded) := by
  obtain ⟨db, expected, _⟩ := holding.expectZSet []
  obtain ⟨x, member, rfl, rfl⟩ := (holding.maps name clean old).mp known
  obtain ⟨items, listed⟩ := queryMembers_first holding.setSound holding.keyed member clean around
    (strToDouble_number parsed) equal positive
  refine ⟨{ cm with db := db }, items, ?_⟩
  unfold Request.zquery
  simp only [parsed, still, counted, expected, Option.bind_eq_bind, Option.bind_some]
  rw [if_neg (by omega)]
  simp only [holding.here, listed, Option.bind_some, Option.map_some]

end Holding

/-! ### What the commands show -/

/-- The replies about one name that fit a score, or none, of it: they are given without a read past the end of the
name, and with whatever lies behind it. -/
structure Shows (cm : CommandMap) (key : Bytes) (view : Bytes → Option Double) (name : Bytes) : Prop where
  scored : ∀ around, ∃ cm', Request.zscore cm around key name [] = some (cm', scoreAnswer (view name))
  added : ¬Full cm → ∀ around score number, strToDouble score = some number →
    ∃ cm', Request.zadd cm around key score name [] = some (cm', Out.num [] (if (view name).isNone then 1 else 0))
  removed : ∀ around, ∃ cm',
    Request.zrem cm around key name [] = some (cm', Out.num [] (if (view name).isSome then 1 else 0))
  sought : ∀ around score off limit, ∃ result, Request.zquery cm around key score name off limit [] = some result
  listed : ∀ old, view name = some old → ∀ around score seek off limit count, strToDouble score = some seek →
    old.eq seek = true → strToInt off = some 0 → strToInt limit = some count → 0 < count →
    ∃ cm' items, Request.zquery cm around key score name off limit [] =
      some (cm', (Value.arr (.str name :: .dbl old :: items)).encoded)

/-- Two names are members of their own, unless they are equal: a command on one of them changes what is shown of that
one, and of no other. -/
def WholeNames (cm : CommandMap) (key a b : Bytes) : Prop :=
  ∃ view, (∀ name ∈ [a, b], Shows cm key view name) ∧ ∀ name ∈ [a, b], ∀ around cm' reply,
    (∀ score number, strToDouble score = some number → Request.zadd cm around key score name [] = some (cm', reply) →
      ∃ new : Double, new.eq number = true ∧
        ∀ other ∈ [a, b], Shows cm' key (Function.update view name (some new)) other) ∧
    (Request.zrem cm around key name [] = some (cm', reply) →
      ∀ other ∈ [a, b], Shows cm' key (Function.update view name none) other) ∧
    (Request.zscore cm around key name [] = some (cm', reply) → ∀ other ∈ [a, b], Shows cm' key view other)

def IsZSet (cm : CommandMap) (key : Bytes) : Prop :=
  ∃ cm' output node, Request.expectZSet cm key [] = some (cm', output, some node)

theorem IsZSet.holding {cm : CommandMap} {key : Bytes} (zset : IsZSet cm key) (reachable : Reachable cm) :
    ∃ present node set tree scores, Holding cm present key node set tree scores := by
  obtain ⟨cm', output, node, expected⟩ := zset
  obtain ⟨present, _, sound, _⟩ := reachable.sound
  obtain ⟨db, output', entry, result, sound', hit, _⟩ := expectZSet_sound sound key []
  cases expected.symm.trans result
  obtain ⟨member, named, typed, _⟩ := hit node rfl
  obtain ⟨set, tree, scores, here, setSound, keyed, maps⟩ := (sound.entries node member).members typed
  exact ⟨present, node, set, tree, scores, sound, member, named, typed, here, setSound, keyed, maps⟩

section Names

variable {cm : CommandMap} {present : List Addr} {key name : Bytes} {node : Addr} {set : ZSet}
  {tree : BinaryTree Addr} {scores : Bytes → Option Double}

theorem Holding.shows (holding : Holding cm present key node set tree scores) (clean : Clean name) :
    Shows cm key scores name where
  scored around := by
    obtain ⟨cm', _, result, _⟩ := holding.zscore around clean
    exact ⟨cm', result⟩
  added space around score number parsed := by
    obtain ⟨cm', _, _, result, _⟩ := holding.zadd space around parsed clean
    exact ⟨cm', result⟩
  removed around := by
    obtain ⟨cm', _, _, result, _⟩ := holding.zrem around clean
    exact ⟨cm', result⟩
  sought around score off limit := zquery_ends holding.sound around key score name off limit clean
  listed old known around score seek off limit count parsed equal still counted positive :=
    holding.zquery around clean known parsed equal still counted positive

/-- The other way round: what cannot be added without a read past its end shows nothing. -/
theorem Holding.clean_of_shows (holding : Holding cm present key node set tree scores) (space : ¬Full cm)
    {view : Bytes → Option Double} (shows : Shows cm key view name) : Clean name := by
  by_contra nul
  have parsed : strToDouble (text "1") = some ⟨0x3FF0000000000000⟩ := by decide
  obtain ⟨cm', result⟩ := shows.added space ⟨.guarded, .guarded⟩ _ _ parsed
  rw [holding.zadd_nul parsed nul] at result
  cases result

theorem added_eq {old : Option Double} {number : Double} (isNumber : number.isNaN = false) :
    (Zset.added old number).eq number = true := by
  have self : number.eq number = true := (Double.eq_iff isNumber isNumber).mpr rfl
  unfold Zset.added newScore
  cases old with
  | none => exact self
  | some old =>
      simp only
      split
      · assumption
      · exact self

theorem not_full_init : ¬Full initCommandMap := by
  rintro (full | ⟨_, _, _, _, _, none, _⟩)
  · exact absurd full (by decide)
  · cases none

theorem single_member : ∃ cm set tree scores, Reachable cm ∧ ¬Full cm ∧
    Holding cm [0] (text "k") 0 set tree scores ∧ Map.CMapSize set.map.map = 1 := by
  have evaluated : ∃ cm, Request.zadd initCommandMap ⟨.guarded, .guarded⟩ (text "k") (text "1") (text "m") [] =
      some (cm, Out.num [] 1) ∧ Map.CMapSize cm.db.map = 1 ∧
      ((cm.entries 0).set.map fun set => Map.CMapSize set.map.map) = some 1 := ⟨_, rfl, rfl, rfl⟩
  obtain ⟨cm, result, entries, members⟩ := evaluated
  obtain ⟨cm', set, tree, added, holding⟩ := @zadd_new initCommandMap [] (text "k") (text "m") initCommandMap_sound
    not_full_init (by simp) ⟨.guarded, .guarded⟩ (text "1") ⟨0x3FF0000000000000⟩ (by decide) (by decide)
  cases result.symm.trans added
  have one : Map.CMapSize set.map.map = 1 := by
    have here := holding.here
    rw [show (cm.entries 0).set = some set from here] at members
    exact Option.some.inj members
  refine ⟨cm, set, tree, _,
    @Reachable.run _ _ ⟨.guarded, .guarded⟩ [text "zadd", text "k", text "1", text "m"] _ .init result, ?_, holding, one⟩
  rintro (full | ⟨visited, visits, x, member, other, here, full⟩)
  · rw [entries] at full
    exact absurd full (by decide)
  · have only : x = 0 := List.mem_singleton.mp ((holding.sound.visits visits).mem_iff.mp member)
    rw [only, show (cm.entries 0).set = some set from holding.here] at here
    cases here
    rw [one] at full
    exact absurd full (by decide)

def sized (cm : CommandMap) (key : Bytes) : Option (Option Addr × Option Nat) :=
  (Request.expectZSet cm key []).map fun expected =>
    (expected.2.2, expected.2.2.bind fun node => (cm.entries node).set.map fun set => Map.CMapSize set.map.map)

theorem holding_of_sized {cm : CommandMap} (reachable : Reachable cm) {key : Bytes} {node : Addr} {size : Nat}
    (evaluated : sized cm key = some (some node, some size)) :
    ∃ present set tree scores, Holding cm present key node set tree scores ∧ Map.CMapSize set.map.map = size := by
  obtain ⟨⟨db, output, found⟩, expected, same⟩ := Option.map_eq_some_iff.mp evaluated
  simp only [Prod.mk.injEq] at same
  obtain ⟨rfl, counted⟩ := same
  obtain ⟨present, node', set, tree, scores, holding⟩ := IsZSet.holding ⟨_, _, _, expected⟩ reachable
  obtain ⟨_, expected', _⟩ := holding.expectZSet []
  cases expected.symm.trans expected'
  refine ⟨present, set, tree, scores, holding, ?_⟩
  simpa [show (cm.entries node).set = some set from holding.here] using counted

theorem sample_holding : ∃ cm trace present node set tree scores, runAll initCommandMap sample = some (cm, trace) ∧
    Reachable cm ∧ Holding cm present (text "k") node set tree scores ∧ Map.CMapSize set.map.map = 3 := by
  obtain ⟨cm, trace, result, reachable⟩ := sample_reachable
  have evaluated : (runAll initCommandMap sample).bind (fun after => sized after.1 (text "k")) =
      some (some 1, some 3) := by decide +kernel
  rw [result, Option.bind_some] at evaluated
  obtain ⟨present, set, tree, scores, holding, three⟩ := holding_of_sized reachable evaluated
  exact ⟨cm, trace, present, 1, set, tree, scores, result, reachable, holding, three⟩

theorem isZSet_single : ∃ cm, Reachable cm ∧ ¬Full cm ∧ IsZSet cm (text "k") := by
  obtain ⟨cm, _, _, _, reachable, space, holding, _⟩ := single_member
  obtain ⟨db, expected, _⟩ := holding.expectZSet []
  exact ⟨cm, reachable, space, _, _, _, expected⟩

/-- Names are whole byte strings exactly when they hold no NUL byte. -/
theorem names_whole_iff {cm : CommandMap} (reachable : Reachable cm) (space : ¬Full cm) {key : Bytes}
    (zset : IsZSet cm key) (a b : Bytes) : WholeNames cm key a b ↔ Clean a ∧ Clean b := by
  obtain ⟨present, node, set, tree, scores, holding⟩ := zset.holding reachable
  constructor
  · rintro ⟨view, shows, _⟩
    exact ⟨holding.clean_of_shows space (shows a (by simp)), holding.clean_of_shows space (shows b (by simp))⟩
  · rintro ⟨cleanA, cleanB⟩
    have clean : ∀ name ∈ [a, b], Clean name := by simp [cleanA, cleanB]
    refine ⟨scores, fun name member => holding.shows (clean name member), ?_⟩
    intro name member around cm' reply
    refine ⟨?_, ?_, ?_⟩
    · intro score number parsed result
      obtain ⟨cm'', set', tree', result', holding'⟩ := holding.zadd space around parsed (clean name member)
      cases result.symm.trans result'
      exact ⟨_, added_eq (strToDouble_number parsed), fun other member => holding'.shows (clean other member)⟩
    · intro result
      obtain ⟨cm'', set', tree', result', holding'⟩ := holding.zrem around (clean name member)
      cases result.symm.trans result'
      exact fun other member => holding'.shows (clean other member)
    · intro result
      obtain ⟨cm'', set', result', holding'⟩ := holding.zscore around (clean name member)
      cases result.symm.trans result'
      exact fun other member => holding'.shows (clean other member)

/-- Names without NUL bytes, in a set that exists. -/
theorem names_whole_iff_single : ∃ cm, IsZSet cm (text "k") ∧ WholeNames cm (text "k") (text "m") (text "n") := by
  obtain ⟨cm, reachable, space, zset⟩ := isZSet_single
  exact ⟨cm, zset, (names_whole_iff reachable space zset (text "m") (text "n")).mpr (by decide)⟩

/-- A name with a NUL byte is cut off. In memory, a byte that lies behind the string takes the place of its last one;
the name is no member of its own. -/
theorem name_cut_off :
    (∃ cm, Request.zadd initCommandMap ⟨.memory fun _ => some 7, .memory fun _ => some 7⟩ (text "k") (text "1")
        [110, 0, 120] [] = some (cm, Out.num [] 1) ∧
      ((cm.entries 0).set.map fun set => (set.nodes 0).name) = some [110, 0, 7]) ∧
    ∃ cm, Reachable cm ∧ ¬Full cm ∧ IsZSet cm (text "k") ∧ ¬WholeNames cm (text "k") [110, 0, 120] (text "m") := by
  refine ⟨⟨_, rfl, rfl⟩, ?_⟩
  obtain ⟨cm, reachable, space, zset⟩ := isZSet_single
  obtain ⟨_, _, _, _, _, holding⟩ := zset.holding reachable
  refine ⟨cm, reachable, space, zset, fun ⟨view, shows, _⟩ => ?_⟩
  have clean : Clean [110, 0, 120] := holding.clean_of_shows space (shows _ List.mem_cons_self)
  exact absurd clean (by decide)

end Names

end Coxx.Common
