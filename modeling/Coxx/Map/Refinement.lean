import Coxx.Map.Rehash

/-! The map operations refine a finite set of nodes, through every stage of a rehash. -/

set_option autoImplicit false

namespace Coxx.Map

open Library

section Operations

variable {s : Store} {newer older : List (List Addr)}

/-- The slots of table1 once `CMapInsert` has seen to it that there are some. -/
def width (map : CMap) : Nat := if map.table1.table.isNone then 4 else map.table1.mask + 1

theorem prepared_table1 (rep : MapRep s newer older) :
    ∃ table1 slots newer', firstTable s.map.table1 = some table1 ∧ table1.mask + 1 = width s.map ∧
      Allocated s.nodes table1 slots newer' ∧ MapRep ⟨s.nodes, { s.map with table1 := table1 }⟩ newer' older ∧
      newer'.flatten = newer.flatten := by
  rcases rep.table1 with ⟨released, rfl⟩ | ⟨slots, table⟩
  · obtain ⟨table, result, mask, allocated⟩ := initializeTable_rep s.nodes (n := 4) (k := 2) rfl (by decide)
    refine ⟨table, _, _, ?_, ?_, allocated, ?_, by simp⟩
    · rw [released, ← result]; rfl
    · rw [mask, width, released]; rfl
    · exact {
        table1 := Or.inr ⟨_, allocated⟩
        table2 := rep.table2
        ready := by intro array; simp [allocated.array] at array
        distinct := by simpa using rep.distinct
        drained := rep.drained }
  · refine ⟨_, slots, newer, ?_, ?_, table, rep, rfl⟩
    · simp [firstTable, table.array]
    · simp [width, table.array]

/-- Starting a rehash makes table1 the old table and puts an empty table of twice its width in front. -/
theorem startResizing_rep (map : CMap) {nodes : Nodes} {slots : List (Option Addr)}
    (table : Allocated nodes map.table1 slots newer) (idle : map.table2.table = none)
    (narrow : (map.table1.mask + 1) * 2 ≤ 2 ^ 58) :
    ∃ map' empty, startResizing map = some map' ∧ MapRep ⟨nodes, map'⟩ empty newer ∧ empty.flatten = [] ∧
      map'.table1.mask + 1 = 2 * (map.table1.mask + 1) ∧ map'.table1.size = 0 ∧ map'.table2 = map.table1 := by
  obtain ⟨k, power⟩ := table.power
  have double : (map.table1.mask + 1) * 2 % 2 ^ 64 = 2 ^ (k + 1) := by
    rw [Nat.mod_eq_of_lt (by omega), power, Nat.pow_succ]
  obtain ⟨fresh, result, mask, allocated⟩ :=
    initializeTable_rep nodes (n := 2 ^ (k + 1)) (k := k + 1) rfl (by rw [Nat.pow_succ, ← power]; exact narrow)
  refine ⟨{ table1 := fresh, table2 := map.table1, resizingPosition := 0 },
    List.replicate (2 ^ (k + 1)) [], ?_, ?_, by simp, ?_, ?_, rfl⟩
  · simp only [startResizing, idle, Option.isSome_none, Bool.false_eq_true, if_false, double, result,
      Option.bind_eq_bind, Option.bind_some]
  · exact {
      table1 := Or.inr ⟨_, allocated⟩
      table2 := Or.inr ⟨slots, table⟩
      ready := by intro array; simp [allocated.array] at array
      distinct := by simpa using table.distinct
      drained := by simp }
  · rw [mask, power, Nat.pow_succ, Nat.mul_comm]
  · rw [allocated.size]; simp

/-- `CMapInsert` up to its migration step. -/
def loaded (s : Store) (node : Addr) : Option Store := do
  let table1 ← firstTable s.map.table1
  let (nodes, table1) ← insert s.nodes table1 node
  let map ← checkLoad { s.map with table1 := table1 }
  some { nodes := nodes, map := map }

theorem CMapInsert_eq (s : Store) (node : Addr) : CMapInsert s node = (loaded s node).bind helpResizing := by
  simp [CMapInsert, loaded, Option.bind_assoc]

/-- How the load check leaves the tables: as they are, or with table1 in the place of table2. -/
inductive Loads (map map' : CMap) : Prop where
  | kept : map'.table1.mask + 1 = width map → map'.table2 = map.table2 →
      (map.table2.table = none → map'.table1.size < MAX_LOAD_FACTOR * width map) → Loads map map'
  | started : map'.table1.mask + 1 = 2 * width map → map.table2.table = none → map'.table1.size = 0 →
      MAX_LOAD_FACTOR * width map ≤ map'.table2.size → Loads map map'

theorem loaded_rep {node : Addr} (rep : MapRep s newer older)
    (outside : node ∉ newer.flatten ++ older.flatten)
    (few : (newer.flatten ++ older.flatten).length + 1 < 2 ^ 60) :
    ∃ t newer' older', loaded s node = some t ∧ MapRep t newer' older' ∧
      (newer'.flatten ++ older'.flatten).Perm (node :: (newer.flatten ++ older.flatten)) ∧ SameCodes s t ∧
      Loads s.map t.map := by
  have length := @List.length_append _ newer.flatten older.flatten
  obtain ⟨table0, slots0, newer0, prepared, width0, allocated0, rep0, same0⟩ := prepared_table1 rep
  obtain ⟨next, table1, slots1, newer1, inserted, allocated1, rep1, perm1, mask1⟩ :=
    insert_table1 rep0 allocated0 (by rw [same0]; exact outside) (by rw [same0]; omega)
  rw [same0] at perm1
  rw [← mask1] at width0
  have codes : ∀ other, (s.nodes.setNext node next other).code = (s.nodes other).code :=
    fun other => Nodes.setNext_code _ _ _ _
  have grown : (newer1.flatten ++ older.flatten).Perm (node :: (newer.flatten ++ older.flatten)) :=
    perm1.append_right older.flatten
  have few1 : (newer1.flatten ++ older.flatten).length < 2 ^ 60 := by
    rw [grown.length_eq, List.length_cons]; exact few
  have noWrap : (table1.mask + 1) % 2 ^ 64 = table1.mask + 1 := by
    have := allocated1.narrow; omega
  by_cases resize : s.map.table2.table.isNone = true ∧ MAX_LOAD_FACTOR ≤ table1.size / (table1.mask + 1)
  · -- a new rehash starts: the table that was just filled becomes table2
    have idle : s.map.table2.table = none := Option.isNone_iff_eq_none.mp resize.1
    have heavy := resize.2
    rw [Nat.le_div_iff_mul_le (by omega)] at heavy
    obtain ⟨_, rfl⟩ := rep.table2.released idle
    have narrow : (table1.mask + 1) * 2 ≤ 2 ^ 58 := by
      simp only [List.flatten_nil, List.append_nil] at few1
      have := allocated1.size
      simp only [MAX_LOAD_FACTOR] at heavy
      omega
    obtain ⟨map', fresh, started, rep', flat, double, empty, became⟩ :=
      startResizing_rep { s.map with table1 := table1 } allocated1 idle narrow
    have checked : checkLoad { s.map with table1 := table1 } = some map' := by
      simp only [checkLoad, noWrap, resize.1, if_true, if_pos resize.2, started]
    refine ⟨_, fresh, newer1, ?_, rep', ?_, codes, .started ?_ idle empty ?_⟩
    · simp only [loaded, prepared, inserted, checked, Option.bind_eq_bind, Option.bind_some]
    · simpa [flat] using grown
    · rw [double, ← width0]
    · rw [became, ← width0]; exact heavy
  · have light : s.map.table2.table = none → ¬ MAX_LOAD_FACTOR ≤ table1.size / (table1.mask + 1) :=
      fun idle heavy => resize ⟨Option.isNone_iff_eq_none.mpr idle, heavy⟩
    have checked : checkLoad { s.map with table1 := table1 } = some { s.map with table1 := table1 } := by
      by_cases idle : s.map.table2.table.isNone = true
      · simp only [checkLoad, noWrap, idle, if_true, if_neg (light (Option.isNone_iff_eq_none.mp idle))]
      · simp only [checkLoad, idle]; rfl
    refine ⟨_, newer1, older, ?_, rep1, grown, codes, .kept width0 rfl ?_⟩
    · simp only [loaded, prepared, inserted, checked, Option.bind_eq_bind, Option.bind_some]
    · intro idle
      have := light idle
      rw [Nat.le_div_iff_mul_le (by omega), width0] at this
      exact Nat.lt_of_not_le this

theorem CMapInsert_rep {node : Addr} (rep : MapRep s newer older)
    (outside : node ∉ newer.flatten ++ older.flatten)
    (few : (newer.flatten ++ older.flatten).length + 1 < 2 ^ 60) :
    ∃ s' newer' older', CMapInsert s node = some s' ∧ MapRep s' newer' older' ∧
      (newer'.flatten ++ older'.flatten).Perm (node :: (newer.flatten ++ older.flatten)) ∧ SameCodes s s' := by
  obtain ⟨t, newer1, older1, load, rep1, grown, codes, _⟩ := loaded_rep rep outside few
  obtain ⟨s', newer', older', _, result, migrated, _⟩ :=
    helpResizing_rep rep1 (by rw [grown.length_eq, List.length_cons]; exact few)
  refine ⟨s', newer', older', ?_, migrated.rep, migrated.cells.trans grown, codes.trans migrated.codes⟩
  rw [CMapInsert_eq, load, Option.bind_some, result]

theorem Migrated.absent {t : Store} {newer' older' : List (List Addr)} (migrated : Migrated s t newer older newer' older')
    {code : Nat} {eq : Addr → Bool} (absent1 : ∀ node ∈ newer'.flatten, ¬ Matches t.nodes code eq node)
    (absent2 : ∀ node ∈ older'.flatten, ¬ Matches t.nodes code eq node) :
    ∀ node ∈ newer.flatten ++ older.flatten, ¬ Matches s.nodes code eq node := by
  intro node member
  rw [← migrated.codes.matches_iff]
  rcases List.mem_append.mp (migrated.cells.mem_iff.mpr member) with left | right
  · exact absent1 node left
  · exact absent2 node right

/-- `CMapLookUp` only migrates, and answers a matching node exactly if the map holds one. -/
theorem CMapLookUp_rep (rep : MapRep s newer older) (few : (newer.flatten ++ older.flatten).length < 2 ^ 60)
    (code : Nat) (eq : Addr → Bool) :
    ∃ s' newer' older' found, CMapLookUp s code eq = some (s', found) ∧
      Migrated s s' newer older newer' older' ∧
      (∀ node, found = some node → node ∈ newer.flatten ++ older.flatten ∧ Matches s.nodes code eq node) ∧
      (found = none → ∀ node ∈ newer.flatten ++ older.flatten, ¬ Matches s.nodes code eq node) := by
  obtain ⟨t, newer', older', _, help, migrated, _⟩ := helpResizing_rep rep few
  have back : ∀ node, Matches t.nodes code eq node ↔ Matches s.nodes code eq node :=
    migrated.codes.matches_iff code eq
  rcases lookUp_rep migrated.rep.table1 code eq with ⟨none1, absent1⟩ | ⟨link, node, some1, points, good⟩
  · rcases lookUp_rep migrated.rep.table2 code eq with ⟨none2, absent2⟩ | ⟨link, node, some2, points, good⟩
    · refine ⟨t, newer', older', none, ?_, migrated, by simp, fun _ => migrated.absent absent1 absent2⟩
      simp only [CMapLookUp, help, none1, none2, Option.bind_eq_bind, Option.bind_some]
    · have member : node ∈ newer'.flatten ++ older'.flatten := List.mem_append_right _ points.mem
      obtain ⟨slots, table⟩ := points.allocated migrated.rep.table2
      refine ⟨t, newer', older', some node, ?_, migrated, ?_, by simp⟩
      · simp only [CMapLookUp, help, none1, some2, Option.bind_eq_bind, Option.bind_some, table.array,
          Option.getD_some, points.read table]
      · rintro _ ⟨⟩
        exact ⟨migrated.cells.mem_iff.mp member, (back node).mp good⟩
  · have member : node ∈ newer'.flatten ++ older'.flatten := List.mem_append_left _ points.mem
    obtain ⟨slots, table⟩ := points.allocated migrated.rep.table1
    refine ⟨t, newer', older', some node, ?_, migrated, ?_, by simp⟩
    · simp only [CMapLookUp, help, some1, Option.bind_eq_bind, Option.bind_some, table.array,
        Option.getD_some, points.read table]
    · rintro _ ⟨⟩
      exact ⟨migrated.cells.mem_iff.mp member, (back node).mp good⟩

theorem detach_table1 (rep : MapRep s newer older) (few : (newer.flatten ++ older.flatten).length < 2 ^ 60)
    {link : Link} {node : Addr} (points : Points newer link node) :
    ∃ nodes' table' newer', detach s.nodes s.map.table1 link = some (node, nodes', table') ∧
      MapRep ⟨nodes', { s.map with table1 := table' }⟩ newer' older ∧
      SameCodes s ⟨nodes', { s.map with table1 := table' }⟩ ∧
      (newer.flatten ++ older.flatten).Perm (node :: (newer'.flatten ++ older.flatten)) := by
  have length := @List.length_append _ newer.flatten older.flatten
  have apart := (List.nodup_append'.mp rep.distinct).2.2
  obtain ⟨slots, table⟩ := points.allocated rep.table1
  obtain ⟨nodes', table', slots', newer', detached, allocated', perm, codes, frame, _, _⟩ :=
    detach_rep table points (by omega)
  have cells : (newer.flatten ++ older.flatten).Perm (node :: (newer'.flatten ++ older.flatten)) :=
    perm.append_right older.flatten
  refine ⟨nodes', table', newer', detached, ?_, codes, cells⟩
  exact {
    table1 := Or.inr ⟨slots', allocated'⟩
    table2 := by
      apply rep.table2.congr
      intro other member
      exact frame other (fun inNewer => apart (perm.mem_iff.mpr (by simp [inNewer])) member)
    ready := by intro array; simp [allocated'.array] at array
    distinct := (List.nodup_cons.mp (cells.nodup_iff.mp rep.distinct)).2
    drained := rep.drained }

theorem CMapPop_rep (rep : MapRep s newer older) (few : (newer.flatten ++ older.flatten).length < 2 ^ 60)
    (code : Nat) (eq : Addr → Bool) :
    ∃ s' newer' older' found, CMapPop s code eq = some (s', found) ∧ MapRep s' newer' older' ∧ SameCodes s s' ∧
      (∀ node, found = some node → Matches s.nodes code eq node ∧
        (newer.flatten ++ older.flatten).Perm (node :: (newer'.flatten ++ older'.flatten))) ∧
      (found = none → (∀ node ∈ newer.flatten ++ older.flatten, ¬ Matches s.nodes code eq node) ∧
        (newer'.flatten ++ older'.flatten).Perm (newer.flatten ++ older.flatten)) := by
  obtain ⟨t, newer₁, older₁, _, help, migrated, _⟩ := helpResizing_rep rep few
  have back : ∀ node, Matches t.nodes code eq node ↔ Matches s.nodes code eq node :=
    migrated.codes.matches_iff code eq
  have few₁ := few
  rw [← migrated.cells.length_eq] at few₁
  rcases lookUp_rep migrated.rep.table1 code eq with ⟨none1, absent1⟩ | ⟨link, node, some1, points, good⟩
  · rcases lookUp_rep migrated.rep.table2 code eq with ⟨none2, absent2⟩ | ⟨link, node, some2, points, good⟩
    · refine ⟨t, newer₁, older₁, none, ?_, migrated.rep, migrated.codes, by simp,
        fun _ => ⟨migrated.absent absent1 absent2, migrated.cells⟩⟩
      simp only [CMapPop, help, none1, none2, Option.bind_eq_bind, Option.bind_some]
    · obtain ⟨nodes', table', older', detached, rep', codes, perm, _⟩ := detach_table2 migrated.rep few₁ points
      have cells : (newer₁.flatten ++ older₁.flatten).Perm (node :: (newer₁.flatten ++ older'.flatten)) :=
        (perm.append_left newer₁.flatten).trans List.perm_middle
      refine ⟨_, newer₁, older', some node, ?_, rep', migrated.codes.trans codes, ?_, by simp⟩
      · simp only [CMapPop, help, none1, some2, detached, Option.bind_eq_bind, Option.bind_some]
      · rintro _ ⟨⟩
        exact ⟨(back node).mp good, migrated.cells.symm.trans cells⟩
  · obtain ⟨nodes', table', newer', detached, rep', codes, cells⟩ := detach_table1 migrated.rep few₁ points
    refine ⟨_, newer', older₁, some node, ?_, rep', migrated.codes.trans codes, ?_, by simp⟩
    · simp only [CMapPop, help, some1, detached, Option.bind_eq_bind, Option.bind_some]
    · rintro _ ⟨⟩
      exact ⟨(back node).mp good, migrated.cells.symm.trans cells⟩

theorem CMapSize_rep (rep : MapRep s newer older) (few : (newer.flatten ++ older.flatten).length < 2 ^ 60) :
    CMapSize s.map = (newer.flatten ++ older.flatten).length := by
  rw [CMapSize, rep.size_eq, Nat.mod_eq_of_lt (by omega)]

theorem MapRep.congr {nodes : Nodes} (rep : MapRep s newer older)
    (same : ∀ node ∈ newer.flatten ++ older.flatten, nodes node = s.nodes node) :
    MapRep { s with nodes := nodes } newer older where
  table1 := rep.table1.congr fun node member => same node (List.mem_append_left _ member)
  table2 := rep.table2.congr fun node member => same node (List.mem_append_right _ member)
  ready := rep.ready
  distinct := rep.distinct
  drained := rep.drained

end Operations

/-- The invariant of a client: the chains of the map are the nodes present, in some order. -/
structure Tracks (s : Store) (present : List Addr) : Prop where
  few : present.length < 2 ^ 60
  chains : ∃ newer older, MapRep s newer older ∧ (newer.flatten ++ older.flatten).Perm present

namespace Tracks

variable {s : Store} {present : List Addr}

theorem empty (nodes : Nodes) : Tracks ⟨nodes, initMap⟩ [] :=
  ⟨by simp, [], [], initMap_rep nodes, by simp⟩

theorem nodup (tracks : Tracks s present) : present.Nodup := by
  obtain ⟨_, newer, older, rep, same⟩ := tracks
  exact same.nodup_iff.mp rep.distinct

theorem perm {other : List Addr} (tracks : Tracks s present) (same : present.Perm other) : Tracks s other := by
  obtain ⟨few, newer, older, rep, cells⟩ := tracks
  exact ⟨same.length_eq ▸ few, newer, older, rep, cells.trans same⟩

theorem congr (tracks : Tracks s present) (nodes : Nodes) (same : ∀ node ∈ present, nodes node = s.nodes node) :
    Tracks { s with nodes := nodes } present := by
  obtain ⟨few, newer, older, rep, cells⟩ := tracks
  exact ⟨few, newer, older, rep.congr fun node member => same node (cells.mem_iff.mp member), cells⟩

theorem size_eq (tracks : Tracks s present) : CMapSize s.map = present.length := by
  obtain ⟨few, newer, older, rep, cells⟩ := tracks
  rw [CMapSize_rep rep (by rw [cells.length_eq]; exact few), cells.length_eq]

theorem insert {node : Addr} (tracks : Tracks s present) (outside : node ∉ present)
    (room : present.length + 1 < 2 ^ 60) :
    ∃ s', CMapInsert s node = some s' ∧ Tracks s' (node :: present) ∧ SameCodes s s' := by
  obtain ⟨few, newer, older, rep, same⟩ := tracks
  obtain ⟨s', newer', older', result, rep', grown, codes⟩ :=
    CMapInsert_rep rep (fun member => outside (same.mem_iff.mp member)) (by rw [same.length_eq]; exact room)
  exact ⟨s', result, ⟨room, newer', older', rep', grown.trans (same.cons node)⟩, codes⟩

theorem lookUp (tracks : Tracks s present) (code : Nat) (eq : Addr → Bool) :
    ∃ s' found, CMapLookUp s code eq = some (s', found) ∧ Tracks s' present ∧ SameCodes s s' ∧
      (∀ node, found = some node → node ∈ present ∧ Matches s.nodes code eq node) ∧
      (found = none → ∀ node ∈ present, ¬ Matches s.nodes code eq node) := by
  obtain ⟨few, newer, older, rep, same⟩ := tracks
  obtain ⟨s', newer', older', found, result, migrated, hit, miss⟩ :=
    CMapLookUp_rep rep (by rw [same.length_eq]; exact few) code eq
  refine ⟨s', found, result, ⟨few, newer', older', migrated.rep, migrated.cells.trans same⟩, migrated.codes, ?_, ?_⟩
  · intro node here
    exact ⟨same.mem_iff.mp (hit node here).1, (hit node here).2⟩
  · intro absent node member
    exact miss absent node (same.mem_iff.mpr member)

theorem pop (tracks : Tracks s present) (code : Nat) (eq : Addr → Bool) :
    ∃ s' found, CMapPop s code eq = some (s', found) ∧ SameCodes s s' ∧
      (∀ node, found = some node → node ∈ present ∧ Matches s.nodes code eq node ∧
        Tracks s' (present.erase node)) ∧
      (found = none → (∀ node ∈ present, ¬ Matches s.nodes code eq node) ∧ Tracks s' present) := by
  obtain ⟨few, newer, older, rep, same⟩ := tracks
  obtain ⟨s', newer', older', found, result, rep', codes, hit, miss⟩ :=
    CMapPop_rep rep (by rw [same.length_eq]; exact few) code eq
  refine ⟨s', found, result, codes, ?_, ?_⟩
  · intro node here
    obtain ⟨good, shrunk⟩ := hit node here
    have member : node ∈ present := same.mem_iff.mp (shrunk.mem_iff.mpr (by simp))
    have fewer : (present.erase node).length < 2 ^ 60 :=
      Nat.lt_of_le_of_lt (List.erase_sublist.length_le) few
    have moved := (same.symm.trans shrunk).erase node
    rw [List.erase_cons_head] at moved
    exact ⟨member, good, fewer, newer', older', rep', moved.symm⟩
  · intro absent
    obtain ⟨missing, kept⟩ := miss absent
    exact ⟨fun node member => missing node (same.mem_iff.mpr member), few, newer', older', rep', kept.trans same⟩

end Tracks

end Coxx.Map
