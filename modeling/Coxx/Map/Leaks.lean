import Coxx.Map.Arrays
import Coxx.Map.Growth

/-! The slot arrays of a map, over whole runs: none is used or freed after it was freed, and none is lost. The map with
its arrays on the heap does what the map with its arrays in the tables does.
-/

set_option autoImplicit false

namespace Coxx.Map.InHeap

open Library

/-- The array of a table is live and has these slots; a table without an array has a NULL pointer. -/
structure Reads (arrays : Arrays) (table : CTable) (value : Map.CTable) : Prop where
  array : Option.Rel (fun array slots => arrays.load array = some slots) table.table value.table
  mask : table.mask = value.mask
  size : table.size = value.size

def CMap.owned (map : CMap) : List Addr := map.table1.table.toList ++ map.table2.table.toList

/-- A map on the heap, seen as a map that holds its arrays: the two tables are the only owners of arrays. -/
structure Represents (s : Store) (value : Map.Store) : Prop where
  nodes : s.nodes = value.nodes
  table1 : Reads s.arrays s.map.table1 value.map.table1
  table2 : Reads s.arrays s.map.table2 value.map.table2
  position : s.map.resizingPosition = value.map.resizingPosition
  owned : s.arrays.Owned s.map.owned

theorem initMap_represents (nodes : Nodes) : Represents ⟨nodes, ⟨[], fun _ => []⟩, initMap⟩ ⟨nodes, Map.initMap⟩ where
  nodes := rfl
  table1 := ⟨.none, rfl, rfl⟩
  table2 := ⟨.none, rfl, rfl⟩
  position := rfl
  owned := ⟨.refl _, .nil⟩

/-! ### Reading and writing the arrays -/

section Tables

variable {nodes nodes' : Nodes} {arrays arrays' : Arrays} {table : CTable} {value value' : Map.CTable}

theorem Reads.pointer (reads : Reads arrays table value) :
    table.table = none ∧ value.table = none ∨
      ∃ block slots, table.table = some block ∧ value.table = some slots ∧ arrays.load block = some slots := by
  have related := reads.array
  generalize table.table = pointer at related ⊢
  generalize value.table = array at related ⊢
  cases related with
  | none => exact .inl ⟨rfl, rfl⟩
  | some loaded => exact .inr ⟨_, _, rfl, rfl, loaded⟩

theorem Reads.loaded {slots : List (Option Addr)} (reads : Reads arrays table value) (array : value.table = some slots) :
    ∃ block, table.table = some block ∧ arrays.load block = some slots := by
  rcases reads.pointer with ⟨_, absent⟩ | ⟨block, slots', pointer, array', loaded⟩
  · cases array.symm.trans absent
  · cases array.symm.trans array'
    exact ⟨block, pointer, loaded⟩

theorem Reads.isSome (reads : Reads arrays table value) : table.table.isSome = value.table.isSome := by
  rcases reads.pointer with ⟨null, absent⟩ | ⟨block, slots, pointer, array, _⟩
  · rw [null, absent]
    rfl
  · rw [pointer, array]
    rfl

theorem Reads.frame (reads : Reads arrays table value)
    (same : ∀ block, table.table = some block → arrays'.load block = arrays.load block) :
    Reads arrays' table value := by
  refine ⟨?_, reads.mask, reads.size⟩
  rcases reads.pointer with ⟨null, absent⟩ | ⟨block, slots, pointer, array, loaded⟩
  · rw [null, absent]
    exact .none
  · rw [pointer, array]
    exact .some ((same block pointer).trans loaded)

theorem setSlot_stored {block position : Nat} {slots : List (Option Addr)} (loaded : arrays.load block = some slots)
    (inside : position < slots.length) (target : Option Addr) :
    ∃ arrays', setSlot arrays block position target = some arrays' ∧
      arrays'.load block = some (slots.set position target) ∧ Blocks.Stored arrays arrays' block := by
  obtain ⟨arrays', stored, loaded', frame⟩ := Blocks.store_loaded loaded (slots.set position target)
  refine ⟨arrays', ?_, loaded', frame⟩
  simp only [setSlot, loaded, Option.bind_eq_bind, Option.bind_some, if_pos inside, stored]

theorem insert_reads {node : Addr} (reads : Reads arrays table value)
    (result : Map.insert nodes value node = some (nodes', value')) :
    ∃ block arrays' table', table.table = some block ∧ insert nodes arrays table node = some (nodes', arrays', table') ∧
      Reads arrays' table' value' ∧ table'.table = table.table ∧ Blocks.Stored arrays arrays' block := by
  simp only [Map.insert, Option.bind_eq_bind, Option.bind_eq_some_iff] at result
  obtain ⟨slots, array, next, slot, same⟩ := result
  cases same
  obtain ⟨block, pointer, loaded⟩ := reads.loaded array
  obtain ⟨inside, _⟩ := List.getElem?_eq_some_iff.mp slot
  obtain ⟨arrays', written, loaded', stored⟩ := setSlot_stored loaded inside (some node)
  refine ⟨block, arrays', { table with size := (table.size + 1) % 2 ^ 64 }, pointer, ?_, ?_, rfl, stored⟩
  · simp only [insert, pointer, reads.mask, loaded, slot, written, Option.bind_eq_bind, Option.bind_some]
  · refine ⟨?_, reads.mask, by rw [← reads.size]⟩
    rw [pointer]
    exact .some loaded'

/-- The link into a table, with the address of its array. -/
def linkIn (block : Addr) : Map.Link → Link
  | .slot position => .slot block position
  | .next node => .next node

theorem linkIn_read {block : Addr} {slots : List (Option Addr)} (loaded : arrays.load block = some slots)
    (link : Map.Link) : (linkIn block link).read nodes arrays = link.read nodes slots := by
  cases link with
  | slot position => simp only [linkIn, Link.read, Map.Link.read, loaded, Option.bind_eq_bind, Option.bind_some]
  | next node => rfl

theorem detach_reads {link : Map.Link} {node : Addr} {slots : List (Option Addr)} {block : Addr}
    (reads : Reads arrays table value) (pointer : table.table = some block) (array : value.table = some slots)
    (result : Map.detach nodes value link = some (node, nodes', value')) :
    ∃ arrays' table', detach nodes arrays table (linkIn block link) = some (node, nodes', arrays', table') ∧
      Reads arrays' table' value' ∧ table'.table = table.table ∧ Blocks.Stored arrays arrays' block := by
  have loaded : arrays.load block = some slots := by
    obtain ⟨other, pointer', loaded⟩ := reads.loaded array
    cases pointer.symm.trans pointer'
    exact loaded
  simp only [Map.detach, array, Option.bind_eq_bind, Option.bind_some, Option.bind_eq_some_iff] at result
  obtain ⟨slot, read, found, rfl, rest⟩ := result
  cases link with
  | slot position =>
      cases rest
      obtain ⟨inside, _⟩ := List.getElem?_eq_some_iff.mp read
      obtain ⟨arrays', written, loaded', stored⟩ := setSlot_stored loaded inside (nodes node).next
      refine ⟨arrays', { table with size := (table.size + (2 ^ 64 - 1)) % 2 ^ 64 }, ?_, ?_, rfl, stored⟩
      · rw [detach, linkIn_read loaded, read]
        simp only [linkIn, Link.write, written, Option.bind_eq_bind, Option.bind_some, Option.map_some]
      · refine ⟨?_, reads.mask, by rw [← reads.size]⟩
        rw [pointer]
        exact .some loaded'
  | next previous =>
      cases rest
      refine ⟨arrays, { table with size := (table.size + (2 ^ 64 - 1)) % 2 ^ 64 }, ?_, ?_, rfl, rfl, fun _ _ => rfl⟩
      · rw [detach, linkIn_read loaded, read]
        rfl
      · refine ⟨?_, reads.mask, by rw [← reads.size]⟩
        rw [pointer]
        exact .some loaded

theorem lookUpFrom_reads {code fuel : Nat} {eq : Addr → Bool} {block : Addr} {slots : List (Option Addr)}
    (loaded : arrays.load block = some slots) (link : Map.Link) :
    lookUpFrom nodes arrays code eq fuel (linkIn block link) =
      (Map.lookUpFrom nodes slots code eq fuel link).map (Option.map (linkIn block)) := by
  induction fuel generalizing link with
  | zero =>
      rw [lookUpFrom.eq_def, Map.lookUpFrom.eq_def, linkIn_read loaded]
      cases link.read nodes slots with
      | none => rfl
      | some slot =>
          cases slot with
          | none => rfl
          | some curr =>
              simp only [Option.bind_eq_bind, Option.bind_some]
              split <;> rfl
  | succ fuel ih =>
      rw [lookUpFrom.eq_def, Map.lookUpFrom.eq_def, linkIn_read loaded]
      cases link.read nodes slots with
      | none => rfl
      | some slot =>
          cases slot with
          | none => rfl
          | some curr =>
              simp only [Option.bind_eq_bind, Option.bind_some]
              split
              · rfl
              · exact ih (.next curr)

theorem lookUp_reads (reads : Reads arrays table value) (code : Nat) (eq : Addr → Bool) :
    lookUp nodes arrays table code eq =
      (Map.lookUp nodes value code eq).map (Option.map (linkIn (table.table.getD 0))) := by
  rcases reads.pointer with ⟨null, absent⟩ | ⟨block, slots, pointer, array, loaded⟩
  · rw [lookUp, Map.lookUp, null, absent]
    rfl
  · rw [lookUp, Map.lookUp, pointer, array, reads.mask, reads.size]
    exact lookUpFrom_reads loaded (.slot (code &&& value.mask))

theorem Reads.found {code : Nat} {eq : Addr → Bool} {link : Map.Link} (reads : Reads arrays table value)
    (search : Map.lookUp nodes value code eq = some (some link)) :
    (linkIn (table.table.getD 0) link).read nodes arrays = link.read nodes (value.table.getD []) := by
  rcases reads.pointer with ⟨_, absent⟩ | ⟨block, slots, pointer, array, loaded⟩
  · rw [Map.lookUp, absent] at search
    cases search
  · rw [pointer, array]
    exact linkIn_read loaded link

end Tables

/-! ### The tables of one map -/

section Represents

variable {s : Store} {value value' : Map.Store} {nodes : Nodes} {arrays : Arrays} {table : CTable} {after : Map.CTable}
variable {block : Addr}

theorem Represents.apart (represents : Represents s value) (pointer : s.map.table1.table = some block) :
    s.map.table2.table ≠ some block := by
  intro shared
  have distinct := represents.owned.distinct
  simp [CMap.owned, pointer, shared] at distinct

theorem Represents.setTable1 (represents : Represents s value) (reads : Reads arrays table after)
    (pointer : s.map.table1.table = some block) (same : table.table = s.map.table1.table)
    (stored : Blocks.Stored s.arrays arrays block) :
    Represents ⟨nodes, arrays, { s.map with table1 := table }⟩ ⟨nodes, { value.map with table1 := after }⟩ where
  nodes := rfl
  table1 := reads
  table2 := represents.table2.frame fun other there =>
    stored.others other fun equal => represents.apart pointer (equal ▸ there)
  position := represents.position
  owned := by
    have owned := stored.owned represents.owned
    simpa only [CMap.owned, same] using owned

theorem Represents.setTable2 (represents : Represents s value) (reads : Reads arrays table after)
    (pointer : s.map.table2.table = some block) (same : table.table = s.map.table2.table)
    (stored : Blocks.Stored s.arrays arrays block) :
    Represents ⟨nodes, arrays, { s.map with table2 := table }⟩ ⟨nodes, { value.map with table2 := after }⟩ where
  nodes := rfl
  table1 := represents.table1.frame fun other there =>
    stored.others other fun equal => represents.apart there (equal ▸ pointer)
  table2 := reads
  position := represents.position
  owned := by
    have owned := stored.owned represents.owned
    simpa only [CMap.owned, same] using owned

theorem Represents.insert {node : Addr} (represents : Represents s value)
    (result : Map.insert value.nodes value.map.table1 node = some (nodes, after)) :
    ∃ arrays table, InHeap.insert s.nodes s.arrays s.map.table1 node = some (nodes, arrays, table) ∧
      Represents ⟨nodes, arrays, { s.map with table1 := table }⟩ ⟨nodes, { value.map with table1 := after }⟩ := by
  rw [represents.nodes]
  obtain ⟨block, arrays, table, pointer, inserted, reads, same, stored⟩ := insert_reads represents.table1 result
  exact ⟨arrays, table, inserted, represents.setTable1 reads pointer same stored⟩

theorem detach_array {nodes nodes' : Nodes} {table table' : Map.CTable} {link : Map.Link} {node : Addr}
    (result : Map.detach nodes table link = some (node, nodes', table')) : ∃ slots, table.table = some slots := by
  simp only [Map.detach, Option.bind_eq_bind, Option.bind_eq_some_iff] at result
  obtain ⟨slots, array, _⟩ := result
  exact ⟨slots, array⟩

theorem Represents.detach1 {link : Map.Link} {node : Addr} (represents : Represents s value)
    (result : Map.detach value.nodes value.map.table1 link = some (node, nodes, after)) :
    ∃ block arrays table, s.map.table1.table = some block ∧
      detach s.nodes s.arrays s.map.table1 (linkIn block link) = some (node, nodes, arrays, table) ∧
      Represents ⟨nodes, arrays, { s.map with table1 := table }⟩ ⟨nodes, { value.map with table1 := after }⟩ := by
  rw [represents.nodes]
  obtain ⟨slots, array⟩ := detach_array result
  obtain ⟨block, pointer, _⟩ := represents.table1.loaded array
  obtain ⟨arrays, table, detached, reads, same, stored⟩ := detach_reads represents.table1 pointer array result
  exact ⟨block, arrays, table, pointer, detached, represents.setTable1 reads pointer same stored⟩

theorem Represents.detach2 {link : Map.Link} {node : Addr} (represents : Represents s value)
    (result : Map.detach value.nodes value.map.table2 link = some (node, nodes, after)) :
    ∃ block arrays table, s.map.table2.table = some block ∧
      detach s.nodes s.arrays s.map.table2 (linkIn block link) = some (node, nodes, arrays, table) ∧
      Represents ⟨nodes, arrays, { s.map with table2 := table }⟩ ⟨nodes, { value.map with table2 := after }⟩ := by
  rw [represents.nodes]
  obtain ⟨slots, array⟩ := detach_array result
  obtain ⟨block, pointer, _⟩ := represents.table2.loaded array
  obtain ⟨arrays, table, detached, reads, same, stored⟩ := detach_reads represents.table2 pointer array result
  exact ⟨block, arrays, table, pointer, detached, represents.setTable2 reads pointer same stored⟩

/-! ### The migration -/

theorem migrate_represents {fuel work : Nat} (represents : Represents s value)
    (result : Map.migrate fuel work value = some value') :
    ∃ s', migrate fuel work s = some s' ∧ Represents s' value' := by
  induction fuel generalizing work s value with
  | zero =>
      rw [Map.migrate.eq_def] at result
      rw [migrate.eq_def, represents.table2.size]
      split at result
      · cases result
      · rename_i spent
        cases result
        exact ⟨s, if_neg spent, represents⟩
  | succ fuel ih =>
      rw [Map.migrate.eq_def] at result
      rw [migrate.eq_def, represents.table2.size]
      split at result
      · rename_i busy
        rw [if_pos busy]
        simp only [Option.bind_eq_bind, Option.bind_eq_some_iff] at result
        obtain ⟨slots, array, slot, here, rest⟩ := result
        obtain ⟨block, pointer, loaded⟩ := represents.table2.loaded array
        have read : Link.read s.nodes s.arrays (.slot block s.map.resizingPosition) = some slot := by
          rw [represents.position, ← here]
          exact linkIn_read loaded (.slot value.map.resizingPosition)
        simp only [pointer, read, Option.bind_eq_bind, Option.bind_some]
        cases slot with
        | none =>
            have passed : Represents
                { s with map.resizingPosition := (s.map.resizingPosition + 1) % 2 ^ 64 }
                { value with map.resizingPosition := (value.map.resizingPosition + 1) % 2 ^ 64 } :=
              ⟨represents.nodes, represents.table1, represents.table2, by rw [represents.position], represents.owned⟩
            exact ih passed rest
        | some node =>
            simp only [Option.bind_eq_some_iff] at rest
            obtain ⟨⟨node, nodes, table2⟩, detached, ⟨nodes', table1⟩, inserted, rest⟩ := rest
            obtain ⟨block', arrays, table2', pointer', detached', between⟩ := represents.detach2 detached
            cases pointer.symm.trans pointer'
            obtain ⟨arrays', table1', inserted', moved⟩ := between.insert inserted
            rw [linkIn, ← represents.position] at detached'
            simp only at inserted'
            simp only [detached', inserted', Option.bind_some]
            exact ih moved rest
      · rename_i spent
        rw [if_neg spent]
        cases result
        exact ⟨s, rfl, represents⟩

theorem Represents.release (represents : Represents s value) :
    ∃ arrays, free s.arrays s.map.table2.table = some arrays ∧
      Represents { s with arrays := arrays, map.table2 := initTable } { value with map.table2 := Map.initTable } := by
  have owned := represents.owned
  cases pointer : s.map.table2.table with
  | none =>
      rw [CMap.owned, pointer] at owned
      exact ⟨s.arrays, rfl, represents.nodes, represents.table1, ⟨.none, rfl, rfl⟩, represents.position, owned⟩
  | some block =>
      rw [CMap.owned, pointer] at owned
      obtain ⟨arrays, freed, left⟩ := (owned.perm List.perm_append_comm).free
      refine ⟨arrays, freed, represents.nodes, represents.table1.frame fun other there => ?_, ⟨.none, rfl, rfl⟩,
        represents.position, ?_⟩
      · have away : other ≠ block := fun equal => represents.apart (equal ▸ there) pointer
        exact Blocks.load_free away freed
      · simpa [CMap.owned, initTable] using left

theorem helpResizing_represents (represents : Represents s value) (result : Map.helpResizing value = some value') :
    ∃ s', helpResizing s = some s' ∧ Represents s' value' := by
  simp only [Map.helpResizing, Option.bind_eq_bind, Option.bind_eq_some_iff] at result
  obtain ⟨between, moved, rest⟩ := result
  obtain ⟨t, moved', between'⟩ := migrate_represents represents moved
  rw [← represents.table2.mask] at moved'
  simp only [helpResizing, moved', Option.bind_eq_bind, Option.bind_some, between'.table2.size, between'.table2.isSome]
  split at rest
  · rename_i emptied
    cases rest
    obtain ⟨arrays, freed, released⟩ := between'.release
    rw [if_pos emptied, freed]
    exact ⟨_, rfl, released⟩
  · rename_i kept
    cases rest
    rw [if_neg kept]
    exact ⟨t, rfl, between'⟩

/-! ### The calls -/

variable {place : Allocator}

theorem initializeTable_reads {n : Nat} {owners : List Addr} (provides : place.Provides 2) (owned : arrays.Owned owners)
    (room : owners.length < 2) (result : Map.initializeTable n = some after) :
    ∃ arrays' table block, initializeTable place arrays n = some (arrays', table) ∧ table.table = some block ∧
      arrays'.Owned (block :: owners) ∧ Reads arrays' table after ∧
      ∀ other ∈ owners, arrays'.load other = arrays.load other := by
  unfold Map.initializeTable at result
  split at result
  · rename_i power
    cases result
    obtain ⟨arrays', block, allocated, owned', loaded, others⟩ := owned.allocate provides room (List.replicate n none)
    refine ⟨arrays', ⟨some block, n - 1, 0⟩, block, ?_, rfl, owned', ⟨.some loaded, rfl, rfl⟩, others⟩
    rw [initializeTable, if_pos power, allocated]
  · cases result

theorem firstTable_represents (provides : place.Provides 2) (represents : Represents s value)
    (result : Map.firstTable value.map.table1 = some after) :
    ∃ arrays table, firstTable place s.arrays s.map.table1 = some (arrays, table) ∧
      Represents { s with arrays := arrays, map.table1 := table } { value with map.table1 := after } := by
  unfold Map.firstTable at result
  have null := represents.table1.isSome
  unfold firstTable
  rw [← Option.not_isSome] at result ⊢
  rw [null]
  split at result
  · rename_i absent
    rw [if_pos absent]
    have owners : s.map.owned = s.map.table2.table.toList := by
      rw [Bool.not_eq_true', ← null, Option.isSome_eq_false_iff, Option.isNone_iff_eq_none] at absent
      rw [CMap.owned, absent]
      rfl
    have owned := represents.owned
    rw [owners] at owned
    have room : s.map.table2.table.toList.length < 2 := by cases s.map.table2.table <;> simp
    obtain ⟨arrays, table, block, allocated, pointer, owned', reads, others⟩ :=
      initializeTable_reads provides owned room result
    refine ⟨arrays, table, allocated, represents.nodes, reads, represents.table2.frame fun other there => ?_,
      represents.position, ?_⟩
    · exact others other (by rw [there]; exact List.mem_cons_self)
    · rw [CMap.owned, pointer]
      exact owned'
  · rename_i there
    cases result
    rw [if_neg there]
    exact ⟨s.arrays, s.map.table1, rfl, represents⟩

theorem checkLoad_represents {map : Map.CMap} (provides : place.Provides 2) (represents : Represents s value)
    (result : Map.checkLoad value.map = some map) :
    ∃ arrays map', checkLoad place s.arrays s.map = some (arrays, map') ∧
      Represents { s with arrays := arrays, map := map' } { value with map := map } := by
  unfold Map.checkLoad at result
  unfold checkLoad
  have null := represents.table2.isSome
  rw [← Option.not_isSome] at result ⊢
  rw [null, represents.table1.size, represents.table1.mask]
  split at result
  · rename_i idle
    rw [if_pos idle]
    dsimp only at result ⊢
    split at result
    · rename_i heavy
      rw [if_pos heavy]
      have absent : s.map.table2.table = none := by
        rwa [Bool.not_eq_true', ← null, Option.isSome_eq_false_iff, Option.isNone_iff_eq_none] at idle
      unfold Map.startResizing at result
      split at result
      · cases result
      simp only [Option.bind_eq_bind, Option.bind_eq_some_iff] at result
      obtain ⟨empty, made, rest⟩ := result
      cases rest
      have owned := represents.owned
      rw [CMap.owned, absent, Option.toList_none, List.append_nil] at owned
      have room : s.map.table1.table.toList.length < 2 := by cases s.map.table1.table <;> simp
      obtain ⟨arrays, table, block, allocated, pointer, owned', reads, others⟩ :=
        initializeTable_reads provides owned room made
      refine ⟨arrays, ⟨table, s.map.table1, 0⟩, ?_, represents.nodes, reads,
        represents.table1.frame fun other there => ?_, rfl, ?_⟩
      · rw [startResizing, absent]
        simp only [represents.table1.mask, allocated, Option.isSome_none, Bool.false_eq_true, if_false,
          Option.bind_eq_bind, Option.bind_some]
      · exact others other (by rw [there]; exact List.mem_cons_self)
      · rw [CMap.owned, pointer]
        exact owned'
    · rename_i light
      rw [if_neg light]
      cases result
      exact ⟨s.arrays, s.map, rfl, represents⟩
  · rename_i busy
    rw [if_neg busy]
    cases result
    exact ⟨s.arrays, s.map, rfl, represents⟩

theorem CMapInsert_represents {node : Addr} (provides : place.Provides 2) (represents : Represents s value)
    (result : Map.CMapInsert value node = some value') :
    ∃ s', CMapInsert place s node = some s' ∧ Represents s' value' := by
  simp only [Map.CMapInsert, Option.bind_eq_bind, Option.bind_eq_some_iff] at result
  obtain ⟨table1, first, ⟨nodes, table1'⟩, inserted, map, checked, helped⟩ := result
  obtain ⟨arrays, table, first', begun⟩ := firstTable_represents provides represents first
  obtain ⟨arrays₁, table₁, inserted', grown⟩ := begun.insert inserted
  obtain ⟨arrays₂, map₂, checked', loaded⟩ := checkLoad_represents provides grown checked
  obtain ⟨s', helped', done⟩ := helpResizing_represents loaded helped
  refine ⟨s', ?_, done⟩
  dsimp only at inserted' checked' helped'
  simp only [CMapInsert, first', inserted', checked', helped', Option.bind_eq_bind, Option.bind_some]

theorem CMapLookUp_represents {code : Nat} {eq : Addr → Bool} {found : Option Addr} (represents : Represents s value)
    (result : Map.CMapLookUp value code eq = some (value', found)) :
    ∃ s', CMapLookUp s code eq = some (s', found) ∧ Represents s' value' := by
  simp only [Map.CMapLookUp, Option.bind_eq_bind, Option.bind_eq_some_iff] at result
  obtain ⟨between, helped, first, search, rest⟩ := result
  obtain ⟨t, helped', after⟩ := helpResizing_represents represents helped
  simp only [CMapLookUp, helped', after.nodes, lookUp_reads after.table1, lookUp_reads after.table2, search,
    Option.bind_eq_bind, Option.bind_some, Option.map_some]
  cases first with
  | some link =>
      simp only [Option.bind_eq_some_iff] at rest
      obtain ⟨target, read, same⟩ := rest
      cases same
      refine ⟨t, ?_, after⟩
      simp only [Option.map_some, after.table1.found search, read, Option.bind_some]
  | none =>
      simp only [Option.bind_eq_some_iff] at rest
      obtain ⟨second, search', rest⟩ := rest
      simp only [search', Option.map_none, Option.map_some, Option.bind_some]
      cases second with
      | some link =>
          simp only [Option.bind_eq_some_iff] at rest
          obtain ⟨target, read, same⟩ := rest
          cases same
          refine ⟨t, ?_, after⟩
          simp only [Option.map_some, after.table2.found search', read, Option.bind_some]
      | none =>
          cases rest
          exact ⟨t, rfl, after⟩

theorem CMapPop_represents {code : Nat} {eq : Addr → Bool} {found : Option Addr} (represents : Represents s value)
    (result : Map.CMapPop value code eq = some (value', found)) :
    ∃ s', CMapPop s code eq = some (s', found) ∧ Represents s' value' := by
  simp only [Map.CMapPop, Option.bind_eq_bind, Option.bind_eq_some_iff] at result
  obtain ⟨between, helped, first, search, rest⟩ := result
  obtain ⟨t, helped', after⟩ := helpResizing_represents represents helped
  simp only [CMapPop, helped', Option.bind_eq_bind, Option.bind_some]
  rw [after.nodes, lookUp_reads after.table1, lookUp_reads after.table2, search]
  cases first with
  | some link =>
      simp only [Option.bind_eq_some_iff] at rest
      obtain ⟨⟨node, nodes, table1⟩, detached, same⟩ := rest
      cases same
      obtain ⟨block, arrays, table, pointer, detached', done⟩ := after.detach1 detached
      rw [after.nodes] at detached'
      refine ⟨_, ?_, done⟩
      simp only [Option.map_some, pointer, Option.getD_some, detached', Option.bind_some]
  | none =>
      simp only [Option.bind_eq_some_iff] at rest
      obtain ⟨second, search', rest⟩ := rest
      simp only [search', Option.map_none, Option.map_some, Option.bind_some]
      cases second with
      | some link =>
          simp only [Option.bind_eq_some_iff] at rest
          obtain ⟨⟨node, nodes, table2⟩, detached, same⟩ := rest
          cases same
          obtain ⟨block, arrays, table, pointer, detached', done⟩ := after.detach2 detached
          rw [after.nodes] at detached'
          refine ⟨_, ?_, done⟩
          simp only [Option.map_some, pointer, Option.getD_some, detached', Option.bind_some]
      | none =>
          cases rest
          exact ⟨t, rfl, after⟩

theorem CMapDestroy_represents (represents : Represents s value) :
    ∃ s', CMapDestroy s = some s' ∧ s'.arrays.live = [] ∧ Represents s' ⟨value.nodes, Map.initMap⟩ := by
  have owned := represents.owned
  have emptied {arrays : Arrays} (left : arrays.Owned []) : arrays.live = [] := List.perm_nil.mp left.live
  have done {arrays : Arrays} (left : arrays.Owned []) :
      Represents { s with arrays := arrays, map := initMap } ⟨value.nodes, Map.initMap⟩ :=
    ⟨represents.nodes, ⟨.none, rfl, rfl⟩, ⟨.none, rfl, rfl⟩, rfl, left⟩
  unfold CMapDestroy
  unfold CMap.owned at owned
  cases first : s.map.table1.table with
  | none =>
      rw [first] at owned
      cases second : s.map.table2.table with
      | none =>
          rw [second] at owned
          exact ⟨_, rfl, emptied owned, done owned⟩
      | some block =>
          rw [second] at owned
          obtain ⟨arrays, freed, left⟩ := owned.free
          refine ⟨_, ?_, emptied left, done left⟩
          simp only [free, freed, Option.bind_eq_bind, Option.bind_some]
  | some block =>
      rw [first] at owned
      obtain ⟨arrays, freed, left⟩ := Blocks.Owned.free owned
      cases second : s.map.table2.table with
      | none =>
          rw [second] at left
          refine ⟨_, ?_, emptied left, done left⟩
          simp only [free, freed, Option.bind_eq_bind, Option.bind_some]
      | some other =>
          rw [second] at left
          obtain ⟨arrays', freed', left'⟩ := left.free
          refine ⟨_, ?_, emptied left', done left'⟩
          simp only [free, freed, freed', Option.bind_eq_bind, Option.bind_some]

end Represents

/-! ### Whole runs -/

def run (place : Allocator) (s : Store) : Call → Option (Store × Option Addr)
  | .prepare node value => some ({ s with nodes := Function.update s.nodes node value }, none)
  | .insert node => (CMapInsert place s node).map fun s' => (s', none)
  | .lookUp key eq => CMapLookUp s (s.nodes key).code fun node => eq node key
  | .pop key eq => CMapPop s (s.nodes key).code fun node => eq node key

/-- States of the map under any sequence of calls, with the nodes inserted and neither popped nor left by `CMapDestroy`. -/
inductive Ran (place : Allocator) : Store → List Addr → Prop where
  | empty (nodes : Nodes) : Ran place ⟨nodes, ⟨[], fun _ => []⟩, initMap⟩ []
  | call {s s' : Store} {present : List Addr} {call : Call} {answer : Option Addr} : Ran place s present →
      call.Allowed present → run place s call = some (s', answer) → Ran place s' (call.present present answer)
  | destroy {s s' : Store} {present : List Addr} : Ran place s present → CMapDestroy s = some s' → Ran place s' []

theorem run_represents {place : Allocator} {s : Store} {value value' : Map.Store} {call : Call} {answer : Option Addr}
    (provides : place.Provides 2) (represents : Represents s value) (result : call.run value = some (value', answer)) :
    ∃ s', run place s call = some (s', answer) ∧ Represents s' value' := by
  cases call with
  | prepare node content =>
      cases result
      refine ⟨_, rfl, ?_, represents.table1, represents.table2, represents.position, represents.owned⟩
      rw [represents.nodes]
  | insert node =>
      obtain ⟨value', inserted, same⟩ := Option.map_eq_some_iff.mp result
      cases same
      obtain ⟨s', inserted', after⟩ := CMapInsert_represents provides represents inserted
      exact ⟨s', by rw [run, inserted', Option.map_some], after⟩
  | lookUp key eq =>
      rw [run, represents.nodes]
      exact CMapLookUp_represents represents result
  | pop key eq =>
      rw [run, represents.nodes]
      exact CMapPop_represents represents result

theorem Ran.represents {place : Allocator} {s : Store} {present : List Addr} (provides : place.Provides 2)
    (ran : Ran place s present) : ∃ value, Map.Ran value present ∧ Represents s value := by
  induction ran with
  | empty nodes => exact ⟨_, .empty nodes, initMap_represents nodes⟩
  | @call s s' present call answer _ allowed result ih =>
      obtain ⟨value, before, represents⟩ := ih
      obtain ⟨tracks, paced⟩ := before.paced
      obtain ⟨value', answer', result', _⟩ := tracks.paced_call paced call allowed
      obtain ⟨t, done, after⟩ := run_represents provides represents result'
      cases result.symm.trans done
      exact ⟨value', before.call allowed result', after⟩
  | @destroy s s' present _ result ih =>
      obtain ⟨value, _, represents⟩ := ih
      obtain ⟨t, done, _, after⟩ := CMapDestroy_represents represents
      cases result.symm.trans done
      exact ⟨_, .empty value.nodes, after⟩

/-- The arrays of a map never leak and are never used after they are freed. With an allocator that has room for two of
them, every call and `CMapDestroy` return after any run, and the calls answer as the map that holds its arrays does. The
live arrays are those of the two tables, each once, and after `CMapDestroy` there are none. -/
theorem arrays_owned {place : Allocator} {s : Store} {present : List Addr} (provides : place.Provides 2)
    (ran : Ran place s present) :
    s.arrays.live.Perm (s.map.table1.table.toList ++ s.map.table2.table.toList) ∧ s.arrays.live.Nodup ∧
    (∃ s', CMapDestroy s = some s' ∧ s'.arrays.live = [] ∧ CMapSize s'.map = 0) ∧
    ∃ value, Map.Ran value present ∧ Represents s value ∧ ∀ call : Call, call.Allowed present →
      ∃ s' value' answer, run place s call = some (s', answer) ∧ call.run value = some (value', answer) ∧
        Represents s' value' := by
  obtain ⟨value, before, represents⟩ := ran.represents provides
  refine ⟨represents.owned.live, represents.owned.live.nodup_iff.mpr represents.owned.distinct, ?_, value, before,
    represents, fun call allowed => ?_⟩
  · obtain ⟨s', destroyed, left, after⟩ := CMapDestroy_represents represents
    refine ⟨s', destroyed, left, ?_⟩
    rw [CMapSize, after.table1.size, after.table2.size]
    rfl
  · obtain ⟨tracks, paced⟩ := before.paced
    obtain ⟨value', answer, result, _⟩ := tracks.paced_call paced call allowed
    obtain ⟨s', done, after⟩ := run_represents provides represents result
    exact ⟨s', value', answer, done, result, after⟩

def twoPlaces : Allocator := fun live => if 0 ∉ live then some 0 else if 1 ∉ live then some 1 else none

theorem twoPlaces_provides : twoPlaces.Provides 2 := by
  intro live few
  by_cases first : 0 ∈ live
  · have second : 1 ∉ live := by
      intro other
      obtain ⟨block, rfl⟩ := List.length_eq_one_iff.mp (show live.length = 1 by have := List.length_pos_of_mem first; omega)
      rw [← List.mem_singleton.mp first] at other
      simp at other
    exact ⟨1, by simp [twoPlaces, first, second], second⟩
  · exact ⟨0, if_pos first, first⟩

theorem populated_represents {n : Nat} (few : n < 2 ^ 60) : ∃ s value, Ran twoPlaces s (List.range n).reverse ∧
    populated n = some value ∧ Represents s value := by
  induction n with
  | zero => exact ⟨_, _, .empty fun node => ⟨none, node⟩, rfl, initMap_represents _⟩
  | succ n ih =>
      obtain ⟨s, value, ran, before, represents⟩ := ih (by omega)
      have allowed := (insert_next_legal value.nodes few).allowed
      obtain ⟨value', after, _⟩ := populated_reached few
      have result : (Call.insert n).run value = some (value', none) := by
        rw [populated, before] at after
        rw [Call.run, show Map.CMapInsert value n = some value' from after, Option.map_some]
      obtain ⟨s', done, represents'⟩ := run_represents twoPlaces_provides represents result
      refine ⟨s', value', ?_, after, represents'⟩
      rw [List.range_succ, List.reverse_append]
      exact ran.call allowed done

/-- Two arrays in the middle of a rehash. -/
theorem arrays_owned_halfway : ∃ s, Ran twoPlaces s (List.range 256).reverse ∧ s.map.table2.size = 128 ∧
    s.arrays.live.length = 2 ∧ s.arrays.live.Nodup ∧ ∃ s', CMapDestroy s = some s' ∧ s'.arrays.live = [] := by
  obtain ⟨s, value, ran, after, represents⟩ := populated_represents (show 256 < 2 ^ 60 by decide)
  obtain ⟨live, distinct, ⟨s', destroyed, left, _⟩, _⟩ := arrays_owned twoPlaces_provides ran
  obtain ⟨_, _, older, array1, array2⟩ := populated_halfway after
  refine ⟨s, ran, represents.table2.size.trans older, ?_, distinct, s', destroyed, left⟩
  rw [live.length_eq, List.length_append]
  have one {table : CTable} {value : Map.CTable} (reads : Reads s.arrays table value) (there : value.table.isSome = true) :
      table.table.toList.length = 1 := by
    have pointer := reads.array
    obtain ⟨slots, array⟩ := Option.isSome_iff_exists.mp there
    rw [array] at pointer
    generalize table.table = block at pointer
    cases pointer
    rfl
  rw [one represents.table1 array1, one represents.table2 array2]

end Coxx.Map.InHeap
