import Coxx.Map.Runs

/-! Progressive rehashing keeps up with growth. A migration moves `RESIZING_WORK` nodes in
each call, an insertion adds one, and a new table has room for twice the nodes that start
the rehash: the invariant weighs the nodes present against the nodes that still wait.
-/

set_option autoImplicit false

namespace Coxx.Map

open Library

/-- What a client owes when any comparison at all may be passed to a search. -/
def Call.Allowed (present : List Addr) : Call → Prop
  | .prepare node _ => node ∉ present
  | .insert node => node ∉ present ∧ present.length + 1 < 2 ^ 60
  | .lookUp _ _ | .pop _ _ => True

/-- States of the map under any sequence of calls, with the nodes inserted and not popped. -/
inductive Ran : Store → List Addr → Prop where
  | empty (nodes : Nodes) : Ran ⟨nodes, initMap⟩ []
  | call {s s' : Store} {present : List Addr} {call : Call} {answer : Option Addr} : Ran s present →
      call.Allowed present → call.run s = some (s', answer) → Ran s' (call.present present answer)

theorem Call.Legal.allowed {nodes : Nodes} {present : List Addr} {call : Call} (legal : call.Legal nodes present) :
    call.Allowed present := by
  cases call with
  | prepare node value => exact legal
  | insert node => exact legal
  | lookUp key eq => trivial
  | pop key eq => trivial

theorem Reached.ran {s : Store} {present : List Addr} (reached : Reached s present) : Ran s present := by
  induction reached with
  | empty nodes => exact .empty nodes
  | call _ legal result ih => exact ih.call legal.allowed result

/-! ### What a call does to the tables -/

section Calls

variable {s s' : Store} {code : Nat} {eq : Addr → Bool} {found : Option Addr}

theorem CMapLookUp_cases (result : CMapLookUp s code eq = some (s', found)) : helpResizing s = some s' := by
  simp only [CMapLookUp, Option.bind_eq_bind, Option.bind_eq_some_iff] at result
  obtain ⟨t, help, first, _, rest⟩ := result
  rw [help]
  cases first with
  | some link => simp only [Option.bind_eq_some_iff, Option.some.injEq, Prod.mk.injEq] at rest; grind
  | none =>
      simp only [Option.bind_eq_some_iff] at rest
      obtain ⟨second, _, rest⟩ := rest
      cases second with
      | some link => simp only [Option.bind_eq_some_iff, Option.some.injEq, Prod.mk.injEq] at rest; grind
      | none => simp only [Option.some.injEq, Prod.mk.injEq] at rest; rw [rest.1]

theorem detach_table {nodes nodes' : Nodes} {table table' : CTable} {link : Link} {node : Addr}
    (result : detach nodes table link = some (node, nodes', table')) :
    table'.mask = table.mask ∧ table'.table.isSome = table.table.isSome := by
  simp only [detach, Option.bind_eq_bind, Option.bind_eq_some_iff] at result
  obtain ⟨slots, array, _, _, _, _, rest⟩ := result
  cases link with
  | slot position => cases rest; exact ⟨rfl, by simp [array]⟩
  | next previous => cases rest; exact ⟨rfl, rfl⟩

/-- A removal touches one of the tables, and not its array or mask. -/
structure Shrinks (map map' : CMap) : Prop where
  mask1 : map'.table1.mask = map.table1.mask
  array1 : map'.table1.table.isSome = map.table1.table.isSome
  array2 : map'.table2.table.isSome = map.table2.table.isSome
  one : map'.table1 = map.table1 ∨ map'.table2 = map.table2

theorem CMapPop_cases (result : CMapPop s code eq = some (s', found)) :
    ∃ t, helpResizing s = some t ∧ Shrinks t.map s'.map := by
  simp only [CMapPop, Option.bind_eq_bind, Option.bind_eq_some_iff] at result
  obtain ⟨t, help, first, _, rest⟩ := result
  refine ⟨t, help, ?_⟩
  cases first with
  | some link =>
      simp only [Option.bind_eq_some_iff] at rest
      obtain ⟨⟨node, nodes, table1⟩, detached, rest⟩ := rest
      cases rest
      exact ⟨(detach_table detached).1, (detach_table detached).2, rfl, Or.inr rfl⟩
  | none =>
      simp only [Option.bind_eq_some_iff] at rest
      obtain ⟨second, _, rest⟩ := rest
      cases second with
      | some link =>
          simp only [Option.bind_eq_some_iff] at rest
          obtain ⟨⟨node, nodes, table2⟩, detached, rest⟩ := rest
          cases rest
          exact ⟨rfl, rfl, (detach_table detached).2, Or.inl rfl⟩
      | none => cases rest; exact ⟨rfl, rfl, rfl, Or.inl rfl⟩

end Calls

/-! ### The pace of a rehash -/

def total (map : CMap) : Nat := map.table1.size + map.table2.size

/-- The nodes present against the slots of table1. A rehash starts with as many nodes waiting
as half the load limit allows; each node that came since has been paid for by
`RESIZING_WORK` nodes that wait no longer, up to a slack. -/
structure Paced (slack : Nat) (map : CMap) : Prop where
  light : map.table1.table.isSome = true → total map < MAX_LOAD_FACTOR * (map.table1.mask + 1)
  ahead : map.table2.table.isSome = true →
    RESIZING_WORK * total map + map.table2.size ≤
      MAX_LOAD_FACTOR / 2 * (RESIZING_WORK + 1) * (map.table1.mask + 1) + slack

section Pace

variable {s t : Store} {newer older : List (List Addr)}

theorem initMap_paced (slack : Nat) : Paced slack initMap := by
  constructor <;> intro array <;> simp [initMap, initTable] at array

theorem Paced.migrate (paced : Paced RESIZING_WORK s.map) (rep : MapRep s newer older)
    (few : (newer.flatten ++ older.flatten).length < 2 ^ 60) (help : helpResizing s = some t) : Paced 0 t.map := by
  obtain ⟨t', newer', older', _, result, migrated, _, waiting, released⟩ := helpResizing_rep rep few
  cases help.symm.trans result
  have same : total t.map = total s.map := by
    rw [total, migrated.rep.size_eq, migrated.cells.length_eq, ← rep.size_eq, total]
  constructor
  · intro array
    rw [migrated.array1] at array
    rw [same, migrated.mask1]
    exact paced.light array
  · intro array
    -- table2 is still there, so it had more than `RESIZING_WORK` nodes
    have left : t.map.table2.size ≠ 0 := fun empty => by simp [released.mpr empty] at array
    have array2 : s.map.table2.table.isSome = true := by
      rw [Option.isSome_iff_ne_none]
      intro absent
      obtain ⟨table, _⟩ := rep.table2.released absent
      simp [table, initTable] at waiting
      exact left waiting
    have before := paced.ahead array2
    rw [same, migrated.mask1]
    omega

theorem Paced.weaken (paced : Paced 0 s.map) : Paced RESIZING_WORK s.map where
  light := paced.light
  ahead array := Nat.le_add_right_of_le (paced.ahead array)

theorem Paced.shrink (paced : Paced 0 s.map) (shrinks : Shrinks s.map t.map)
    (fewer : total t.map ≤ total s.map) : Paced 0 t.map := by
  have waiting : t.map.table2.size ≤ s.map.table2.size := by
    rcases shrinks.one with same | same
    · have := fewer; simp only [total, same] at this; omega
    · rw [same]
  constructor
  · intro array
    rw [shrinks.array1] at array
    rw [shrinks.mask1]
    exact Nat.lt_of_le_of_lt fewer (paced.light array)
  · intro array
    rw [shrinks.array2] at array
    have before := paced.ahead array
    rw [shrinks.mask1]
    simp only [RESIZING_WORK] at before ⊢
    omega

theorem Paced.load (paced : Paced 0 s.map) (rep : MapRep s newer older) (loads : Loads s.map t.map)
    (grown : total t.map = total s.map + 1) : Paced RESIZING_WORK t.map := by
  have room : total s.map < MAX_LOAD_FACTOR * width s.map := by
    cases array : s.map.table1.table with
    | none =>
        obtain ⟨table, _⟩ := rep.table1.released array
        rw [width, array, total, rep.ready array, table]
        decide
    | some slots =>
        have light := paced.light (by rw [array]; rfl)
        rwa [width, array]
  simp only [MAX_LOAD_FACTOR] at room
  cases loads with
  | kept mask same light =>
      by_cases idle : s.map.table2.table = none
      · have empty : t.map.table2 = initTable := by rw [same, (rep.table2.released idle).1]
        constructor
        · intro _
          rw [mask, total, empty]
          exact light idle
        · intro array; simp [empty, initTable] at array
      · have array2 : s.map.table2.table.isSome = true := Option.isSome_iff_ne_none.mpr idle
        have array1 : s.map.table1.table.isNone = false := by
          rw [Option.isNone_eq_false_iff, Option.isSome_iff_ne_none]
          intro absent
          simp [rep.ready absent, initTable] at idle
        have slots : width s.map = s.map.table1.mask + 1 := by simp [width, array1]
        have before := paced.ahead array2
        simp only [MAX_LOAD_FACTOR, RESIZING_WORK] at before
        constructor
        · -- the rehash in progress holds the load down, so no check is needed
          intro _
          rw [mask, grown, slots, MAX_LOAD_FACTOR]
          omega
        · intro _
          rw [mask, grown, slots, same, MAX_LOAD_FACTOR, RESIZING_WORK]
          omega
  | started mask idle empty heavy =>
      simp only [MAX_LOAD_FACTOR] at heavy
      constructor
      · intro _
        rw [mask, MAX_LOAD_FACTOR]
        omega
      · intro _
        rw [mask, MAX_LOAD_FACTOR, RESIZING_WORK]
        simp only [total] at *
        omega

end Pace

/-! ### Whole runs -/

theorem Tracks.count_eq {s : Store} {present : List Addr} (tracks : Tracks s present) : total s.map = present.length := by
  obtain ⟨_, newer, older, rep, same⟩ := tracks
  exact rep.size_eq.trans same.length_eq

theorem Tracks.migrate {s t : Store} {present : List Addr} (tracks : Tracks s present)
    (help : helpResizing s = some t) : Tracks t present := by
  obtain ⟨few, newer, older, rep, same⟩ := tracks
  obtain ⟨t', newer', older', _, result, migrated, _⟩ := helpResizing_rep rep (by rw [same.length_eq]; exact few)
  cases help.symm.trans result
  exact ⟨few, newer', older', migrated.rep, migrated.cells.trans same⟩

theorem Tracks.paced_call {s : Store} {present : List Addr} (tracks : Tracks s present) (paced : Paced 0 s.map)
    (call : Call) (allowed : call.Allowed present) :
    ∃ s' answer, call.run s = some (s', answer) ∧ Tracks s' (call.present present answer) ∧ Paced 0 s'.map := by
  obtain ⟨few, newer, older, rep, same⟩ := id tracks
  have fits : (newer.flatten ++ older.flatten).length < 2 ^ 60 := by rw [same.length_eq]; exact few
  cases call with
  | prepare node value =>
      refine ⟨_, none, rfl, tracks.congr _ fun other member => ?_, paced⟩
      have away : other ≠ node := fun equal => allowed (equal ▸ member)
      exact Function.update_of_ne away value s.nodes
  | insert node =>
      have outside : node ∉ newer.flatten ++ older.flatten := fun member => allowed.1 (same.mem_iff.mp member)
      have room : (newer.flatten ++ older.flatten).length + 1 < 2 ^ 60 := by rw [same.length_eq]; exact allowed.2
      obtain ⟨t, newer₁, older₁, load, rep₁, grown, _, loads⟩ := loaded_rep rep outside room
      have count : total t.map = total s.map + 1 := by
        rw [total, rep₁.size_eq, grown.length_eq, List.length_cons, total, rep.size_eq]
      obtain ⟨s', result, tracks', _⟩ := tracks.insert allowed.1 allowed.2
      refine ⟨s', none, by simp [Call.run, result], tracks', ?_⟩
      rw [CMapInsert_eq, load] at result
      exact (paced.load rep loads count).migrate rep₁ (by rw [grown.length_eq]; exact room) result
  | lookUp key eq =>
      obtain ⟨s', found, result, tracks', _⟩ := tracks.lookUp (s.nodes key).code fun node => eq node key
      exact ⟨s', found, result, tracks', paced.weaken.migrate rep fits (CMapLookUp_cases result)⟩
  | pop key eq =>
      obtain ⟨s', found, result, _, hit, miss⟩ := tracks.pop (s.nodes key).code fun node => eq node key
      obtain ⟨t, help, shrinks⟩ := CMapPop_cases result
      have still : total t.map = present.length := (tracks.migrate help).count_eq
      have migrated := paced.weaken.migrate rep fits help
      cases found with
      | none =>
          obtain ⟨_, tracks'⟩ := miss rfl
          exact ⟨s', none, result, tracks', migrated.shrink shrinks (by rw [tracks'.count_eq, still])⟩
      | some node =>
          obtain ⟨_, _, tracks'⟩ := hit node rfl
          refine ⟨s', some node, result, tracks', migrated.shrink shrinks ?_⟩
          rw [tracks'.count_eq, still]
          exact List.erase_sublist.length_le

theorem Ran.paced {s : Store} {present : List Addr} (ran : Ran s present) :
    Tracks s present ∧ Paced 0 s.map := by
  induction ran with
  | empty nodes => exact ⟨Tracks.empty nodes, initMap_paced 0⟩
  | @call s s' present call answer _ allowed result ih =>
      obtain ⟨next, reply, run, tracks, paced⟩ := ih.1.paced_call ih.2 call allowed
      cases result.symm.trans run
      exact ⟨tracks, paced⟩

theorem TableRep.mask_power {nodes : Nodes} {table : CTable} {chains : List (List Addr)}
    (rep : TableRep nodes table chains) : ∃ k, table.mask = 2 ^ k - 1 := by
  rcases rep with ⟨rfl, _⟩ | ⟨slots, rep⟩
  · exact ⟨0, rfl⟩
  · obtain ⟨k, power⟩ := rep.power
    exact ⟨k, by omega⟩

/-- Progressive rehashing keeps up with growth. After every call the nodes of both tables
stay below the load limit of table1, and while a rehash is under way the load check that an
insertion leaves out would not ask for the next one. The masks are one less than a power of
two, and every call returns: no assertion of the map fails. -/
theorem load_below_limit {s : Store} {present : List Addr} (ran : Ran s present) :
    (s.map.table1.table.isSome = true → CMapSize s.map < MAX_LOAD_FACTOR * (s.map.table1.mask + 1)) ∧
    (s.map.table2.table.isSome = true → (CMapSize s.map + 1) / (s.map.table1.mask + 1) < MAX_LOAD_FACTOR) ∧
    (∃ k, s.map.table1.mask = 2 ^ k - 1) ∧ (∃ k, s.map.table2.mask = 2 ^ k - 1) ∧
    ∀ call : Call, call.Allowed present → (call.run s).isSome = true := by
  obtain ⟨tracks, paced⟩ := ran.paced
  have size : CMapSize s.map = total s.map := by rw [tracks.size_eq, tracks.count_eq]
  obtain ⟨_, newer, older, rep, _⟩ := id tracks
  refine ⟨?_, ?_, rep.table1.mask_power, rep.table2.mask_power, ?_⟩
  · intro array
    rw [size]
    exact paced.light array
  · intro array
    have before := paced.ahead array
    simp only [MAX_LOAD_FACTOR, RESIZING_WORK] at before ⊢
    rw [size, Nat.div_lt_iff_lt_mul (by omega)]
    omega
  · intro call allowed
    obtain ⟨s', answer, result, _⟩ := tracks.paced_call paced call allowed
    rw [result]; rfl

/-- In the middle of a rehash. -/
theorem load_below_limit_halfway : ∃ s, Ran s (List.range 256).reverse ∧ s.map.table2.size = 128 ∧
    CMapSize s.map < MAX_LOAD_FACTOR * 64 ∧ (CMapSize s.map + 1) / 64 < MAX_LOAD_FACTOR := by
  obtain ⟨s, after, reached⟩ := populated_reached (show 256 < 2 ^ 60 by decide)
  obtain ⟨mask, _, older, array1, array2⟩ := populated_halfway after
  obtain ⟨light, waiting, _⟩ := load_below_limit reached.ran
  rw [mask] at light waiting
  exact ⟨s, reached.ran, older, light array1, waiting array2⟩

/-! ### The migration step -/

/-- One call of `helpResizing`, seen through the chains of both tables. -/
structure MigrationStep (s s' : Store) (newer older newer' older' : List (List Addr)) (moved : List Addr) : Prop where
  runs : helpResizing s = some s'
  indexed : ∀ slots, s.map.table2.table = some slots → slots.length = s.map.table2.mask + 1
  before1 : Chains s.nodes s.map.table1 newer
  before2 : Chains s.nodes s.map.table2 older
  after1 : Chains s'.nodes s'.map.table1 newer'
  after2 : Chains s'.nodes s'.map.table2 older'
  distinct : (newer.flatten ++ older.flatten).Nodup
  same : (newer'.flatten ++ older'.flatten).Perm (newer.flatten ++ older.flatten)
  waiting : s.map.table2.size = older.flatten.length
  count : moved.length = min RESIZING_WORK s.map.table2.size
  left : older.flatten.Perm (moved ++ older'.flatten)
  joined : newer'.flatten.Perm (moved ++ newer.flatten)
  placed : ∀ node ∈ moved, ∃ chain : List Addr,
    newer'[(s.nodes node).code &&& s.map.table1.mask]? = some chain ∧ node ∈ chain
  released : s'.map.table2.table = none ↔ older'.flatten = []

theorem TableRep.placed {nodes : Nodes} {table : CTable} {chains : List (List Addr)} (rep : TableRep nodes table chains)
    {node : Addr} (member : node ∈ chains.flatten) :
    ∃ chain : List Addr, chains[(nodes node).code &&& table.mask]? = some chain ∧ node ∈ chain := by
  rcases rep with ⟨_, rfl⟩ | ⟨slots, rep⟩
  · simp at member
  · obtain ⟨i, chain, here, inside⟩ := slot_of_mem_flatten member
    exact ⟨chain, by rw [rep.placed i chain here node inside]; exact here, inside⟩

theorem MapRep.migrationStep {s : Store} {newer older : List (List Addr)} (rep : MapRep s newer older)
    (few : (newer.flatten ++ older.flatten).length < 2 ^ 60) :
    ∃ s' newer' older' moved, MigrationStep s s' newer older newer' older' moved := by
  obtain ⟨s', newer', older', moved, runs, migrated, relocated, size, released⟩ := helpResizing_rep rep few
  refine ⟨s', newer', older', moved, ?_⟩
  exact {
    runs := runs
    indexed := by
      intro slots array
      obtain ⟨slots', table⟩ := rep.table2.allocated (by rw [array]; rfl)
      cases array.symm.trans table.array
      exact table.width
    before1 := rep.table1.chains
    before2 := rep.table2.chains
    after1 := migrated.rep.table1.chains
    after2 := migrated.rep.table2.chains
    distinct := rep.distinct
    same := migrated.cells
    waiting := rep.table2.size_eq
    count := by
      have lost := relocated.1.length_eq
      rw [List.length_append, ← rep.table2.size_eq, ← migrated.rep.table2.size_eq] at lost
      omega
    left := relocated.1
    joined := relocated.2
    placed := by
      intro node member
      rw [← migrated.codes node, ← migrated.mask1]
      exact migrated.rep.table1.placed (relocated.2.mem_iff.mpr (List.mem_append_left _ member))
    released := by
      rw [released, migrated.rep.table2.size_eq]
      exact List.length_eq_zero_iff }

/-- The migration step of the map, in every state between two calls and in the state in
which an insertion makes it: it returns, stays inside table2, moves `RESIZING_WORK` nodes or
all that wait, each to the slot of its code in table1, and releases table2 once none is left. -/
theorem helpResizing_migrates {s : Store} {present : List Addr} (ran : Ran s present) :
    (∃ s' newer older newer' older' moved, MigrationStep s s' newer older newer' older' moved ∧
      (newer.flatten ++ older.flatten).Perm present) ∧
    ∀ node : Addr, (Call.insert node).Allowed present → ∃ t, loaded s node = some t ∧
      CMapInsert s node = helpResizing t ∧
      ∃ t' newer older newer' older' moved, MigrationStep t t' newer older newer' older' moved ∧
        (newer.flatten ++ older.flatten).Perm (node :: present) := by
  obtain ⟨⟨few, newer, older, rep, same⟩, _⟩ := ran.paced
  constructor
  · obtain ⟨s', newer', older', moved, step⟩ := rep.migrationStep (by rw [same.length_eq]; exact few)
    exact ⟨s', newer, older, newer', older', moved, step, same⟩
  · intro node allowed
    have room : (newer.flatten ++ older.flatten).length + 1 < 2 ^ 60 := by rw [same.length_eq]; exact allowed.2
    obtain ⟨t, newer₁, older₁, load, rep₁, grown, _⟩ :=
      loaded_rep rep (fun member => allowed.1 (same.mem_iff.mp member)) room
    obtain ⟨t', newer', older', moved, step⟩ := rep₁.migrationStep (by rw [grown.length_eq]; exact room)
    refine ⟨t, load, ?_, t', newer₁, older₁, newer', older', moved, step, grown.trans (same.cons node)⟩
    rw [CMapInsert_eq, load, Option.bind_some]

/-- The 256th insertion finds 256 nodes in front of the migration. Half of them move, and the others keep table2. -/
theorem helpResizing_migrates_half :
    ∃ s t t' newer older newer' older' moved, Ran s (List.range 255).reverse ∧ loaded s 255 = some t ∧
      CMapInsert s 255 = helpResizing t ∧ MigrationStep t t' newer older newer' older' moved ∧
      (newer.flatten ++ older.flatten).Perm (List.range 256).reverse ∧
      moved.length = RESIZING_WORK ∧ t'.map.table2.size = RESIZING_WORK ∧ older'.flatten ≠ [] := by
  obtain ⟨s, before, reached⟩ := populated_reached (show 255 < 2 ^ 60 by decide)
  have allowed := (insert_next_legal s.nodes (show 255 + 1 < 2 ^ 60 by decide)).allowed
  obtain ⟨t, load, insertion, t', newer, older, newer', older', moved, step, same⟩ :=
    (helpResizing_migrates reached.ran).2 255 allowed
  have after : populated 256 = some t' := by
    rw [populated, before]
    exact insertion.trans step.runs
  obtain ⟨_, _, left, _, array⟩ := populated_halfway after
  have waits : older'.flatten ≠ [] := fun none => by simp [step.released.mpr none] at array
  refine ⟨s, t, t', newer, older, newer', older', moved, reached.ran, load, insertion, step, ?_, ?_, left, waits⟩
  · rwa [List.range_succ, List.reverse_append]
  · have counted := step.left.length_eq
    rw [List.length_append, ← step.waiting] at counted
    have some := List.length_pos_iff.mpr waits
    have moves := step.count
    omega

end Coxx.Map
