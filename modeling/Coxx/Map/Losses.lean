import Coxx.Map.Ownership
import Mathlib.Data.List.TakeWhile

/-! Which nodes the map of map.cxx loses, and when it counts wrong.

A search hands its match out with the rest of the chain behind it. A look-up keeps the
size as it was; a removal takes one off it and destroys the rest of the chain.
-/

set_option autoImplicit false

namespace Coxx.CxxMap

open Library

/-! ### Insertion -/

section Insertion

variable {map : Map}

theorem firstTable_allocated (whole : map.Whole) :
    ∃ first, firstTable map.table1 = some first ∧ first.Allocated ∧
      first.table.flatten = map.table1.table.flatten := by
  by_cases empty : map.table1.table.isEmpty = true
  · have released := whole.table1.released empty
    obtain ⟨fresh, made, allocated, _, nothing⟩ :=
      @initializeTable_allocated map.table1 4 2 rfl (by omega) (by rw [released])
    refine ⟨fresh, by rw [firstTable, if_pos empty, made], allocated, ?_⟩
    rw [nothing, released]
    rfl
  · exact ⟨map.table1, by rw [firstTable, if_neg empty], whole.table1.allocated (by simpa using empty), rfl⟩

theorem startResizing_whole (whole : map.Whole) (allocated : map.table1.Allocated) (idle : map.table2.table.isEmpty = true)
    (heavy : MAX_LOAD_FACTOR * (map.table1.mask + 1) ≤ map.table1.size) :
    ∃ map', startResizing map = some map' ∧ map'.Whole ∧ map'.nodes.Perm map.nodes := by
  have few := whole.few
  rw [← whole.count] at few
  have room : (map.table1.mask + 1) * 2 ≤ 2 ^ 62 := by rw [MAX_LOAD_FACTOR] at heavy; omega
  obtain ⟨k, power⟩ := allocated.power
  obtain ⟨fresh, made, ready, _, nothing⟩ :=
    @initializeTable_allocated { map.table1 with table := [] } ((map.table1.mask + 1) * 2) (k + 1)
      (by rw [power, Nat.pow_succ]) room rfl
  have released := whole.table2.released idle
  refine ⟨{ table1 := fresh, table2 := map.table1, resizingPosition := 0 }, ?_, ?_⟩
  · have noWrap : (map.table1.mask + 1) * 2 % 2 ^ 64 = (map.table1.mask + 1) * 2 := by omega
    simp only [startResizing, idle, noWrap, made, Option.bind_eq_bind, Option.bind_some, Bool.true_eq_false, if_false]
  · have kept : (fresh.table.flatten ++ map.table1.table.flatten).Perm map.nodes := by
      simp [Map.nodes, nothing, released]
    refine ⟨whole.rearrange (Or.inr ready) (Or.inr allocated) ?_ kept (by simp), kept⟩
    intro empty
    simp [ready.nonempty] at empty

theorem checkLoad_whole (whole : map.Whole) (allocated : map.table1.Allocated) :
    ∃ map', checkLoad map = some map' ∧ map'.Whole ∧ map'.nodes.Perm map.nodes := by
  by_cases idle : map.table2.table.isEmpty = true
  · have slots : (map.table1.mask + 1) % 2 ^ 64 = map.table1.mask + 1 := by
      have := allocated.narrow
      omega
    by_cases heavy : MAX_LOAD_FACTOR ≤ map.table1.size / (map.table1.mask + 1)
    · simp only [checkLoad, if_pos idle, slots, if_pos heavy]
      exact startResizing_whole whole allocated idle ((Nat.le_div_iff_mul_le (Nat.succ_pos _)).mp heavy)
    · exact ⟨map, by simp only [checkLoad, if_pos idle, slots, if_neg heavy], whole, List.Perm.refl _⟩
  · exact ⟨map, by rw [checkLoad, if_neg idle], whole, List.Perm.refl _⟩

theorem mapInsert_whole {node : Node} (whole : map.Whole) (next : Owned) (own : node.address ∉ map.nodes.map (·.address))
    (addressed : 0 < node.address ∧ node.address < 2 ^ 64) :
    ∃ map', mapInsert map (node :: next) = some map' ∧ map'.Whole ∧ map'.nodes.Perm (node :: map.nodes) := by
  obtain ⟨first, made, allocated, same⟩ := firstTable_allocated whole
  have distinct : ((node :: map.nodes).map (·.address)).Nodup := by
    rw [List.map_cons, List.nodup_cons]
    exact ⟨own, whole.distinct⟩
  have bounded : ∀ other ∈ node :: map.nodes, 0 < other.address ∧ other.address < 2 ^ 64 := by
    intro other member
    rcases List.mem_cons.mp member with rfl | member
    · exact addressed
    · exact whole.addressed other member
  have few := addressed_few distinct bounded
  have room : first.size + 1 < 2 ^ 64 := by
    rw [List.length_cons, Map.nodes, List.length_append] at few
    rw [allocated.size, same]
    omega
  have grown : ((first.push node).table.flatten ++ map.table2.table.flatten).Perm (node :: map.nodes) := by
    rw [Map.nodes, ← same]
    exact (allocated.push_perm node).append_right _
  have loaded : Map.Whole { map with table1 := first.push node } := {
    table1 := Or.inr (allocated.push node)
    table2 := whole.table2
    ready := by
      intro empty
      simp [(allocated.push node).nonempty] at empty
    distinct := (grown.map _).nodup_iff.mpr distinct
    addressed := fun other member => bounded other (grown.mem_iff.mp member)
    drained := whole.drained }
  obtain ⟨checked, check, ready, kept⟩ := checkLoad_whole loaded (allocated.push node)
  obtain ⟨map', help, settled⟩ := helpResizing_settled ready
  refine ⟨map', ?_, settled.whole, settled.kept.trans (kept.trans grown)⟩
  simp only [mapInsert, made, insert_push allocated node next room, check, Option.bind_eq_bind, Option.bind_some]
  exact help

end Insertion

/-! ### Searches -/

/-- The first match of a chain and all that it owns. -/
def fromMatch (code : Nat) (equal : Node → Bool) (chain : Owned) : Owned :=
  chain.dropWhile fun node => ¬ Matches code equal node

def beforeMatch (code : Nat) (equal : Node → Bool) (chain : Owned) : Owned :=
  chain.takeWhile fun node => ¬ Matches code equal node

section Search

variable (code : Nat) (equal : Node → Bool)

theorem walk_eq (chain : Owned) : walk code equal chain = (beforeMatch code equal chain, fromMatch code equal chain) := by
  induction chain with
  | nil => rfl
  | cons node next ih =>
      by_cases found : node.code = code ∧ equal node = true
      · have matched : Matches code equal node := found
        simp [walk, beforeMatch, fromMatch, found, matched]
      · have missed : ¬ Matches code equal node := found
        rw [walk, if_neg found, ih]
        simp [beforeMatch, fromMatch, missed]

theorem lookUp_eq {table : Table} (whole : table.Whole) :
    lookUp table code equal =
      some ({ table with table := table.table.set (code &&& table.mask) (beforeMatch code equal (table.chain code)) },
        fromMatch code equal (table.chain code)) := by
  rcases whole with rfl | allocated
  · rfl
  · rw [lookUp, if_neg (by simp [allocated.nonempty])]
    simp only [allocated.slot code, walk_eq, Option.bind_eq_bind, Option.bind_some]

theorem fromMatch_nil {chain : Owned} (nothing : fromMatch code equal chain = []) :
    beforeMatch code equal chain = chain ∧ ∀ node ∈ chain, ¬ Matches code equal node := by
  have none := List.dropWhile_eq_nil_iff.mp nothing
  refine ⟨List.takeWhile_eq_self_iff.mpr none, ?_⟩
  intro node member
  simpa using none node member

theorem fromMatch_cons {chain next : Owned} {node : Node} (found : fromMatch code equal chain = node :: next) :
    chain = beforeMatch code equal chain ++ node :: next ∧ Matches code equal node := by
  constructor
  · rw [← found]
    exact (List.takeWhile_append_dropWhile).symm
  · have nonempty : fromMatch code equal chain ≠ [] := by rw [found]; exact List.cons_ne_nil _ _
    have head : decide (¬ Matches code equal ((fromMatch code equal chain).head nonempty)) = false :=
      List.head_dropWhile_not _ nonempty
    have same : (fromMatch code equal chain).head nonempty = node := by simp [found]
    rw [same] at head
    simpa using head

/-- The list that a search moves out of a map, after its migration step. -/
inductive Search (map : Map) : Owned → Prop where
  | missing : lookUp map.table1 code equal = some (map.table1, []) → lookUp map.table2 code equal = some (map.table2, []) →
      (∀ node ∈ map.nodes, ¬ Matches code equal node) → Search map []
  | newer {i : Nat} {front next : Owned} {node : Node} : map.table1.Allocated →
      map.table1.table[i]? = some (front ++ node :: next) → Matches code equal node →
      lookUp map.table1 code equal = some ({ map.table1 with table := map.table1.table.set i front }, node :: next) →
      Search map (node :: next)
  | older {i : Nat} {front next : Owned} {node : Node} : map.table2.Allocated →
      map.table2.table[i]? = some (front ++ node :: next) → Matches code equal node →
      lookUp map.table1 code equal = some (map.table1, []) →
      lookUp map.table2 code equal = some ({ map.table2 with table := map.table2.table.set i front }, node :: next) →
      Search map (node :: next)

variable {code equal}

theorem lookUp_missing {table : Table} (whole : table.Whole) (nothing : fromMatch code equal (table.chain code) = []) :
    lookUp table code equal = some (table, []) ∧ ∀ node ∈ table.table.flatten, ¬ Matches code equal node := by
  obtain ⟨same, none⟩ := fromMatch_nil code equal nothing
  rcases whole with released | allocated
  · rw [released]
    exact ⟨rfl, by simp⟩
  · have slot := allocated.slot code
    constructor
    · have kept : table.table.set (code &&& table.mask) (table.chain code) = table.table := by
        obtain ⟨inside, here⟩ := List.getElem?_eq_some_iff.mp slot
        rw [← here, List.set_getElem_self]
      rw [lookUp_eq code equal (Or.inr allocated), nothing, same, kept]
    · -- a match would have the key's code, so it would lie in the slot searched
      intro node member matched
      obtain ⟨i, chain, here, inChain⟩ := slot_of_mem_flatten member
      have place := allocated.placed i chain here node inChain
      rw [matched.1] at place
      subst place
      cases slot.symm.trans here
      exact none node inChain matched

theorem lookUp_found {table : Table} {node : Node} {next : Owned} (whole : table.Whole)
    (found : fromMatch code equal (table.chain code) = node :: next) :
    table.Allocated ∧ ∃ i front, table.table[i]? = some (front ++ node :: next) ∧ Matches code equal node ∧
      lookUp table code equal = some ({ table with table := table.table.set i front }, node :: next) := by
  obtain ⟨split, matched⟩ := fromMatch_cons code equal found
  rcases whole with released | allocated
  · rw [released] at found
    exact absurd found (List.cons_ne_nil _ _).symm
  · refine ⟨allocated, code &&& table.mask, beforeMatch code equal (table.chain code), ?_, matched, ?_⟩
    · rw [← split]
      exact allocated.slot code
    · rw [lookUp_eq code equal (Or.inr allocated), found]

end Search

/-- The list that a search after the migration step moves out of the map. -/
def Map.matched (map : Map) (code : Nat) (equal : Node → Bool) : Owned :=
  match fromMatch code equal (map.newChain code) with
  | [] => fromMatch code equal (map.oldChain code)
  | node :: next => node :: next

section Calls

variable {map settled : Map} {code : Nat} {equal : Node → Bool} {found : Owned}

theorem Settled.search (step : Settled map settled) : Search code equal settled (map.matched code equal) := by
  have whole := step.whole
  rw [Map.matched, ← step.newer, ← step.older]
  cases first : fromMatch code equal (settled.table1.chain code) with
  | cons node next =>
      obtain ⟨allocated, i, front, here, matched, result⟩ := lookUp_found whole.table1 first
      exact .newer allocated here matched result
  | nil =>
      obtain ⟨result1, none1⟩ := lookUp_missing whole.table1 first
      cases second : fromMatch code equal (settled.table2.chain code) with
      | cons node next =>
          obtain ⟨allocated, i, front, here, matched, result⟩ := lookUp_found whole.table2 second
          exact .older allocated here matched result1 result
      | nil =>
          obtain ⟨result2, none2⟩ := lookUp_missing whole.table2 second
          refine .missing result1 result2 fun node member => ?_
          rcases List.mem_append.mp member with newer | older
          · exact none1 node newer
          · exact none2 node older

theorem Search.cases (search : Search code equal settled found) :
    (found = [] ∧ ∀ node ∈ settled.nodes, ¬ Matches code equal node) ∨
      ∃ node next, found = node :: next ∧ node ∈ settled.nodes ∧ Matches code equal node := by
  cases search with
  | missing _ _ none => exact Or.inl ⟨rfl, none⟩
  | newer _ here matched _ =>
      exact Or.inr ⟨_, _, rfl, List.mem_append_left _ (mem_flatten_of_slot here (by simp)), matched⟩
  | older _ here matched _ _ =>
      exact Or.inr ⟨_, _, rfl, List.mem_append_right _ (mem_flatten_of_slot here (by simp)), matched⟩

theorem Search.mapLookUp (help : helpResizing map = some settled) (search : Search code equal settled found) :
    ∃ map', mapLookUp map code equal = some (map', found) ∧ mapSize map' = mapSize settled ∧
      (found = [] → map' = settled) := by
  cases search with
  | missing result1 result2 _ =>
      exact ⟨settled, by simp [CxxMap.mapLookUp, help, result1, result2], rfl, fun _ => rfl⟩
  | @newer i front next node _ _ _ result =>
      refine ⟨{ settled with table1 := { settled.table1 with table := settled.table1.table.set i front } }, ?_, rfl, by simp⟩
      simp [CxxMap.mapLookUp, help, result]
  | @older i front next node _ _ _ result1 result2 =>
      refine ⟨{ settled with table2 := { settled.table2 with table := settled.table2.table.set i front } }, ?_, rfl, by simp⟩
      simp [CxxMap.mapLookUp, help, result1, result2]

theorem Search.mapPop (help : helpResizing map = some settled) (whole : settled.Whole)
    (search : Search code equal settled found) :
    ∃ map', mapPop map code equal = some (map', found.take 1) ∧ settled.nodes.Perm (found ++ map'.nodes) ∧
      (found.length ≤ 1 → map'.Whole) := by
  cases search with
  | missing result1 result2 _ =>
      exact ⟨settled, by simp [CxxMap.mapPop, help, result1, result2], List.Perm.refl _, fun _ => whole⟩
  | @newer i front next node allocated here _ result =>
      have shrunk := cut_size allocated here (List.mem_append_right front List.mem_cons_self) whole.sizes.1
      have kept : settled.nodes.Perm
          (node :: next ++ ((settled.table1.table.set i front).flatten ++ settled.table2.table.flatten)) := by
        rw [Map.nodes, ← List.append_assoc]
        exact (flatten_part_perm here List.perm_append_comm).append_right _
      refine ⟨{ settled with table1 := settled.table1.cut i front }, ?_, kept, ?_⟩
      · simpa [CxxMap.mapPop, help, result, detach, Table.cut] using shrunk
      · intro single
        have last : next = [] := by simpa using single
        subst last
        have cut : (settled.table1.cut i front).Allocated := by simpa using allocated.cut here
        exact whole.shrink (Or.inr cut) whole.table2 (fun empty => by simp [cut.nonempty] at empty) kept whole.drained
  | @older i front next node allocated here _ result1 result2 =>
      have shrunk := cut_size allocated here (List.mem_append_right front List.mem_cons_self) whole.sizes.2
      have kept : settled.nodes.Perm
          (node :: next ++ (settled.table1.table.flatten ++ (settled.table2.table.set i front).flatten)) :=
        calc settled.nodes.Perm (settled.table1.table.flatten ++ (node :: next ++ (settled.table2.table.set i front).flatten)) :=
              (flatten_part_perm here List.perm_append_comm).append_left _
          List.Perm _ _ := List.perm_append_comm_assoc _ _ _
      refine ⟨{ settled with table2 := settled.table2.cut i front }, ?_, kept, ?_⟩
      · simpa [CxxMap.mapPop, help, result1, result2, detach, Table.cut] using shrunk
      · intro single
        have last : next = [] := by simpa using single
        subst last
        have cut : (settled.table2.cut i front).Allocated := by simpa using allocated.cut here
        refine whole.shrink whole.table1 (Or.inr cut) ?_ kept ?_
        · intro empty
          have idle := whole.ready empty
          simp [idle] at here
        · intro j before chain there
          have away : i ≠ j := by
            rintro rfl
            simpa using whole.drained i before _ here
          rw [Table.cut, List.getElem?_set_ne away] at there
          exact whole.drained j before chain there

end Calls

/-! ### Runs -/

/-- What a client may count on in a state: the map owns the nodes that were put in and not
handed out, no more and no fewer, and each of them can be found and popped. -/
structure Exact (map : Map) (present : List Node) : Prop where
  kept : map.nodes.Perm present
  size : mapSize map = present.length
  found : ∀ node ∈ present, ∀ (code : Nat) (equal : Node → Bool),
    (∀ other ∈ present, Matches code equal other ↔ other = node) →
      ∃ map' next, mapLookUp map code equal = some (map', node :: next)
  popped : ∀ node ∈ present, ∀ (code : Nat) (equal : Node → Bool),
    (∀ other ∈ present, Matches code equal other ↔ other = node) → ∃ map', mapPop map code equal = some (map', [node])

/-- A search takes the single matching node at most. -/
def Call.Takes (present : List Node) (answer : Owned) : Call → Prop
  | .insert _ _ => answer = []
  | .lookUp code equal | .pop code equal =>
    answer = [] ∨ ∃ node ∈ present, Matches code equal node ∧ answer = [node]

/-- A call returns, takes no more than it should, and leaves the map exact. -/
def Call.Sound (map : Map) (present : List Node) (call : Call) : Prop :=
  ∃ map' answer, call.run map = some (map', answer) ∧ call.Takes present answer ∧ Exact map' (call.present present answer)

/-- A look-up must miss, and a removal may hit the last node of a chain only. -/
def Call.Harmless (map : Map) : Call → Prop
  | .insert _ _ => True
  | .lookUp code equal => ∀ node ∈ map.nodes, ¬ Matches code equal node
  | .pop code equal => (map.matched code equal).length ≤ 1

instance (map : Map) (call : Call) : Decidable (call.Harmless map) :=
  match call with
  | .insert _ _ => inferInstanceAs (Decidable True)
  | .lookUp code equal => inferInstanceAs (Decidable (∀ node ∈ map.nodes, ¬ Matches code equal node))
  | .pop code equal => inferInstanceAs (Decidable ((map.matched code equal).length ≤ 1))

def Tracks (map : Map) (present : List Node) : Prop := map.Whole ∧ map.nodes.Perm present

section Runs

variable {map : Map} {present : List Node}

theorem Tracks.search (tracks : Tracks map present) (code : Nat) (equal : Node → Bool) :
    ∃ settled, helpResizing map = some settled ∧ Tracks settled present ∧
      Search code equal settled (map.matched code equal) := by
  obtain ⟨settled, help, step⟩ := helpResizing_settled tracks.1
  exact ⟨settled, help, ⟨step.whole, step.kept.trans tracks.2⟩, step.search⟩

theorem Tracks.size_eq (tracks : Tracks map present) : mapSize map = present.length := by
  rw [tracks.1.size_eq, tracks.2.length_eq]

theorem Tracks.single {node : Node} {code : Nat} {equal : Node → Bool} (tracks : Tracks map present)
    (member : node ∈ present) (single : ∀ other ∈ present, Matches code equal other ↔ other = node) :
    ∃ next, map.matched code equal = node :: next := by
  obtain ⟨settled, help, after, search⟩ := tracks.search code equal
  rcases search.cases with ⟨_, none⟩ | ⟨first, next, same, inside, matched⟩
  · exact absurd ((single node member).mpr rfl) (none node (after.2.mem_iff.mpr member))
  · rw [(single first (after.2.mem_iff.mp inside)).mp matched] at same
    exact ⟨next, same⟩

theorem Tracks.exact (tracks : Tracks map present) : Exact map present where
  kept := tracks.2
  size := tracks.size_eq
  found node member code equal single := by
    obtain ⟨next, same⟩ := tracks.single member single
    obtain ⟨settled, help, _, search⟩ := tracks.search code equal
    obtain ⟨map', result, _⟩ := search.mapLookUp help
    exact ⟨map', next, by rw [result, same]⟩
  popped node member code equal single := by
    obtain ⟨next, same⟩ := tracks.single member single
    obtain ⟨settled, help, after, search⟩ := tracks.search code equal
    obtain ⟨map', result, _⟩ := search.mapPop help after.1
    exact ⟨map', by rw [result, same]; rfl⟩

theorem Tracks.call (tracks : Tracks map present) (call : Call) (allowed : call.Allowed present)
    (harmless : call.Harmless map) :
    ∃ map' answer, call.run map = some (map', answer) ∧ call.Takes present answer ∧
      Tracks map' (call.present present answer) := by
  cases call with
  | insert node next =>
      have own : node.address ∉ map.nodes.map (·.address) := fun member =>
        allowed.1 ((tracks.2.map (·.address)).mem_iff.mp member)
      obtain ⟨map', result, whole, kept⟩ := mapInsert_whole tracks.1 next own allowed.2
      exact ⟨map', [], by simp [Call.run, result], rfl, whole, kept.trans (tracks.2.cons node)⟩
  | lookUp code equal =>
      obtain ⟨settled, help, after, search⟩ := tracks.search code equal
      obtain ⟨map', result, _, same⟩ := search.mapLookUp help
      rcases search.cases with ⟨nothing, _⟩ | ⟨node, next, _, inside, matched⟩
      · rw [nothing] at result same
        rw [same rfl] at result
        exact ⟨settled, [], result, Or.inl rfl, after⟩
      · exact absurd matched (harmless node (tracks.2.mem_iff.mpr (after.2.mem_iff.mp inside)))
  | pop code equal =>
      obtain ⟨settled, help, after, search⟩ := tracks.search code equal
      obtain ⟨map', result, kept, whole⟩ := search.mapPop help after.1
      refine ⟨map', _, result, ?_, whole harmless, ?_⟩
      · rcases search.cases with ⟨nothing, _⟩ | ⟨node, next, same, inside, matched⟩
        · exact Or.inl (by rw [nothing]; rfl)
        · exact Or.inr ⟨node, after.2.mem_iff.mp inside, matched, by rw [same]; rfl⟩
      · rcases search.cases with ⟨nothing, _⟩ | ⟨node, next, same, inside, matched⟩
        · rw [nothing] at kept ⊢
          exact kept.symm.trans after.2
        · have last : next = [] := by
            have few : (map.matched code equal).length ≤ 1 := harmless
            simpa [same] using few
          rw [same, last] at kept ⊢
          have there : (node :: map'.nodes).Perm present := kept.symm.trans after.2
          simpa [Call.present] using there.erase node

theorem Tracks.harmful (tracks : Tracks map present) (call : Call) (sound : call.Sound map present) : call.Harmless map := by
  obtain ⟨map', answer, result, takes, exact⟩ := sound
  cases call with
  | insert node next => trivial
  | lookUp code equal =>
      obtain ⟨settled, help, after, search⟩ := tracks.search code equal
      obtain ⟨other, result', size, _⟩ := search.mapLookUp help
      cases result.symm.trans result'
      rcases search.cases with ⟨_, none⟩ | ⟨node, next, same, inside, matched⟩
      · exact fun node member => none node (after.2.mem_iff.mpr (tracks.2.mem_iff.mp member))
      · -- the node is out of the map, and the size still counts it
        have counted := exact.size
        rw [size, after.size_eq, same] at counted
        have member := after.2.mem_iff.mp inside
        have shorter := List.length_erase_add_one member
        simp only [Call.present] at counted
        omega
  | pop code equal =>
      obtain ⟨settled, help, after, search⟩ := tracks.search code equal
      obtain ⟨other, result', kept, _⟩ := search.mapPop help after.1
      cases result.symm.trans result'
      rcases search.cases with ⟨nothing, _⟩ | ⟨node, next, same, inside, matched⟩
      · show (map.matched code equal).length ≤ 1
        simp [nothing]
      · -- what was behind the match is in nobody's hands
        have remaining := exact.kept.length_eq
        rw [same] at remaining kept
        have member := after.2.mem_iff.mp inside
        have shorter := List.length_erase_add_one member
        have total := (kept.symm.trans after.2).length_eq
        simp only [Call.present, List.take_succ_cons] at remaining
        rw [List.length_append] at total
        show (map.matched code equal).length ≤ 1
        rw [same]
        omega

theorem Ran.tracks (ran : Ran (fun map call => call.Harmless map) map present) : Tracks map present := by
  induction ran with
  | empty => exact ⟨empty_whole, List.Perm.refl _⟩
  | call _ allowed harmless result ih =>
      obtain ⟨map', answer, result', _, tracks⟩ := ih.call _ allowed harmless
      cases result.symm.trans result'
      exact tracks

/-- The map is exact in every state of a run without harmful calls, and the harmful calls
are those that would make it inexact. -/
theorem exact_iff_harmless (ran : Ran (fun map call => call.Harmless map) map present) :
    Exact map present ∧ ∀ call : Call, call.Allowed present → (call.Sound map present ↔ call.Harmless map) := by
  refine ⟨ran.tracks.exact, fun call allowed => ⟨ran.tracks.harmful call, fun harmless => ?_⟩⟩
  obtain ⟨map', answer, result, takes, tracks⟩ := ran.tracks.call call allowed harmless
  exact ⟨map', answer, result, takes, tracks.exact⟩

end Runs

/-- Two of three nodes share a slot. The map survives the removal of the earlier one, and not that of the later one. -/
theorem exact_iff_harmless_shared :
    ∃ map, Ran (fun map call => call.Harmless map) map [⟨48, 1⟩, ⟨32, 4⟩, ⟨16, 0⟩] ∧
      Exact map [⟨48, 1⟩, ⟨32, 4⟩, ⟨16, 0⟩] ∧
      (Call.pop 0 fun _ => true).Sound map [⟨48, 1⟩, ⟨32, 4⟩, ⟨16, 0⟩] ∧
      ¬(Call.pop 4 fun _ => true).Sound map [⟨48, 1⟩, ⟨32, 4⟩, ⟨16, 0⟩] := by
  have first : Ran (fun map call => call.Harmless map) _ [⟨16, 0⟩] :=
    @Ran.call _ _ _ [] (.insert ⟨16, 0⟩ []) [] .empty ⟨by simp, by decide, by decide⟩ trivial rfl
  have second : Ran (fun map call => call.Harmless map) _ [⟨32, 4⟩, ⟨16, 0⟩] :=
    @Ran.call _ _ _ _ (.insert ⟨32, 4⟩ []) [] first ⟨by simp, by decide, by decide⟩ trivial rfl
  have third : Ran (fun map call => call.Harmless map)
      { table1 := { table := [[⟨32, 4⟩, ⟨16, 0⟩], [⟨48, 1⟩], [], []], mask := 3, size := 3 } }
      [⟨48, 1⟩, ⟨32, 4⟩, ⟨16, 0⟩] :=
    @Ran.call _ _ _ _ (.insert ⟨48, 1⟩ []) [] second ⟨by simp, by decide, by decide⟩ trivial rfl
  obtain ⟨exact, calls⟩ := exact_iff_harmless third
  refine ⟨_, third, exact, (calls (.pop 0 fun _ => true) trivial).mpr (by decide), fun sound => ?_⟩
  exact absurd ((calls (.pop 4 fun _ => true) trivial).mp sound) (by decide)

/-- Two nodes share a slot; removing the later one destroys the earlier one. -/
theorem pop_loses : ¬ ∀ (map : Map) (present : List Node), Ran (fun _ _ => True) map present → Exact map present := by
  intro exact
  have first : Ran (fun _ _ => True) _ [⟨16, 0⟩] :=
    @Ran.call _ _ _ [] (.insert ⟨16, 0⟩ []) [] .empty ⟨by simp, by decide, by decide⟩ trivial rfl
  have second : Ran (fun _ _ => True) _ [⟨32, 4⟩, ⟨16, 0⟩] :=
    @Ran.call _ _ _ _ (.insert ⟨32, 4⟩ []) [] first ⟨by simp, by decide, by decide⟩ trivial rfl
  have third : Ran (fun _ _ => True) { table1 := { table := [[], [], [], []], mask := 3, size := 1 } } [⟨16, 0⟩] :=
    @Ran.call _ _ _ _ (.pop 4 fun _ => true) [⟨32, 4⟩] second trivial trivial rfl
  have lost := (exact _ _ third).kept
  simp [Map.nodes] at lost

end Coxx.CxxMap
