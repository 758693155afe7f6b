import Coxx.Library.Chain
import Coxx.Map.CxxMap
import Mathlib.Data.Finset.Card
import Mathlib.Order.Interval.Finset.Nat

/-! What a well-formed map of map.cxx looks like, and what each operation does to one.

Chains are lists here, so no heap comes between a table and the nodes in it.
-/

set_option autoImplicit false

namespace Coxx.CxxMap

open Library

/-- A table with slots: as many as the mask can select, and a node lies in the slot of its code. -/
structure Table.Allocated (table : Table) : Prop where
  width : table.table.length = table.mask + 1
  power : ∃ k, table.mask + 1 = 2 ^ k
  narrow : table.mask + 1 ≤ 2 ^ 62
  size : table.size = table.table.flatten.length
  placed : ∀ (i : Nat) (chain : Owned), table.table[i]? = some chain → ∀ node ∈ chain, node.code &&& table.mask = i

def Table.Whole (table : Table) : Prop := table = {} ∨ table.Allocated

def Table.chain (table : Table) (code : Nat) : Owned := (table.table[code &&& table.mask]?).getD []

section Table

variable {table : Table} {i : Nat}

theorem Table.Whole.size_eq (whole : table.Whole) : table.size = table.table.flatten.length := by
  rcases whole with rfl | allocated
  · rfl
  · exact allocated.size

theorem Table.Whole.flatten_nil (whole : table.Whole) (empty : table.size = 0) : table.table.flatten = [] := by
  apply List.eq_nil_of_length_eq_zero
  rw [← whole.size_eq, empty]

theorem Table.Allocated.nonempty (allocated : table.Allocated) : table.table.isEmpty = false := by
  have := allocated.width
  rw [List.isEmpty_eq_false_iff, ← List.length_pos_iff]
  omega

theorem Table.Whole.allocated (whole : table.Whole) (nonempty : table.table.isEmpty = false) : table.Allocated := by
  rcases whole with rfl | allocated
  · simp at nonempty
  · exact allocated

theorem Table.Whole.released (whole : table.Whole) (empty : table.table.isEmpty = true) : table = {} := by
  rcases whole with same | allocated
  · exact same
  · rw [allocated.nonempty] at empty; exact Bool.noConfusion empty

theorem Table.Allocated.slot (allocated : table.Allocated) (code : Nat) :
    table.table[code &&& table.mask]? = some (table.chain code) := by
  have inside : code &&& table.mask < table.table.length := by
    have below : code &&& table.mask ≤ table.mask := Nat.and_le_right
    rw [allocated.width]
    omega
  simp [Table.chain, inside]

theorem Table.Allocated.replace {before after : Owned} {size : Nat} (allocated : table.Allocated)
    (here : table.table[i]? = some before) (belongs : ∀ node ∈ after, node.code &&& table.mask = i)
    (exactly : size = (table.table.set i after).flatten.length) :
    Table.Allocated { table with table := table.table.set i after, size := size } where
  width := by simpa using allocated.width
  power := allocated.power
  narrow := allocated.narrow
  size := exactly
  placed j chain there node member := by
    by_cases same : i = j
    · subst same
      rw [List.getElem?_set_self (List.getElem?_eq_some_iff.mp here).1] at there
      cases there
      exact belongs node member
    · rw [List.getElem?_set_ne same] at there
      exact allocated.placed j chain there node member

theorem initializeTable_allocated {n k : Nat} (power : n = 2 ^ k) (narrow : n ≤ 2 ^ 62) (idle : table.table = []) :
    ∃ fresh, initializeTable table n = some fresh ∧ fresh.Allocated ∧ fresh.mask = n - 1 ∧ fresh.table.flatten = [] := by
  have positive : 0 < n := by rw [power]; exact Nat.two_pow_pos k
  have mask : n - 1 + 1 = n := by omega
  have single : (n - 1) &&& n = 0 := by rw [Nat.and_comm, power, Nat.and_two_pow_sub_one_eq_mod, Nat.mod_self]
  refine ⟨_, if_pos ⟨positive, single⟩, ?_, rfl, by simp [idle]⟩
  exact {
    width := by simp [idle, mask]
    power := ⟨k, mask.trans power⟩
    narrow := by rw [mask]; exact narrow
    size := by simp [idle]
    placed := by
      intro i chain here node member
      have nothing : chain = [] := List.eq_of_mem_replicate (by simpa [idle] using List.mem_of_getElem? here)
      simp [nothing] at member }

def Table.push (table : Table) (node : Node) : Table :=
  { table with table := table.table.set (node.code &&& table.mask) (node :: table.chain node.code), size := table.size + 1 }

theorem Table.Allocated.push_perm (allocated : table.Allocated) (node : Node) :
    (table.push node).table.flatten.Perm (node :: table.table.flatten) :=
  flatten_set_perm (allocated.slot node.code) (List.Perm.refl _)

theorem Table.Allocated.push (allocated : table.Allocated) (node : Node) : (table.push node).Allocated := by
  refine allocated.replace (allocated.slot node.code) ?_ ?_
  · intro other member
    rcases List.mem_cons.mp member with rfl | member
    · rfl
    · exact allocated.placed _ _ (allocated.slot node.code) other member
  · rw [(flatten_set_perm (allocated.slot node.code) (List.Perm.refl _)).length_eq, List.length_cons, allocated.size]

theorem insert_push (allocated : table.Allocated) (node : Node) (next : Owned) (room : table.size + 1 < 2 ^ 64) :
    insert table (node :: next) = some (table.push node) := by
  simp only [insert, allocated.slot, Option.bind_eq_bind, Option.bind_some, Table.push, Nat.mod_eq_of_lt room]

theorem Table.push_slot (allocated : table.Allocated) (node : Node) (i : Nat) :
    (table.push node).table[i]? =
      table.table[i]?.map fun chain => if node.code &&& table.mask = i then node :: chain else chain := by
  simp only [Table.push]
  by_cases same : node.code &&& table.mask = i
  · subst same
    rw [List.getElem?_set_self (List.getElem?_eq_some_iff.mp (allocated.slot node.code)).1, allocated.slot node.code]
    simp
  · rw [List.getElem?_set_ne same]
    simp [same]

/-- The table after a node of slot `i` has left it, with the chain that remains there. -/
def Table.cut (table : Table) (i : Nat) (remaining : Owned) : Table :=
  { table with table := table.table.set i remaining, size := table.size - 1 }

theorem Table.Allocated.cut {front rest : Owned} {node : Node} (allocated : table.Allocated)
    (here : table.table[i]? = some (front ++ node :: rest)) :
    (table.cut i (front ++ rest)).Allocated := by
  refine allocated.replace here ?_ ?_
  · intro other member
    refine allocated.placed i _ here other ?_
    rcases List.mem_append.mp member with left | right
    · exact List.mem_append_left _ left
    · exact List.mem_append_right _ (List.mem_cons_of_mem _ right)
  · rw [allocated.size, (flatten_unset_perm here List.perm_middle).length_eq]
    rfl

theorem cut_size {chain : Owned} {node : Node} (allocated : table.Allocated) (here : table.table[i]? = some chain)
    (member : node ∈ chain) (few : table.size < 2 ^ 64) : (table.size + (2 ^ 64 - 1)) % 2 ^ 64 = table.size - 1 := by
  have some : 0 < table.table.flatten.length := List.length_pos_of_mem (mem_flatten_of_slot here member)
  rw [← allocated.size] at some
  omega

end Table

/-! ### Maps -/

/-- Slots of table2 below the resizing position have been emptied, and every node has an
address of its own. -/
structure Map.Whole (map : Map) : Prop where
  table1 : map.table1.Whole
  table2 : map.table2.Whole
  ready : map.table1.table.isEmpty = true → map.table2 = {}
  distinct : (map.nodes.map (·.address)).Nodup
  addressed : ∀ node ∈ map.nodes, 0 < node.address ∧ node.address < 2 ^ 64
  drained : ∀ i < map.resizingPosition, ∀ chain : Owned, map.table2.table[i]? = some chain → chain = []

theorem empty_whole : Map.Whole {} where
  table1 := Or.inl rfl
  table2 := Or.inl rfl
  ready _ := rfl
  distinct := by simp [Map.nodes]
  addressed := by simp [Map.nodes]
  drained := by simp

theorem addressed_few {nodes : List Node} (distinct : (nodes.map (·.address)).Nodup)
    (addressed : ∀ node ∈ nodes, 0 < node.address ∧ node.address < 2 ^ 64) : nodes.length < 2 ^ 64 := by
  have inside : (nodes.map (·.address)).toFinset ⊆ Finset.Ioo 0 (2 ^ 64) := by
    intro address member
    obtain ⟨node, here, rfl⟩ := List.mem_map.mp (List.mem_toFinset.mp member)
    exact Finset.mem_Ioo.mpr (addressed node here)
  have count := Finset.card_le_card inside
  rw [List.toFinset_card_of_nodup distinct, List.length_map, Nat.card_Ioo] at count
  omega

section Map

variable {map : Map}

theorem Map.Whole.few (whole : map.Whole) : map.nodes.length < 2 ^ 64 := addressed_few whole.distinct whole.addressed

theorem Map.Whole.nodup (whole : map.Whole) : map.nodes.Nodup := List.Nodup.of_map _ whole.distinct

theorem Map.Whole.count (whole : map.Whole) : map.table1.size + map.table2.size = map.nodes.length := by
  rw [whole.table1.size_eq, whole.table2.size_eq, Map.nodes, List.length_append]

theorem Map.Whole.sizes (whole : map.Whole) : map.table1.size < 2 ^ 64 ∧ map.table2.size < 2 ^ 64 := by
  have few := whole.few
  rw [← whole.count] at few
  omega

theorem Map.Whole.size_eq (whole : map.Whole) : mapSize map = map.nodes.length := by
  rw [mapSize, whole.count, Nat.mod_eq_of_lt whole.few]

theorem Map.Whole.allocated1 (whole : map.Whole) (busy : map.table2.table.isEmpty = false) : map.table1.Allocated := by
  apply whole.table1.allocated
  rw [Bool.eq_false_iff]
  intro empty
  simp [whole.ready empty] at busy

theorem Map.Whole.allocated2 (whole : map.Whole) (waiting : 0 < map.table2.size) : map.table2.Allocated := by
  apply whole.table2.allocated
  rw [Bool.eq_false_iff]
  intro empty
  simp [whole.table2.released empty] at waiting

theorem Map.Whole.position (whole : map.Whole) (waiting : 0 < map.table2.size) :
    map.resizingPosition < map.table2.table.length := by
  by_contra beyond
  have nothing : map.table2.table.flatten = [] := by
    apply List.flatten_eq_nil_iff.mpr
    intro chain member
    obtain ⟨i, here⟩ := List.mem_iff_getElem?.mp member
    have bound := (List.getElem?_eq_some_iff.mp here).1
    exact whole.drained i (by omega) chain here
  rw [whole.table2.size_eq, nothing] at waiting
  simp at waiting

theorem Map.Whole.shrink {map' : Map} {gone : List Node} (whole : map.Whole) (table1 : map'.table1.Whole)
    (table2 : map'.table2.Whole) (ready : map'.table1.table.isEmpty = true → map'.table2 = {})
    (kept : map.nodes.Perm (gone ++ map'.nodes))
    (drained : ∀ i < map'.resizingPosition, ∀ chain : Owned, map'.table2.table[i]? = some chain → chain = []) :
    map'.Whole where
  table1 := table1
  table2 := table2
  ready := ready
  distinct := by
    have distinct := (kept.map (·.address)).nodup_iff.mp whole.distinct
    rw [List.map_append] at distinct
    exact (List.nodup_append'.mp distinct).2.1
  addressed node member := whole.addressed node (kept.mem_iff.mpr (List.mem_append_right _ member))
  drained := drained

theorem Map.Whole.rearrange {map' : Map} (whole : map.Whole) (table1 : map'.table1.Whole) (table2 : map'.table2.Whole)
    (ready : map'.table1.table.isEmpty = true → map'.table2 = {}) (kept : map'.nodes.Perm map.nodes)
    (drained : ∀ i < map'.resizingPosition, ∀ chain : Owned, map'.table2.table[i]? = some chain → chain = []) :
    map'.Whole :=
  @Map.Whole.shrink map map' [] whole table1 table2 ready kept.symm drained

/-- A stretch of the migration: which nodes have moved, in their order, and where every
chain stands after it. -/
structure Migrated (map map' : Map) (moved : List Node) : Prop where
  whole : map'.Whole
  kept : map'.nodes.Perm map.nodes
  mask1 : map'.table1.mask = map.table1.mask
  mask2 : map'.table2.mask = map.table2.mask
  newer : ∀ i : Nat, map'.table1.table[i]? = map.table1.table[i]?.map fun chain =>
    (moved.filter fun node => node.code &&& map.table1.mask = i).reverse ++ chain
  older : ∀ i : Nat, map'.table2.table[i]? = map.table2.table[i]?.map (·.filter (· ∉ moved))
  waiting : map.table2.table.flatten = moved ++ map'.table2.table.flatten

theorem Migrated.idle {map' : Map} (whole : map'.Whole) (table1 : map'.table1 = map.table1)
    (table2 : map'.table2 = map.table2) : Migrated map map' [] where
  whole := whole
  kept := by rw [Map.nodes, table1, table2, Map.nodes]
  mask1 := by rw [table1]
  mask2 := by rw [table2]
  newer i := by simp [table1]
  older i := by simp [table2]
  waiting := by simp [table2]

theorem Migrated.trans {map₁ map₂ : Map} {first second : List Node} (before : Migrated map map₁ first)
    (after : Migrated map₁ map₂ second) : Migrated map map₂ (first ++ second) where
  whole := after.whole
  kept := after.kept.trans before.kept
  mask1 := after.mask1.trans before.mask1
  mask2 := after.mask2.trans before.mask2
  newer i := by
    rw [after.newer i, before.newer i, before.mask1, Option.map_map]
    simp [Function.comp_def]
  older i := by
    rw [after.older i, before.older i, Option.map_map]
    congr 1
    funext chain
    simp [List.filter_filter, not_or, Bool.and_comm]
  waiting := by rw [before.waiting, after.waiting, List.append_assoc]

theorem filter_unmoved {chain : Owned} {node : Node} (apart : node ∉ chain) : chain.filter (· ∉ [node]) = chain := by
  apply List.filter_eq_self.mpr
  intro other member
  simp only [List.mem_singleton, decide_eq_true_eq]
  rintro rfl
  exact apart member

theorem slot_filtered {chains : List Owned} {position : Nat} {node : Node} {next : Owned}
    (here : chains[position]? = some (node :: next)) (apart : node ∉ (chains.set position next).flatten) (i : Nat) :
    (chains.set position next)[i]? = chains[i]?.map (·.filter (· ∉ [node])) := by
  have alone : ∀ chain : Owned, (chains.set position next)[i]? = some chain → chain.filter (· ∉ [node]) = chain :=
    fun chain there => filter_unmoved fun member => apart (mem_flatten_of_slot there member)
  by_cases same : position = i
  · subst same
    have there : (chains.set position next)[position]? = some next :=
      List.getElem?_set_self (List.getElem?_eq_some_iff.mp here).1
    rw [there, here, Option.map_some, List.filter_cons_of_neg (by simp), alone next there]
  · rw [List.getElem?_set_ne same] at alone ⊢
    cases there : chains[i]? with
    | none => rfl
    | some chain => rw [Option.map_some, alone chain there]

theorem pass_slot (whole : map.Whole) (empty : map.table2.table[map.resizingPosition]? = some []) :
    Migrated map { map with resizingPosition := map.resizingPosition + 1 } [] := by
  refine Migrated.idle ?_ rfl rfl
  refine whole.rearrange whole.table1 whole.table2 whole.ready (List.Perm.refl _) ?_
  intro i before chain here
  rcases Nat.lt_succ_iff_lt_or_eq.mp before with below | rfl
  · exact whole.drained i below chain here
  · exact Option.some.inj (here.symm.trans empty)

theorem move_node {node : Node} {next : Owned} (whole : map.Whole)
    (here : map.table2.table[map.resizingPosition]? = some (node :: next)) :
    Migrated map { map with table1 := map.table1.push node, table2 := map.table2.cut map.resizingPosition next } [node] := by
  have inside := (List.getElem?_eq_some_iff.mp here).1
  have nonempty : map.table2.table.isEmpty = false := by
    rw [List.isEmpty_eq_false_iff, ← List.length_pos_iff]
    omega
  have first := whole.allocated1 nonempty
  have second := whole.table2.allocated nonempty
  have waiting : map.table2.table.flatten = node :: (map.table2.table.set map.resizingPosition next).flatten :=
    flatten_first whole.drained here
  have kept : ((map.table1.push node).table.flatten ++ (map.table2.table.set map.resizingPosition next).flatten).Perm
      map.nodes := by
    rw [Map.nodes, waiting]
    exact ((first.push_perm node).append_right _).trans List.perm_middle.symm
  exact {
    whole := by
      refine whole.rearrange (Or.inr (first.push node)) (Or.inr (@Table.Allocated.cut _ _ [] next _ second here)) ?_ kept ?_
      · intro empty
        simp [(first.push node).nonempty] at empty
      · intro i before chain there
        -- only the slot at the resizing position has changed
        rw [Table.cut, List.getElem?_set_ne (Nat.ne_of_gt before)] at there
        exact whole.drained i before chain there
    kept := kept
    mask1 := rfl
    mask2 := rfl
    newer := by
      intro i
      rw [Table.push_slot first]
      congr 1
      funext chain
      by_cases same : node.code &&& map.table1.mask = i <;> simp [same]
    older := by
      have distinct := (List.nodup_append'.mp whole.nodup).2.1
      rw [waiting] at distinct
      exact slot_filtered here (List.nodup_cons.mp distinct).1
    waiting := waiting }

end Map

theorem migrate_moves (fuel work : Nat) (map : Map) (whole : map.Whole) (working : work ≤ RESIZING_WORK)
    (enough : (RESIZING_WORK - work) + (map.table2.table.length - map.resizingPosition) ≤ fuel) :
    ∃ map' moved, migrate fuel work map = some map' ∧ Migrated map map' moved ∧
      moved.length = min (RESIZING_WORK - work) map.table2.size := by
  -- each round spends one unit: it passes a slot or moves a node
  induction fuel generalizing work map with
  | zero =>
      have spent : ¬ (work < RESIZING_WORK ∧ 0 < map.table2.size) := by
        rintro ⟨busy, _⟩
        omega
      exact ⟨map, [], by rw [migrate.eq_def, if_neg spent], Migrated.idle whole rfl rfl, by simp; omega⟩
  | succ fuel ih =>
      by_cases busy : work < RESIZING_WORK ∧ 0 < map.table2.size
      · have inside := whole.position busy.2
        have second := whole.allocated2 busy.2
        obtain ⟨chain, here⟩ : ∃ chain, map.table2.table[map.resizingPosition]? = some chain :=
          ⟨_, List.getElem?_eq_getElem inside⟩
        cases chain with
        | nil =>
            have passed := pass_slot whole here
            have noWrap : (map.resizingPosition + 1) % 2 ^ 64 = map.resizingPosition + 1 := by
              have := second.width
              have := second.narrow
              omega
            obtain ⟨map', moved, result, migrated, count⟩ :=
              ih work { map with resizingPosition := map.resizingPosition + 1 } passed.whole working
                (by show _ + (map.table2.table.length - (map.resizingPosition + 1)) ≤ fuel; omega)
            refine ⟨map', moved, ?_, passed.trans migrated, count⟩
            rw [migrate.eq_def, if_pos busy]
            simp only [here, noWrap, Option.bind_eq_bind, Option.bind_some]
            exact result
        | cons node next =>
            have moves := move_node whole here
            have few := whole.few
            rw [← whole.count] at few
            have first := whole.allocated1 second.nonempty
            have inserted := insert_push first node [] (by omega)
            have shrunk := cut_size second here List.mem_cons_self whole.sizes.2
            obtain ⟨map', moved, result, migrated, count⟩ :=
              ih (work + 1) { map with table1 := map.table1.push node, table2 := map.table2.cut map.resizingPosition next }
                moves.whole busy.1 (by simp only [Table.cut, List.length_set]; omega)
            refine ⟨map', node :: moved, ?_, moves.trans migrated, ?_⟩
            · rw [migrate.eq_def, if_pos busy]
              simp only [here, detach, inserted, shrunk, Option.bind_eq_bind, Option.bind_some]
              exact result
            · rw [List.length_cons, count]
              show min (RESIZING_WORK - (work + 1)) (map.table2.size - 1) + 1 = _
              omega
      · exact ⟨map, [], by rw [migrate.eq_def, if_neg busy], Migrated.idle whole rfl rfl, by simp; omega⟩

/-! ### The migration step in closed form -/

/-- The nodes that the next migration step moves, in its order. -/
def Map.due (map : Map) : List Node := map.table2.table.flatten.take RESIZING_WORK

/-- The chain of table1 that a search for `code` walks after the migration step. -/
def Map.newChain (map : Map) (code : Nat) : Owned :=
  (map.due.filter fun node => node.code &&& map.table1.mask = code &&& map.table1.mask).reverse ++ map.table1.chain code

/-- The chain of table2 that a search for `code` walks after the migration step. -/
def Map.oldChain (map : Map) (code : Nat) : Owned := (map.table2.chain code).filter (· ∉ map.due)

structure Settled (map map' : Map) : Prop where
  whole : map'.Whole
  kept : map'.nodes.Perm map.nodes
  newer : ∀ code : Nat, map'.table1.chain code = map.newChain code
  older : ∀ code : Nat, map'.table2.chain code = map.oldChain code

theorem Migrated.newChain {map map' : Map} (whole : map.Whole) (migrated : Migrated map map' map.due) (code : Nat) :
    map'.table1.chain code = map.newChain code := by
  rw [Table.chain, migrated.newer, migrated.mask1, Map.newChain, Table.chain]
  rcases whole.table1 with released | allocated
  · -- nothing waits for a table that does not exist
    have idle : map.table2 = {} := whole.ready (by simp [released])
    simp [released, Map.due, idle]
  · simp [allocated.slot code]

theorem Migrated.oldChain {map map' : Map} (migrated : Migrated map map' map.due) (code : Nat) :
    map'.table2.chain code = map.oldChain code := by
  rw [Table.chain, migrated.older, migrated.mask2, Map.oldChain, Table.chain]
  cases map.table2.table[code &&& map.table2.mask]? with
  | none => rfl
  | some chain => rfl

theorem Map.Whole.release {map : Map} (whole : map.Whole) (empty : map.table2.size = 0) :
    Map.Whole { map with table2 := {} } := by
  have nothing := whole.table2.flatten_nil empty
  exact whole.rearrange whole.table1 (Or.inl rfl) (fun _ => rfl) (by simp [Map.nodes, nothing]) (by simp)

theorem helpResizing_settled {map : Map} (whole : map.Whole) : ∃ map', helpResizing map = some map' ∧ Settled map map' := by
  obtain ⟨map', moved, result, migrated, count⟩ :=
    migrate_moves (RESIZING_WORK + map.table2.table.length) 0 map whole (Nat.zero_le _) (by omega)
  have due : moved = map.due := by
    rw [Map.due, migrated.waiting, List.take_append, List.take_of_length_le (by omega)]
    have rest : map'.table2.table.flatten = [] ∨ RESIZING_WORK - moved.length = 0 := by
      have length := congrArg List.length migrated.waiting
      rw [← whole.table2.size_eq, List.length_append] at length
      rcases Nat.le_total RESIZING_WORK map.table2.size with many | few
      · right; omega
      · left; apply List.eq_nil_of_length_eq_zero; omega
    rcases rest with empty | spent
    · simp [empty]
    · simp [spent]
  subst due
  have newer := migrated.newChain whole
  by_cases done : map'.table2.size = 0 ∧ map'.table2.table.isEmpty = false
  · have nothing := migrated.whole.table2.flatten_nil done.1
    refine ⟨{ map' with table2 := {} }, ?_, migrated.whole.release done.1, ?_, newer, ?_⟩
    · simp only [helpResizing, result, Option.bind_eq_bind, Option.bind_some, if_pos done]
    · have kept := migrated.kept
      simpa [Map.nodes, nothing] using kept
    · intro code
      have empty : map'.table2.chain code = [] := by
        rw [Table.chain]
        cases here : map'.table2.table[code &&& map'.table2.mask]? with
        | none => rfl
        | some chain => exact List.flatten_eq_nil_iff.mp nothing chain (List.mem_of_getElem? here)
      rw [← migrated.oldChain, empty]
      rfl
  · refine ⟨map', ?_, migrated.whole, migrated.kept, newer, migrated.oldChain⟩
    simp only [helpResizing, result, Option.bind_eq_bind, Option.bind_some, if_neg done]

end Coxx.CxxMap
