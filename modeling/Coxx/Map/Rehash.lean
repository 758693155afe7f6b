import Coxx.Map.Operations

/-! Progressive rehashing: the invariant of a map whose nodes are spread over two
tables, and the migration step that every operation of the map performs. -/

set_option autoImplicit false

namespace Coxx.Map

open Library

/-- `newer` are the chains of table1 and `older` those of table2. Slots of table2 below
the resizing position have been emptied. -/
structure MapRep (s : Store) (newer older : List (List Addr)) : Prop where
  table1 : TableRep s.nodes s.map.table1 newer
  table2 : TableRep s.nodes s.map.table2 older
  ready : s.map.table1.table = none → s.map.table2 = initTable
  distinct : (newer.flatten ++ older.flatten).Nodup
  drained : ∀ i < s.map.resizingPosition, ∀ chain : List Addr, older[i]? = some chain → chain = []

def SameCodes (s s' : Store) : Prop := ∀ node, (s'.nodes node).code = (s.nodes node).code

theorem SameCodes.refl (s : Store) : SameCodes s s := fun _ => rfl

theorem SameCodes.trans {a b c : Store} (first : SameCodes a b) (second : SameCodes b c) : SameCodes a c :=
  fun node => (second node).trans (first node)

theorem SameCodes.matches_iff {s s' : Store} (same : SameCodes s s') (code : Nat) (eq : Addr → Bool) (node : Addr) :
    Matches s'.nodes code eq node ↔ Matches s.nodes code eq node := by
  simp only [Matches, same node]

theorem initMap_rep (nodes : Nodes) : MapRep ⟨nodes, initMap⟩ [] [] where
  table1 := Or.inl ⟨rfl, rfl⟩
  table2 := Or.inl ⟨rfl, rfl⟩
  ready _ := rfl
  distinct := by simp
  drained := by simp

section

variable {s : Store} {newer older : List (List Addr)}

theorem MapRep.size_eq (rep : MapRep s newer older) :
    s.map.table1.size + s.map.table2.size = (newer.flatten ++ older.flatten).length := by
  rw [rep.table1.size_eq, rep.table2.size_eq, List.length_append]

theorem MapRep.position_le (rep : MapRep s newer older) (waiting : 0 < s.map.table2.size) :
    s.map.resizingPosition ≤ s.map.table2.mask := by
  by_contra beyond
  -- behind the last slot every chain would be empty, against the positive size
  rcases rep.table2 with ⟨released, _⟩ | ⟨slots, table⟩
  · simp [released, initTable] at waiting
  · have allEmpty : older.flatten = [] := by
      apply List.flatten_eq_nil_iff.mpr
      intro chain member
      obtain ⟨i, here⟩ := List.mem_iff_getElem?.mp member
      apply rep.drained i _ chain here
      have bound := (List.getElem?_eq_some_iff.mp here).1
      have := table.width
      have := table.paired
      omega
    rw [table.size, allEmpty] at waiting
    simp at waiting

theorem MapRep.table1_allocated (rep : MapRep s newer older) (waiting : 0 < s.map.table2.size) :
    ∃ slots, Allocated s.nodes s.map.table1 slots newer := by
  rcases rep.table1 with ⟨released, _⟩ | found
  · have array : s.map.table1.table = none := by rw [released]; rfl
    rw [rep.ready array] at waiting
    simp [initTable] at waiting
  · exact found

/-- What a step of the migration may change: nodes move between the tables, nothing else. -/
structure Migrated (s s' : Store) (newer older newer' older' : List (List Addr)) : Prop where
  rep : MapRep s' newer' older'
  cells : (newer'.flatten ++ older'.flatten).Perm (newer.flatten ++ older.flatten)
  codes : SameCodes s s'
  mask1 : s'.map.table1.mask = s.map.table1.mask
  array1 : s'.map.table1.table.isSome = s.map.table1.table.isSome

theorem Migrated.refl (rep : MapRep s newer older) : Migrated s s newer older newer older :=
  ⟨rep, List.Perm.refl _, SameCodes.refl s, rfl, rfl⟩

theorem Migrated.trans {t u : Store} {newer₁ older₁ newer₂ older₂ : List (List Addr)}
    (first : Migrated s t newer older newer₁ older₁) (second : Migrated t u newer₁ older₁ newer₂ older₂) :
    Migrated s u newer older newer₂ older₂ :=
  ⟨second.rep, second.cells.trans first.cells, first.codes.trans second.codes,
    second.mask1.trans first.mask1, second.array1.trans first.array1⟩

/-- The nodes in between went from the older chains to the newer ones. -/
def Relocated (newer older newer' older' : List (List Addr)) (moved : List Addr) : Prop :=
  older.flatten.Perm (moved ++ older'.flatten) ∧ newer'.flatten.Perm (moved ++ newer.flatten)

theorem Relocated.refl (newer older : List (List Addr)) : Relocated newer older newer older [] :=
  ⟨List.Perm.refl _, List.Perm.refl _⟩

theorem Relocated.trans {newer₁ older₁ newer₂ older₂ : List (List Addr)} {first second : List Addr}
    (one : Relocated newer older newer₁ older₁ first) (two : Relocated newer₁ older₁ newer₂ older₂ second) :
    Relocated newer older newer₂ older₂ (first ++ second) := by
  constructor
  · calc older.flatten.Perm (first ++ older₁.flatten) := one.1
      List.Perm _ (first ++ (second ++ older₂.flatten)) := two.1.append_left first
      List.Perm _ (first ++ second ++ older₂.flatten) := by rw [List.append_assoc]
  · calc newer₂.flatten.Perm (second ++ newer₁.flatten) := two.2
      List.Perm _ (second ++ (first ++ newer.flatten)) := one.2.append_left second
      List.Perm _ (second ++ first ++ newer.flatten) := by rw [List.append_assoc]
      List.Perm _ (first ++ second ++ newer.flatten) := List.perm_append_comm.append_right _

theorem pass_slot (rep : MapRep s newer older)
    (empty : ∀ chain : List Addr, older[s.map.resizingPosition]? = some chain → chain = []) :
    Migrated s { s with map.resizingPosition := s.map.resizingPosition + 1 } newer older newer older where
  rep := {
    table1 := rep.table1
    table2 := rep.table2
    ready := rep.ready
    distinct := rep.distinct
    drained := by
      intro i before chain here
      rcases Nat.lt_succ_iff_lt_or_eq.mp before with earlier | rfl
      · exact rep.drained i earlier chain here
      · exact empty chain here }
  cells := List.Perm.refl _
  codes := SameCodes.refl s
  mask1 := rfl
  array1 := rfl

theorem detach_table2 (rep : MapRep s newer older) (few : (newer.flatten ++ older.flatten).length < 2 ^ 60)
    {link : Link} {node : Addr} (points : Points older link node) :
    ∃ nodes' table' older', detach s.nodes s.map.table2 link = some (node, nodes', table') ∧
      MapRep ⟨nodes', { s.map with table2 := table' }⟩ newer older' ∧
      SameCodes s ⟨nodes', { s.map with table2 := table' }⟩ ∧
      older.flatten.Perm (node :: older'.flatten) ∧ table'.mask = s.map.table2.mask ∧ table'.table.isSome = true := by
  have length := @List.length_append _ newer.flatten older.flatten
  have apart := (List.nodup_append'.mp rep.distinct).2.2
  obtain ⟨slots, table⟩ := points.allocated rep.table2
  obtain ⟨nodes', table', slots', older', detached, allocated', perm, codes, frame, mask, empties⟩ :=
    detach_rep table points (by omega)
  have cells : (newer.flatten ++ older.flatten).Perm (node :: (newer.flatten ++ older'.flatten)) :=
    (perm.append_left newer.flatten).trans List.perm_middle
  refine ⟨nodes', table', older', detached, ?_, codes, perm, mask, by rw [allocated'.array]; rfl⟩
  exact {
    table1 := by
      apply rep.table1.congr
      intro other member
      exact frame other (fun inOlder => apart member (perm.mem_iff.mpr (by simp [inOlder])))
    table2 := Or.inr ⟨slots', allocated'⟩
    ready := by
      intro array
      have idle := rep.ready array
      simp [idle, initTable] at table
      exact absurd table.array (by simp)
    distinct := (List.nodup_cons.mp (cells.nodup_iff.mp rep.distinct)).2
    drained := by
      -- the slots that the resizing has passed stay empty
      intro i before chain there
      have paired := allocated'.paired
      have bound : i < older.length := by
        have := (List.getElem?_eq_some_iff.mp there).1
        have := allocated'.width; have := table.width; have := table.paired
        omega
      have was : older[i]? = some [] := by
        have := rep.drained i before older[i] (by simp [bound])
        rw [← this]; simp [bound]
      rw [empties i was] at there
      exact (Option.some.inj there).symm }

theorem insert_table1 {slots : List (Option Addr)} {node : Addr} (rep : MapRep s newer older)
    (table : Allocated s.nodes s.map.table1 slots newer) (outside : node ∉ newer.flatten ++ older.flatten)
    (room : newer.flatten.length + 1 < 2 ^ 64) :
    ∃ next table1 slots' newer', insert s.nodes s.map.table1 node = some (s.nodes.setNext node next, table1) ∧
      Allocated (s.nodes.setNext node next) table1 slots' newer' ∧
      MapRep ⟨s.nodes.setNext node next, { s.map with table1 := table1 }⟩ newer' older ∧
      newer'.flatten.Perm (node :: newer.flatten) ∧ table1.mask = s.map.table1.mask := by
  obtain ⟨next, table1, slots', newer', inserted, allocated, perm, mask⟩ :=
    insert_rep table (fun member => outside (List.mem_append_left _ member)) room
  have grown : (newer'.flatten ++ older.flatten).Perm (node :: (newer.flatten ++ older.flatten)) :=
    perm.append_right older.flatten
  refine ⟨next, table1, slots', newer', inserted, allocated, ?_, perm, mask⟩
  exact {
    table1 := Or.inr ⟨slots', allocated⟩
    table2 := by
      apply rep.table2.congr
      intro other member
      exact Nodes.setNext_of_ne _ _ (fun same => outside (same ▸ List.mem_append_right _ member))
    ready := by intro array; simp [allocated.array] at array
    distinct := grown.nodup_iff.mpr (List.nodup_cons.mpr ⟨outside, rep.distinct⟩)
    drained := rep.drained }

theorem move_node {slots : List (Option Addr)} {node : Addr} (rep : MapRep s newer older)
    (waiting : 0 < s.map.table2.size) (few : (newer.flatten ++ older.flatten).length < 2 ^ 60)
    (array : s.map.table2.table = some slots) (head : slots[s.map.resizingPosition]? = some (some node)) :
    ∃ nodes₂ table2 nodes₁ table1 newer' older',
      detach s.nodes s.map.table2 (.slot s.map.resizingPosition) = some (node, nodes₂, table2) ∧
      insert nodes₂ s.map.table1 node = some (nodes₁, table1) ∧
      Migrated s ⟨nodes₁, { s.map with table1 := table1, table2 := table2 }⟩ newer older newer' older' ∧
      Relocated newer older newer' older' [node] ∧ table2.size + 1 = s.map.table2.size ∧
      table2.mask = s.map.table2.mask ∧ table2.table.isSome = true := by
  obtain ⟨slots1, first⟩ := rep.table1_allocated waiting
  obtain ⟨slots2, second⟩ := rep.table2.allocated (by rw [array]; rfl)
  cases array.symm.trans second.array
  obtain ⟨head', chain, slot, here, linked⟩ := second.slot (rep.position_le waiting)
  cases head.symm.trans slot
  obtain ⟨rest, rfl, _⟩ := linked_some linked
  have length := @List.length_append _ newer.flatten older.flatten
  have points : Points older (.slot s.map.resizingPosition) node := ⟨_, [], rest, here, rfl⟩
  obtain ⟨nodes₂, table2, older', detached, rep2, codes2, perm2, mask2, array2⟩ := detach_table2 rep few points
  have cells : (newer.flatten ++ older.flatten).Perm (node :: (newer.flatten ++ older'.flatten)) :=
    (perm2.append_left newer.flatten).trans List.perm_middle
  -- the node has left table2 and was never in table1
  have outside := (List.nodup_cons.mp (cells.nodup_iff.mp rep.distinct)).1
  obtain ⟨slots₁, first'⟩ := rep2.table1.allocated (by show s.map.table1.table.isSome = true; rw [first.array]; rfl)
  obtain ⟨next, table1, slots₁', newer', inserted, allocated, rep1, perm1, mask1⟩ :=
    insert_table1 rep2 first' outside (by omega)
  have moved : (newer'.flatten ++ older'.flatten).Perm (newer.flatten ++ older.flatten) :=
    (perm1.append_right older'.flatten).trans cells.symm
  refine ⟨nodes₂, table2, nodes₂.setNext node next, table1, newer', older', detached, inserted,
    ⟨rep1, moved, ?_, mask1, by rw [allocated.array, first.array]; rfl⟩, ⟨perm2, perm1⟩, ?_, mask2, array2⟩
  · intro other
    rw [Nodes.setNext_code]
    exact codes2 other
  · have remaining : table2.size = older'.flatten.length := rep2.table2.size_eq
    rw [remaining, second.size, perm2.length_eq]
    rfl

end

/-- The scan terminates within its fuel and moves `RESIZING_WORK` nodes, or all that wait. -/
theorem migrate_rep (fuel work : Nat) (s : Store) (newer older : List (List Addr)) (rep : MapRep s newer older)
    (few : (newer.flatten ++ older.flatten).length < 2 ^ 60) (working : work ≤ RESIZING_WORK)
    (enough : (RESIZING_WORK - work) + (s.map.table2.mask + 1 - s.map.resizingPosition) ≤ fuel) :
    ∃ s' newer' older' moved, migrate fuel work s = some s' ∧ Migrated s s' newer older newer' older' ∧
      Relocated newer older newer' older' moved ∧
      s'.map.table2.size = s.map.table2.size - min (RESIZING_WORK - work) s.map.table2.size ∧
      s'.map.table2.mask = s.map.table2.mask ∧
      s'.map.table2.table.isSome = s.map.table2.table.isSome := by
  -- each round spends one unit: it passes a slot or moves a node, never both
  induction fuel generalizing work s newer older with
  | zero =>
      have spent : ¬ (work < RESIZING_WORK ∧ 0 < s.map.table2.size) := by omega
      refine ⟨s, newer, older, [], ?_, Migrated.refl rep, Relocated.refl newer older, by omega, rfl, rfl⟩
      rw [migrate.eq_def, if_neg spent]
  | succ fuel ih =>
      by_cases busy : work < RESIZING_WORK ∧ 0 < s.map.table2.size
      · obtain ⟨slots, table⟩ : ∃ slots, Allocated s.nodes s.map.table2 slots older := by
          rcases rep.table2 with ⟨released, _⟩ | found
          · simp [released, initTable] at busy
          · exact found
        have inside := rep.position_le busy.2
        have narrow := rep.table2.mask_le
        obtain ⟨head, chain, slot, here, linked⟩ := table.slot inside
        cases head with
        | none =>
            have empty := linked_none linked
            subst empty
            have passed := pass_slot rep (by intro other there; exact Option.some.inj (there.symm.trans here))
            obtain ⟨s', newer', older', moved, result, migrated, relocated, size, mask, array⟩ :=
              ih work { s with map.resizingPosition := s.map.resizingPosition + 1 } newer older passed.rep few working
                (by show _ + (s.map.table2.mask + 1 - (s.map.resizingPosition + 1)) ≤ fuel; omega)
            refine ⟨s', newer', older', moved, ?_, passed.trans migrated, relocated, size, mask, array⟩
            have noWrap : (s.map.resizingPosition + 1) % 2 ^ 64 = s.map.resizingPosition + 1 := by omega
            rw [migrate.eq_def, if_pos busy]
            simp only [table.array, slot, noWrap, Option.bind_eq_bind, Option.bind_some]
            exact result
        | some node =>
            obtain ⟨nodes₂, table2, nodes₁, table1, newer₁, older₁, detached, inserted, moved, relocated₁, size₁, mask₁, array₁⟩ :=
              move_node rep busy.2 few table.array slot
            have few₁ := few
            rw [← moved.cells.length_eq] at few₁
            obtain ⟨s', newer', older', later, result, migrated, relocated, size, mask, array⟩ :=
              ih (work + 1) ⟨nodes₁, { s.map with table1 := table1, table2 := table2 }⟩ newer₁ older₁ moved.rep few₁ busy.1
                (by show _ + (table2.mask + 1 - s.map.resizingPosition) ≤ fuel; omega)
            refine ⟨s', newer', older', node :: later, ?_, moved.trans migrated, relocated₁.trans relocated, ?_,
              mask.trans mask₁, ?_⟩
            · rw [migrate.eq_def, if_pos busy]
              simp only [table.array, slot, detached, inserted, Option.bind_eq_bind, Option.bind_some]
              exact result
            · rw [size]
              show table2.size - min (RESIZING_WORK - (work + 1)) table2.size = _
              omega
            · rw [array, table.array]; exact array₁
      · refine ⟨s, newer, older, [], ?_, Migrated.refl rep, Relocated.refl newer older, by omega, rfl, rfl⟩
        rw [migrate.eq_def, if_neg busy]

theorem release_rep {s : Store} {newer older : List (List Addr)} (rep : MapRep s newer older)
    (empty : s.map.table2.size = 0) :
    Migrated s { s with map.table2 := initTable } newer older newer [] ∧ Relocated newer older newer [] [] := by
  have none : older.flatten = [] := by
    apply List.eq_nil_of_length_eq_zero
    rw [← rep.table2.size_eq]; exact empty
  refine ⟨⟨?_, by simp [none], SameCodes.refl s, rfl, rfl⟩, by simp [none], List.Perm.refl _⟩
  exact {
    table1 := rep.table1
    table2 := Or.inl ⟨rfl, rfl⟩
    ready := fun _ => rfl
    distinct := by simpa [none] using rep.distinct
    drained := by simp }

/-- `helpResizing` moves at most `RESIZING_WORK` nodes and releases table2 once it is empty. -/
theorem helpResizing_rep {s : Store} {newer older : List (List Addr)} (rep : MapRep s newer older)
    (few : (newer.flatten ++ older.flatten).length < 2 ^ 60) :
    ∃ s' newer' older' moved, helpResizing s = some s' ∧ Migrated s s' newer older newer' older' ∧
      Relocated newer older newer' older' moved ∧
      s'.map.table2.size = s.map.table2.size - min RESIZING_WORK s.map.table2.size ∧
      (s'.map.table2.table = none ↔ s'.map.table2.size = 0) := by
  obtain ⟨t, newer₁, older₁, moved, result, migrated, relocated, size, _, array⟩ :=
    migrate_rep (RESIZING_WORK + (s.map.table2.mask + 1)) 0 s newer older rep few (Nat.zero_le _) (by omega)
  rw [Nat.sub_zero] at size
  by_cases done : t.map.table2.size = 0 ∧ t.map.table2.table.isSome = true
  · obtain ⟨released, nothing⟩ := release_rep migrated.rep done.1
    refine ⟨_, _, _, moved ++ [], ?_, migrated.trans released, relocated.trans nothing, ?_, ?_⟩
    · simp only [helpResizing, result, Option.bind_eq_bind, Option.bind_some, if_pos done]
    · rw [← size, done.1]; rfl
    · simp [initTable]
  · refine ⟨t, newer₁, older₁, moved, ?_, migrated, relocated, size, ?_⟩
    · simp only [helpResizing, result, Option.bind_eq_bind, Option.bind_some, if_neg done]
    · constructor
      · intro released
        obtain ⟨table, _⟩ := migrated.rep.table2.released released
        rw [table]; rfl
      · intro empty
        by_contra present
        exact done ⟨empty, Option.isSome_iff_ne_none.mpr present⟩

end Coxx.Map
