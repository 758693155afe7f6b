import Coxx.Library.Fuel
import Coxx.Map.Growth

/-! The work of progressive rehashing, over whole runs. A table is scanned once, after it has been filled to the load
limit: the insertions that have filled it pay for the rounds of the scan.
-/

set_option autoImplicit false

namespace Coxx.Map

open Library

/-- The state in which a call runs `helpResizing`, if it does. -/
def Call.migrates (s : Store) : Call → Option Store
  | .prepare _ _ => none
  | .insert node => loaded s node
  | .lookUp _ _ | .pop _ _ => some s

/-- The rounds that the loop of `helpResizing` makes in a call: each moves a node or passes an empty slot. -/
def Call.Rounds (s : Store) (call : Call) (rounds : Nat) : Prop :=
  match call.migrates s with
  | none => rounds = 0
  | some t => ∃ t', Takes rounds (fun fuel => migrate fuel 0 t) t'

def Call.inserts : Call → Nat
  | .insert _ => 1
  | _ => 0

theorem Call.Rounds.unique {s : Store} {call : Call} {rounds rounds' : Nat} (first : call.Rounds s rounds)
    (second : call.Rounds s rounds') : rounds = rounds' := by
  unfold Call.Rounds at first second
  cases migration : call.migrates s with
  | none =>
      rw [migration] at first second
      exact first.trans second.symm
  | some t =>
      rw [migration] at first second
      obtain ⟨_, takes⟩ := first
      obtain ⟨_, takes'⟩ := second
      exact takes.unique takes'

theorem Call.present_length (present : List Addr) (answer : Option Addr) (call : Call) :
    (call.present present answer).length ≤ present.length + call.inserts := by
  cases call with
  | prepare node value => exact Nat.le_refl _
  | insert node => exact Nat.le_refl _
  | lookUp key eq => exact Nat.le_refl _
  | pop key eq =>
      cases answer with
      | none => exact Nat.le_refl _
      | some node => exact List.erase_sublist.length_le

/-- Runs of the map, with the number of insertions and the rounds of all migrations so far. -/
inductive Worked : Store → List Addr → Nat → Nat → Prop where
  | empty (nodes : Nodes) : Worked ⟨nodes, initMap⟩ [] 0 0
  | call {s s' : Store} {present : List Addr} {call : Call} {answer : Option Addr} {inserts work rounds : Nat} :
      Worked s present inserts work → call.Allowed present → call.run s = some (s', answer) → call.Rounds s rounds →
      Worked s' (call.present present answer) (inserts + call.inserts) (work + rounds)

theorem Worked.ran {s : Store} {present : List Addr} {inserts work : Nat} (worked : Worked s present inserts work) :
    Ran s present := by
  induction worked with
  | empty nodes => exact .empty nodes
  | call _ allowed result _ ih => exact ih.call allowed result

def remaining (map : CMap) : Nat :=
  if map.table2.table.isSome then map.table2.size + (map.table2.mask + 1 - map.resizingPosition) else 0

/-! ### The rounds of one migration -/

section Migration

variable {s : Store} {newer older : List (List Addr)}

theorem migrate_takes (bound work : Nat) (s : Store) (newer older : List (List Addr)) (rep : MapRep s newer older)
    (few : (newer.flatten ++ older.flatten).length < 2 ^ 60) (working : work ≤ RESIZING_WORK)
    (enough : (RESIZING_WORK - work) + (s.map.table2.mask + 1 - s.map.resizingPosition) ≤ bound) :
    ∃ s' rounds, Takes rounds (fun fuel => migrate fuel work s) s' ∧ rounds + remaining s'.map = remaining s.map ∧
      rounds ≤ bound := by
  induction bound generalizing work s newer older with
  | zero =>
      refine ⟨s, 0, Takes.done fun fuel => ?_, Nat.zero_add _, Nat.le_refl 0⟩
      have spent : ¬(work < RESIZING_WORK ∧ 0 < s.map.table2.size) := by omega
      rw [migrate.eq_def, if_neg spent]
  | succ bound ih =>
      by_cases busy : work < RESIZING_WORK ∧ 0 < s.map.table2.size
      · obtain ⟨slots, table⟩ : ∃ slots, Allocated s.nodes s.map.table2 slots older := by
          rcases rep.table2 with ⟨released, _⟩ | found
          · simp [released, initTable] at busy
          · exact found
        have inside := rep.position_le busy.2
        have narrow := rep.table2.mask_le
        have array : s.map.table2.table.isSome = true := by
          rw [table.array]
          rfl
        have spent : migrate 0 work s = none := by rw [migrate.eq_def, if_pos busy]
        obtain ⟨head, chain, slot, here, linked⟩ := table.slot inside
        cases head with
        | none =>
            have empty := linked_none linked
            subst empty
            have passed := pass_slot rep (by intro other there; exact Option.some.inj (there.symm.trans here))
            obtain ⟨s', rounds, takes, left, short⟩ :=
              ih work { s with map.resizingPosition := s.map.resizingPosition + 1 } newer older passed.rep few working
                (by show _ + (s.map.table2.mask + 1 - (s.map.resizingPosition + 1)) ≤ bound; omega)
            have noWrap : (s.map.resizingPosition + 1) % 2 ^ 64 = s.map.resizingPosition + 1 := by omega
            refine ⟨s', rounds + 1, takes.again spent fun fuel => ?_, ?_, Nat.succ_le_succ short⟩
            · rw [migrate.eq_def, if_pos busy]
              simp only [table.array, slot, noWrap, Option.bind_eq_bind, Option.bind_some]
            · unfold remaining at left ⊢
              simp only [array, if_true] at left ⊢
              omega
        | some node =>
            obtain ⟨nodes₂, table2, nodes₁, table1, newer₁, older₁, detached, inserted, moved, _, size₁, mask₁, array₁⟩ :=
              move_node rep busy.2 few table.array slot
            have few₁ := few
            rw [← moved.cells.length_eq] at few₁
            obtain ⟨s', rounds, takes, left, short⟩ :=
              ih (work + 1) ⟨nodes₁, { s.map with table1 := table1, table2 := table2 }⟩ newer₁ older₁ moved.rep few₁ busy.1
                (by show _ + (table2.mask + 1 - s.map.resizingPosition) ≤ bound; omega)
            refine ⟨s', rounds + 1, takes.again spent fun fuel => ?_, ?_, Nat.succ_le_succ short⟩
            · rw [migrate.eq_def, if_pos busy]
              simp only [table.array, slot, detached, inserted, Option.bind_eq_bind, Option.bind_some]
            · unfold remaining at left ⊢
              simp only [array, array₁, if_true] at left ⊢
              omega
      · refine ⟨s, 0, Takes.done fun fuel => ?_, Nat.zero_add _, Nat.zero_le _⟩
        rw [migrate.eq_def, if_neg busy]

/-- The migration of a call: what it leaves, and that it makes as many rounds as it takes off. -/
theorem helpResizing_takes (rep : MapRep s newer older) (few : (newer.flatten ++ older.flatten).length < 2 ^ 60) {t : Store}
    (help : helpResizing s = some t) :
    ∃ t' rounds, Takes rounds (fun fuel => migrate fuel 0 s) t' ∧ rounds + remaining t.map ≤ remaining s.map := by
  obtain ⟨t', rounds, takes, left, short⟩ :=
    migrate_takes (RESIZING_WORK + (s.map.table2.mask + 1)) 0 s newer older rep few (Nat.zero_le _) (by omega)
  refine ⟨t', rounds, takes, ?_⟩
  have done := takes.returns _ short
  simp only [helpResizing, done, Option.bind_eq_bind, Option.bind_some] at help
  split at help
  · cases help
    have released : remaining { t'.map with table2 := initTable } = 0 := rfl
    rw [released]
    omega
  · cases help
    omega

end Migration

/-! ### The tables of a call -/

section Calls

variable {s s' t : Store} {newer older : List (List Addr)} {node : Addr}

theorem insert_mask {nodes nodes' : Nodes} {table table' : CTable}
    (result : insert nodes table node = some (nodes', table')) : table'.mask = table.mask := by
  simp only [insert, Option.bind_eq_bind, Option.bind_eq_some_iff] at result
  obtain ⟨slots, _, next, _, same⟩ := result
  cases same
  rfl

theorem firstTable_mask {map : CMap} {table1 : CTable} (result : firstTable map.table1 = some table1) :
    table1.mask + 1 = width map := by
  unfold firstTable at result
  unfold width
  split at result
  · rename_i absent
    rw [if_pos absent]
    cases result
    rfl
  · rename_i there
    rw [if_neg there]
    cases result
    rfl

/-- The load check leaves the scan of table2 as it is, or starts the scan of the table that was table1. -/
theorem loaded_scan (load : loaded s node = some t) :
    t.map.table2 = s.map.table2 ∧ t.map.resizingPosition = s.map.resizingPosition ∨
      t.map.table2.mask + 1 = width s.map ∧ t.map.resizingPosition = 0 ∧ s.map.table2.table = none := by
  simp only [loaded, Option.bind_eq_bind, Option.bind_eq_some_iff] at load
  obtain ⟨table0, first, ⟨nodes, table1⟩, inserted, map, checked, same⟩ := load
  cases same
  unfold checkLoad at checked
  split at checked
  · rename_i idle
    simp only at checked
    split at checked
    · unfold startResizing at checked
      split at checked
      · cases checked
      · simp only [Option.bind_eq_bind, Option.bind_eq_some_iff] at checked
        obtain ⟨empty, _, started⟩ := checked
        cases started
        refine .inr ⟨?_, rfl, Option.isNone_iff_eq_none.mp idle⟩
        rw [← firstTable_mask first]
        exact congrArg (· + 1) (insert_mask inserted)
    · cases checked
      exact .inl ⟨rfl, rfl⟩
  · cases checked
    exact .inl ⟨rfl, rfl⟩

/-- What is left to do after the load check: as much as before, or the scan of a table that was just filled. -/
theorem loaded_remaining (load : loaded s node = some t) (loads : Loads s.map t.map) :
    t.map.table1.mask + 1 = width s.map ∧ remaining t.map = remaining s.map ∨
      t.map.table1.mask + 1 = 2 * width s.map ∧ MAX_LOAD_FACTOR * width s.map ≤ total t.map ∧
        remaining s.map = 0 ∧ remaining t.map ≤ total t.map + width s.map := by
  have idle : s.map.table2.table = none → remaining s.map = 0 := fun absent => by simp [remaining, absent]
  cases loads with
  | kept mask same _ =>
      refine .inl ⟨mask, ?_⟩
      rcases loaded_scan load with ⟨_, position⟩ | ⟨_, _, absent⟩
      · simp only [remaining, same, position]
      · rw [idle absent]
        simp [remaining, same, absent]
  | started mask absent _ heavy =>
      refine .inr ⟨mask, Nat.le_trans heavy (Nat.le_add_left _ _), idle absent, ?_⟩
      unfold remaining total
      rcases loaded_scan load with ⟨same, _⟩ | ⟨slots, start, _⟩
      · simp [same, absent]
      · rw [slots, start]
        split <;> omega

theorem CMapPop_scan {code : Nat} {eq : Addr → Bool} {found : Option Addr} (result : CMapPop s code eq = some (s', found))
    (help : helpResizing s = some t) :
    s'.map.resizingPosition = t.map.resizingPosition ∧ s'.map.table2.mask = t.map.table2.mask := by
  simp only [CMapPop, help, Option.bind_eq_bind, Option.bind_some, Option.bind_eq_some_iff] at result
  obtain ⟨first, _, rest⟩ := result
  cases first with
  | some link =>
      simp only [Option.bind_eq_some_iff] at rest
      obtain ⟨⟨node, nodes, table1⟩, _, rest⟩ := rest
      cases rest
      exact ⟨rfl, rfl⟩
  | none =>
      simp only [Option.bind_eq_some_iff] at rest
      obtain ⟨second, _, rest⟩ := rest
      cases second with
      | some link =>
          simp only [Option.bind_eq_some_iff] at rest
          obtain ⟨⟨node, nodes, table2⟩, detached, rest⟩ := rest
          cases rest
          exact ⟨rfl, (detach_table detached).1⟩
      | none =>
          cases rest
          exact ⟨rfl, rfl⟩

end Calls

/-! ### The account -/

/-- The slots of table1 against the work: each table before the last was paid for by as many insertions as it holds at
the load limit, at one round for each node and each slot. -/
structure Paid (map : CMap) (inserts work : Nat) : Prop where
  spent : work + remaining map + 36 ≤ (MAX_LOAD_FACTOR + 1) * width map
  filled : width map = 4 ∨ MAX_LOAD_FACTOR / 2 * width map ≤ inserts

section Paid

variable {s s' t : Store} {newer older : List (List Addr)} {inserts work rounds : Nat}

theorem initMap_paid : Paid initMap 0 0 := by
  constructor
  · decide
  · exact .inl rfl

theorem Paid.migrate (paid : Paid s.map inserts work) (rep : MapRep s newer older)
    (few : (newer.flatten ++ older.flatten).length < 2 ^ 60) (help : helpResizing s = some t) {result : Store}
    (takes : Takes rounds (fun fuel => Map.migrate fuel 0 s) result) : Paid t.map inserts (work + rounds) := by
  obtain ⟨_, rounds', takes', less⟩ := helpResizing_takes rep few help
  obtain rfl := takes.unique takes'
  obtain ⟨_, _, _, _, help', migrated, _⟩ := helpResizing_rep rep few
  cases help.symm.trans help'
  have same : width t.map = width s.map := by
    have array := migrated.array1
    unfold width
    rw [migrated.mask1, ← Option.not_isSome, ← Option.not_isSome, array]
  have spent := paid.spent
  refine ⟨?_, ?_⟩
  · rw [same]
    omega
  · rw [same]
    exact paid.filled

theorem Paid.load {node : Addr} (paid : Paid s.map inserts work) (paced : Paced 0 s.map) (rep : MapRep s newer older)
    {newer' older' : List (List Addr)} (rep' : MapRep t newer' older') (load : loaded s node = some t)
    (loads : Loads s.map t.map) (grown : total t.map = total s.map + 1) (count : total t.map ≤ inserts + 1) :
    Paid t.map (inserts + 1) work := by
  have array : t.map.table1.table.isNone = false := by
    rw [Option.isNone_eq_false_iff, Option.isSome_iff_ne_none]
    intro absent
    have idle := rep'.ready absent
    obtain ⟨empty, _⟩ := rep'.table1.released absent
    simp only [total, idle, empty, initTable] at grown
    omega
  have slots : width t.map = t.map.table1.mask + 1 := by simp [width, array]
  have room : total s.map < MAX_LOAD_FACTOR * width s.map := by
    cases there : s.map.table1.table with
    | none =>
        obtain ⟨table, _⟩ := rep.table1.released there
        rw [width, there, total, rep.ready there, table]
        decide
    | some slots =>
        have light := paced.light (by rw [there]; rfl)
        rwa [width, there]
  obtain ⟨spent, filled⟩ := paid
  simp only [MAX_LOAD_FACTOR] at room spent filled
  rcases loaded_remaining load loads with ⟨mask, same⟩ | ⟨mask, heavy, idle, left⟩
  · refine ⟨?_, ?_⟩
    · rw [slots, mask, same]
      exact spent
    · rw [slots, mask]
      exact filled.imp_right fun enough => Nat.le_succ_of_le enough
  · simp only [MAX_LOAD_FACTOR] at heavy
    refine ⟨?_, .inr ?_⟩
    · rw [slots, mask, MAX_LOAD_FACTOR]
      omega
    · rw [slots, mask, MAX_LOAD_FACTOR]
      omega

theorem Paid.shrink (paid : Paid s.map inserts work) (shrinks : Shrinks s.map t.map) (fewer : total t.map ≤ total s.map)
    (position : t.map.resizingPosition = s.map.resizingPosition) (mask : t.map.table2.mask = s.map.table2.mask) :
    Paid t.map inserts work := by
  have slots : width t.map = width s.map := by
    unfold width
    rw [shrinks.mask1, ← Option.not_isSome, ← Option.not_isSome, shrinks.array1]
  have waiting : t.map.table2.size ≤ s.map.table2.size := by
    rcases shrinks.one with same | same
    · simp only [total, same] at fewer
      omega
    · rw [same]
  have left : remaining t.map ≤ remaining s.map := by
    unfold remaining
    rw [shrinks.array2, position, mask]
    split <;> omega
  obtain ⟨spent, filled⟩ := paid
  rw [← slots] at spent filled
  exact ⟨Nat.le_trans (by omega) spent, filled⟩

end Paid

/-! ### Whole runs -/

theorem Tracks.paid_call {s : Store} {present : List Addr} {inserts work : Nat} (tracks : Tracks s present)
    (paced : Paced 0 s.map) (paid : Paid s.map inserts work) (few : present.length ≤ inserts) (call : Call)
    (allowed : call.Allowed present) :
    ∃ s' answer rounds, call.run s = some (s', answer) ∧ call.Rounds s rounds ∧
      Paid s'.map (inserts + call.inserts) (work + rounds) := by
  obtain ⟨small, newer, older, rep, same⟩ := id tracks
  have fits : (newer.flatten ++ older.flatten).length < 2 ^ 60 := by rw [same.length_eq]; exact small
  have searched {t : Store} (help : helpResizing s = some t) :
      ∃ rounds, (∃ t', Takes rounds (fun fuel => Map.migrate fuel 0 s) t') ∧ Paid t.map inserts (work + rounds) := by
    obtain ⟨t', rounds, takes, _⟩ := helpResizing_takes rep fits help
    exact ⟨rounds, ⟨t', takes⟩, paid.migrate rep fits help takes⟩
  cases call with
  | prepare node value => exact ⟨_, none, 0, rfl, rfl, paid⟩
  | insert node =>
      have outside : node ∉ newer.flatten ++ older.flatten := fun member => allowed.1 (same.mem_iff.mp member)
      have room : (newer.flatten ++ older.flatten).length + 1 < 2 ^ 60 := by rw [same.length_eq]; exact allowed.2
      obtain ⟨t, newer₁, older₁, load, rep₁, grown, _, loads⟩ := loaded_rep rep outside room
      have count : total t.map = total s.map + 1 := by
        rw [total, rep₁.size_eq, grown.length_eq, List.length_cons, total, rep.size_eq]
      have room₁ : (newer₁.flatten ++ older₁.flatten).length < 2 ^ 60 := by rw [grown.length_eq]; exact room
      obtain ⟨s', result, _⟩ := tracks.insert allowed.1 allowed.2
      have help : helpResizing t = some s' := by rwa [CMapInsert_eq, load] at result
      have charged := paid.load paced rep rep₁ load loads count (by rw [count, tracks.count_eq]; omega)
      obtain ⟨t', rounds, takes, _⟩ := helpResizing_takes rep₁ room₁ help
      refine ⟨s', none, rounds, by simp [Call.run, result], ?_, charged.migrate rep₁ room₁ help takes⟩
      simp only [Call.Rounds, Call.migrates, load]
      exact ⟨t', takes⟩
  | lookUp key eq =>
      obtain ⟨s', found, result, _⟩ := tracks.lookUp (s.nodes key).code fun node => eq node key
      obtain ⟨rounds, takes, after⟩ := searched (CMapLookUp_cases result)
      exact ⟨s', found, rounds, result, takes, after⟩
  | pop key eq =>
      obtain ⟨s', found, result, _⟩ := tracks.pop (s.nodes key).code fun node => eq node key
      obtain ⟨t, help, shrinks⟩ := CMapPop_cases result
      obtain ⟨position, mask⟩ := CMapPop_scan result help
      obtain ⟨rounds, takes, after⟩ := searched help
      obtain ⟨_, _, run, tracks', _⟩ := tracks.paced_call paced (.pop key eq) allowed
      cases run.symm.trans result
      have fewer : total s'.map ≤ total t.map := by
        rw [tracks'.count_eq, (tracks.migrate help).count_eq]
        exact Call.present_length present found (.pop key eq)
      exact ⟨s', found, rounds, result, takes, after.shrink shrinks fewer position mask⟩

theorem Worked.paid {s : Store} {present : List Addr} {inserts work : Nat} (worked : Worked s present inserts work) :
    present.length ≤ inserts ∧ Paid s.map inserts work := by
  induction worked with
  | empty nodes => exact ⟨Nat.le_refl 0, initMap_paid⟩
  | @call s s' present call answer inserts work rounds before allowed result made ih =>
      obtain ⟨tracks, paced⟩ := before.ran.paced
      obtain ⟨next, reply, taken, run, takes, paid⟩ := tracks.paid_call paced ih.2 ih.1 call allowed
      cases result.symm.trans run
      obtain rfl := Call.Rounds.unique made takes
      exact ⟨Nat.le_trans (call.present_length present answer) (Nat.add_le_add_right ih.1 _), paid⟩

/-- Rehashing costs a constant for each insertion, on average over any run: every call returns after
a number of rounds of its migration, all rounds of the run together are at most nine for every four insertions, and
table1 never has more than a slot for every four insertions beyond its first four. -/
theorem rehash_amortized {s : Store} {present : List Addr} {inserts work : Nat}
    (worked : Worked s present inserts work) :
    4 * work ≤ (MAX_LOAD_FACTOR + 1) * inserts ∧
    (s.map.table1.mask + 1 ≤ 4 ∨ MAX_LOAD_FACTOR / 2 * (s.map.table1.mask + 1) ≤ inserts) ∧
    ∀ call : Call, call.Allowed present →
      ∃ s' answer rounds, call.run s = some (s', answer) ∧ call.Rounds s rounds := by
  obtain ⟨tracks, paced⟩ := worked.ran.paced
  obtain ⟨few, paid⟩ := worked.paid
  obtain ⟨spent, filled⟩ := id paid
  simp only [MAX_LOAD_FACTOR] at spent filled ⊢
  refine ⟨by omega, ?_, ?_⟩
  · unfold width at filled
    obtain ⟨_, newer, older, rep, _⟩ := tracks
    split at filled
    · rename_i absent
      obtain ⟨empty, _⟩ := rep.table1.released (Option.isNone_iff_eq_none.mp absent)
      rw [empty]
      exact .inl (by decide)
    · omega
  · intro call allowed
    obtain ⟨s', answer, rounds, result, takes, _⟩ := tracks.paid_call paced paid few call allowed
    exact ⟨s', answer, rounds, result, takes⟩

theorem populated_worked {n : Nat} (few : n < 2 ^ 60) :
    ∃ s work, populated n = some s ∧ Worked s (List.range n).reverse n work := by
  induction n with
  | zero => exact ⟨_, 0, rfl, .empty fun node => ⟨none, node⟩⟩
  | succ n ih =>
      obtain ⟨s, work, before, worked⟩ := ih (by omega)
      have allowed := (insert_next_legal s.nodes few).allowed
      obtain ⟨tracks, paced⟩ := worked.ran.paced
      obtain ⟨length, paid⟩ := worked.paid
      obtain ⟨s', _, rounds, result, takes, _⟩ := tracks.paid_call paced paid length _ allowed
      obtain ⟨_, inserted, same⟩ := Option.map_eq_some_iff.mp result
      cases same
      refine ⟨s', work + rounds, ?_, ?_⟩
      · rw [populated, before]
        exact inserted
      · rw [List.range_succ, List.reverse_append]
        exact worked.call allowed result takes

/-- The 32nd insertion moves all nodes to a new table, which takes a round for each and three for empty slots. -/
theorem rehash_amortized_moving :
    ∃ s work, Worked s (List.range 32).reverse 32 work ∧ 35 ≤ work ∧ 4 * work ≤ 9 * 32 := by
  obtain ⟨s, work, before, worked⟩ := populated_worked (show 31 < 2 ^ 60 by decide)
  have allowed := (insert_next_legal s.nodes (show 31 + 1 < 2 ^ 60 by decide)).allowed
  obtain ⟨s', _, rounds, result, takes⟩ := (rehash_amortized worked).2.2 _ allowed
  have whole : Worked s' (List.range 32).reverse 32 (work + rounds) := by
    rw [List.range_succ, List.reverse_append]
    exact worked.call allowed result takes
  refine ⟨s', work + rounds, whole, ?_, (rehash_amortized whole).1⟩
  have busy : ((populated 31).bind fun s => loaded s 31).map (fun t => (migrate 34 0 t).isNone) = some true := by
    decide +kernel
  rw [before, Option.bind_some] at busy
  obtain ⟨t, load, spent⟩ := Option.map_eq_some_iff.mp busy
  unfold Call.Rounds Call.migrates at takes
  simp only [load] at takes
  obtain ⟨t', takes⟩ := takes
  by_contra less
  rw [takes.returns 34 (by omega)] at spent
  cases spent

end Coxx.Map
