import Coxx.Map.Refinement

/-! Whole runs of the map. A client may prepare objects that are outside the map and
call the three operations in any order. -/

set_option autoImplicit false

namespace Coxx.Map

open Library

inductive Call where
  | prepare (node : Addr) (value : CNode)
  | insert (node : Addr)
  | lookUp (key : Addr) (eq : Addr → Addr → Bool)
  | pop (key : Addr) (eq : Addr → Addr → Bool)

def Call.run (s : Store) : Call → Option (Store × Option Addr)
  | .prepare node value => some ({ s with nodes := Function.update s.nodes node value }, none)
  | .insert node => (CMapInsert s node).map fun s' => (s', none)
  | .lookUp key eq => CMapLookUp s (s.nodes key).code fun node => eq node key
  | .pop key eq => CMapPop s (s.nodes key).code fun node => eq node key

/-- A comparison a client may pass: an equivalence under which equal nodes have equal code. -/
structure Discriminates (nodes : Nodes) (eq : Addr → Addr → Bool) : Prop where
  equivalence : Equivalence fun left right => eq left right = true
  codes : ∀ left right, eq left right = true → (nodes left).code = (nodes right).code

/-- What a client owes: it inserts objects that are not in the map, and fewer than 2 ^ 60 of them. -/
def Call.Legal (nodes : Nodes) (present : List Addr) : Call → Prop
  | .prepare node _ => node ∉ present
  | .insert node => node ∉ present ∧ present.length + 1 < 2 ^ 60
  | .lookUp _ eq => Discriminates nodes eq
  | .pop _ eq => Discriminates nodes eq

def Call.present (present : List Addr) (answer : Option Addr) : Call → List Addr
  | .prepare _ _ => present
  | .insert node => node :: present
  | .lookUp _ _ => present
  | .pop _ _ => match answer with
    | some node => present.erase node
    | none => present

/-- What the answer of a call says about the nodes present before it. -/
def Call.Answers (present : List Addr) (answer : Option Addr) : Call → Prop
  | .prepare _ _ => answer = none
  | .insert _ => answer = none
  | .lookUp key eq | .pop key eq => match answer with
    | some node => node ∈ present ∧ eq node key = true
    | none => ∀ node ∈ present, eq node key = false

/-- States of the map with the nodes that a client inserted and did not pop. -/
inductive Reached : Store → List Addr → Prop where
  | empty (nodes : Nodes) : Reached ⟨nodes, initMap⟩ []
  | call {s s' : Store} {present : List Addr} {call : Call} {answer : Option Addr} : Reached s present →
      call.Legal s.nodes present → call.run s = some (s', answer) → Reached s' (call.present present answer)

/-- The chains read off the heap: a slot and the nodes that its pointers lead to. -/
def Chains (nodes : Nodes) (table : CTable) (chains : List (List Addr)) : Prop :=
  match table.table with
  | none => chains = []
  | some slots => List.Forall₂ (Linked (nextOf nodes)) slots chains

/-- All nodes that the pointers of the two tables lead to, one occurrence for each way to get there. -/
def Visits (s : Store) (visited : List Addr) : Prop :=
  ∃ newer older, Chains s.nodes s.map.table1 newer ∧ Chains s.nodes s.map.table2 older ∧
    visited = newer.flatten ++ older.flatten

theorem TableRep.chains {nodes : Nodes} {table : CTable} {chains : List (List Addr)}
    (rep : TableRep nodes table chains) : Chains nodes table chains := by
  rcases rep with ⟨rfl, rfl⟩ | ⟨slots, rep⟩
  · rfl
  · rw [Chains, rep.array]
    apply List.forall₂_iff_get.mpr
    refine ⟨rep.paired.symm, ?_⟩
    intro i slotBound chainBound
    exact rep.linked i _ _ (by simp [slotBound]) (by simp [chainBound])

theorem Chains.unique {nodes : Nodes} {table : CTable} {left right : List (List Addr)}
    (first : Chains nodes table left) (second : Chains nodes table right) : left = right := by
  cases array : table.table with
  | none => rw [Chains, array] at first second; rw [first, second]
  | some slots =>
      rw [Chains, array] at first second
      clear array
      induction slots generalizing left right with
      | nil => cases first; cases second; rfl
      | cons slot slots ih =>
          cases first with
          | cons here rest =>
              cases second with
              | cons here' rest' => rw [linked_unique here here', ih rest rest']

theorem Visits.unique {s : Store} {left right : List Addr} (first : Visits s left) (second : Visits s right) :
    left = right := by
  obtain ⟨newer, older, one, two, rfl⟩ := first
  obtain ⟨newer', older', one', two', rfl⟩ := second
  rw [one.unique one', two.unique two']

theorem MapRep.visits {s : Store} {newer older : List (List Addr)} (rep : MapRep s newer older) :
    Visits s (newer.flatten ++ older.flatten) :=
  ⟨newer, older, rep.table1.chains, rep.table2.chains, rfl⟩

theorem Tracks.visits {s : Store} {present : List Addr} (tracks : Tracks s present) :
    ∃ visited, Visits s visited ∧ visited.Nodup ∧ visited.Perm present := by
  obtain ⟨_, newer, older, rep, same⟩ := tracks
  exact ⟨_, rep.visits, rep.distinct, same⟩

theorem Tracks.visited {s : Store} {present visited : List Addr} (tracks : Tracks s present)
    (visits : Visits s visited) : visited.Perm present := by
  obtain ⟨_, there, _, same⟩ := tracks.visits
  rwa [visits.unique there]

theorem Tracks.unique {s : Store} {present present' : List Addr} (tracks : Tracks s present)
    (tracks' : Tracks s present') : present.Perm present' := by
  obtain ⟨_, visits, _, same⟩ := tracks.visits
  exact same.symm.trans (tracks'.visited visits)

theorem matches_key {nodes : Nodes} {eq : Addr → Addr → Bool} (good : Discriminates nodes eq) (key node : Addr) :
    Matches nodes (nodes key).code (fun other => eq other key) node ↔ eq node key = true :=
  ⟨fun found => found.2, fun equal => ⟨good.codes node key equal, equal⟩⟩

theorem Tracks.call {s : Store} {present : List Addr} (tracks : Tracks s present) (call : Call)
    (legal : call.Legal s.nodes present) :
    ∃ s' answer, call.run s = some (s', answer) ∧ call.Answers present answer ∧
      Tracks s' (call.present present answer) := by
  cases call with
  | prepare node value =>
      refine ⟨_, none, rfl, rfl, tracks.congr _ fun other member => ?_⟩
      have away : other ≠ node := fun equal => legal (equal ▸ member)
      exact Function.update_of_ne away value s.nodes
  | insert node =>
      obtain ⟨s', result, tracks', _⟩ := tracks.insert legal.1 legal.2
      exact ⟨s', none, by simp [Call.run, result], rfl, tracks'⟩
  | lookUp key eq =>
      obtain ⟨s', found, result, tracks', _, hit, miss⟩ := tracks.lookUp (s.nodes key).code fun node => eq node key
      refine ⟨s', found, result, ?_, tracks'⟩
      cases found with
      | none =>
          intro node member
          have absent := miss rfl node member
          rw [matches_key legal] at absent
          exact Bool.eq_false_iff.mpr absent
      | some node =>
          obtain ⟨member, good⟩ := hit node rfl
          exact ⟨member, good.2⟩
  | pop key eq =>
      obtain ⟨s', found, result, _, hit, miss⟩ := tracks.pop (s.nodes key).code fun node => eq node key
      cases found with
      | none =>
          obtain ⟨absent, tracks'⟩ := miss rfl
          refine ⟨s', none, result, ?_, tracks'⟩
          intro node member
          have missing := absent node member
          rw [matches_key legal] at missing
          exact Bool.eq_false_iff.mpr missing
      | some node =>
          obtain ⟨member, good, tracks'⟩ := hit node rfl
          exact ⟨s', some node, result, ⟨member, good.2⟩, tracks'⟩

theorem Reached.tracks {s : Store} {present : List Addr} (reached : Reached s present) : Tracks s present := by
  induction reached with
  | empty nodes => exact Tracks.empty nodes
  | @call s s' present call answer _ legal result ih =>
      obtain ⟨next, reply, run, _, tracks⟩ := ih.call call legal
      cases result.symm.trans run
      exact tracks

/-- The map refines a finite multiset: its pointers lead to the nodes present, each exactly
once, its size is their number, and every call is answered from them and changes them as the
caller sees it. -/
theorem map_refines_multiset {s : Store} {present : List Addr} (reached : Reached s present) :
    (∃ visited, Visits s visited ∧ visited.Nodup ∧ visited.Perm present) ∧
    CMapSize s.map = present.length ∧
    ∀ call : Call, call.Legal s.nodes present →
      ∃ s' answer visited, call.run s = some (s', answer) ∧ call.Answers present answer ∧
        Visits s' visited ∧ visited.Nodup ∧ visited.Perm (call.present present answer) := by
  have tracks := reached.tracks
  refine ⟨tracks.visits, tracks.size_eq, fun call legal => ?_⟩
  obtain ⟨s', answer, run, answers, tracks'⟩ := tracks.call call legal
  obtain ⟨visited, visits⟩ := tracks'.visits
  exact ⟨s', answer, visited, run, answers, visits⟩

/-- The map after the insertion of the nodes 0 to `n - 1`, where the code of each node is its number. -/
def populated : Nat → Option Store
  | 0 => some ⟨fun node => ⟨none, node⟩, initMap⟩
  | n + 1 => do CMapInsert (← populated n) n

theorem insert_next_legal {n : Nat} (nodes : Nodes) (few : n + 1 < 2 ^ 60) :
    (Call.insert n).Legal nodes (List.range n).reverse := by
  refine ⟨by simp, ?_⟩
  rw [List.length_reverse, List.length_range]
  exact few

theorem populated_reached {n : Nat} (few : n < 2 ^ 60) : ∃ s, populated n = some s ∧ Reached s (List.range n).reverse := by
  induction n with
  | zero => exact ⟨_, rfl, .empty fun node => ⟨none, node⟩⟩
  | succ n ih =>
      obtain ⟨s, before, reached⟩ := ih (by omega)
      have legal := insert_next_legal s.nodes few
      obtain ⟨s', _, result, _⟩ := reached.tracks.call (.insert n) legal
      obtain ⟨_, inserted, same⟩ := Option.map_eq_some_iff.mp result
      cases same
      refine ⟨s', ?_, ?_⟩
      · rw [populated, before]
        exact inserted
      · rw [List.range_succ, List.reverse_append]
        exact reached.call legal result

theorem populated_halfway {s : Store} (after : populated 256 = some s) :
    s.map.table1.mask = 63 ∧ s.map.table1.size = 128 ∧ s.map.table2.size = 128 ∧
      s.map.table1.table.isSome = true ∧ s.map.table2.table.isSome = true := by
  have shape : (populated 256).map (fun s => (s.map.table1.mask, s.map.table1.size, s.map.table2.size,
      s.map.table1.table.isSome, s.map.table2.table.isSome)) = some (63, 128, 128, true, true) := by decide +kernel
  rw [after] at shape
  simpa using shape

/-- In the middle of a rehash, a node is found in one of the two tables and taken out. -/
theorem map_refines_multiset_halfway :
    ∃ s, Reached s (List.range 256).reverse ∧ s.map.table1.size = 128 ∧ s.map.table2.size = 128 ∧ CMapSize s.map = 256 ∧
      ∃ s' visited, (Call.pop 7 fun left right => left == right).run s = some (s', some 7) ∧ Visits s' visited ∧
        visited.Perm ((List.range 256).reverse.erase 7) := by
  obtain ⟨s, after, reached⟩ := populated_reached (show 256 < 2 ^ 60 by decide)
  obtain ⟨_, newer, older, _⟩ := populated_halfway after
  have legal : (Call.pop 7 fun left right => left == right).Legal s.nodes (List.range 256).reverse := by
    refine ⟨⟨?_, ?_, ?_⟩, ?_⟩
    · simp
    · intro left right; simp only [beq_iff_eq]; exact Eq.symm
    · intro left mid right; simp only [beq_iff_eq]; exact Eq.trans
    · intro left right; simp only [beq_iff_eq]; rintro rfl; rfl
  obtain ⟨_, size, calls⟩ := map_refines_multiset reached
  obtain ⟨s', answer, visited, result, answers, visits, _, same⟩ := calls _ legal
  have here : 7 ∈ (List.range 256).reverse := by simp
  obtain rfl : answer = some 7 := by
    cases answer with
    | none => exact absurd (answers 7 here) (by simp)
    | some node => rw [beq_iff_eq.mp answers.2]
  rw [List.length_reverse, List.length_range] at size
  exact ⟨s, reached, newer, older, size, s', visited, result, visits, same⟩

end Coxx.Map
