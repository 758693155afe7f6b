import Coxx.Map.Representation

/-! One lemma for each table operation of the map: what it returns on a well-formed
table and which chains the table has afterwards. -/

set_option autoImplicit false

namespace Coxx.Map

open Library

section Insert

variable {nodes : Nodes} {table : CTable} {slots : List (Option Addr)} {chains : List (List Addr)}

theorem insert_rep {node : Addr} (rep : Allocated nodes table slots chains)
    (outside : node ∉ chains.flatten) (room : chains.flatten.length + 1 < 2 ^ 64) :
    ∃ next table' slots' chains', insert nodes table node = some (nodes.setNext node next, table') ∧
      Allocated (nodes.setNext node next) table' slots' chains' ∧
      chains'.flatten.Perm (node :: chains.flatten) ∧ table'.mask = table.mask := by
  have inside : (nodes node).code &&& table.mask ≤ table.mask := Nat.and_le_right
  obtain ⟨head, chain, slot, here, linked⟩ := rep.slot inside
  have slotBound := (List.getElem?_eq_some_iff.mp slot).1
  have chainBound := (List.getElem?_eq_some_iff.mp here).1
  have grown := flatten_set_perm here (List.Perm.refl (node :: chain))
  have fresh : node ∉ chain := fun member => outside (mem_flatten_of_slot here member)
  have size : (table.size + 1) % 2 ^ 64 = table.size + 1 := by
    rw [Nat.mod_eq_of_lt]; rw [rep.size]; exact room
  refine ⟨head, { table with
    table := some (slots.set ((nodes node).code &&& table.mask) (some node))
    size := (table.size + 1) % 2 ^ 64 }, slots.set ((nodes node).code &&& table.mask) (some node),
    chains.set ((nodes node).code &&& table.mask) (node :: chain), ?_, ?_, grown, rfl⟩
  · simp [insert, rep.array, slot]
  · exact {
      array := rfl
      width := by simpa using rep.width
      power := rep.power
      narrow := rep.narrow
      paired := by simpa using rep.paired
      size := by rw [grown.length_eq, List.length_cons, ← rep.size]; exact size
      distinct := grown.nodup_iff.mpr (List.nodup_cons.mpr ⟨outside, rep.distinct⟩)
      linked := by
        intro i head' chain' slot' here'
        rw [nextOf_setNext]
        by_cases same : (nodes node).code &&& table.mask = i
        · subst same
          rw [List.getElem?_set_self slotBound] at slot'
          rw [List.getElem?_set_self chainBound] at here'
          cases slot'; cases here'
          exact linked_push fresh linked
        · rw [List.getElem?_set_ne same] at slot' here'
          -- every other chain avoids the new node, so its links are as before
          apply linked_update_frame _ (rep.linked i head' chain' slot' here')
          exact fun member => outside (mem_flatten_of_slot here' member)
      placed := by
        intro i chain' here' other member
        rw [Nodes.setNext_code]
        by_cases same : (nodes node).code &&& table.mask = i
        · subst same
          rw [List.getElem?_set_self chainBound] at here'
          cases here'
          rcases List.mem_cons.mp member with rfl | member
          · rfl
          · exact rep.placed _ chain here other member
        · rw [List.getElem?_set_ne same] at here'
          exact rep.placed i chain' here' other member }

end Insert

/-! ### Links into a chain -/

/-- The address that holds the pointer to the cell after `front` in the chain of slot `i`. -/
def linkAfter (i : Nat) (front : List Addr) : Link :=
  match front.getLast? with
  | none => .slot i
  | some previous => .next previous

@[simp] theorem linkAfter_nil (i : Nat) : linkAfter i [] = .slot i := rfl

@[simp] theorem linkAfter_concat (i : Nat) (front : List Addr) (previous : Addr) :
    linkAfter i (front ++ [previous]) = .next previous := by
  simp [linkAfter]

theorem read_linkAfter {nodes : Nodes} {slots : List (Option Addr)} {i : Nat} {head : Option Addr}
    {front rest : List Addr} (slot : slots[i]? = some head)
    (linked : Linked (nextOf nodes) head (front ++ rest)) :
    ∃ start, (linkAfter i front).read nodes slots = some start ∧ Linked (nextOf nodes) start rest := by
  rcases List.eq_nil_or_concat front with rfl | ⟨front, previous, rfl⟩
  · exact ⟨head, slot, linked⟩
  · rw [List.concat_eq_append, List.append_assoc] at linked
    refine ⟨nextOf nodes previous, ?_, linked_last linked⟩
    rw [List.concat_eq_append, linkAfter_concat]
    rfl

/-- A link that holds the pointer to `node` in one of the chains. -/
def Points (chains : List (List Addr)) (link : Link) (node : Addr) : Prop :=
  ∃ i front rest, chains[i]? = some (front ++ node :: rest) ∧ link = linkAfter i front

theorem Points.mem {chains : List (List Addr)} {link : Link} {node : Addr} (points : Points chains link node) :
    node ∈ chains.flatten := by
  obtain ⟨i, front, rest, here, _⟩ := points
  exact mem_flatten_of_slot here (by simp)

theorem Allocated.slot_of_chain {nodes : Nodes} {table : CTable} {slots : List (Option Addr)}
    {chains : List (List Addr)} (rep : Allocated nodes table slots chains) {i : Nat} {chain : List Addr}
    (here : chains[i]? = some chain) : ∃ head, slots[i]? = some head ∧ Linked (nextOf nodes) head chain := by
  have bound := (List.getElem?_eq_some_iff.mp here).1
  have inside : i ≤ table.mask := by
    have := rep.width
    rw [rep.paired] at bound
    omega
  obtain ⟨head, chain', slot, here', linked⟩ := rep.slot inside
  cases here.symm.trans here'
  exact ⟨head, slot, linked⟩

theorem Points.allocated {nodes : Nodes} {table : CTable} {chains : List (List Addr)} {link : Link} {node : Addr}
    (points : Points chains link node) (rep : TableRep nodes table chains) :
    ∃ slots, Allocated nodes table slots chains := by
  rcases rep with ⟨_, rfl⟩ | allocated
  · have member := points.mem
    simp at member
  · exact allocated

theorem Points.read {nodes : Nodes} {table : CTable} {slots : List (Option Addr)} {chains : List (List Addr)}
    {link : Link} {node : Addr} (points : Points chains link node) (rep : Allocated nodes table slots chains) :
    link.read nodes slots = some (some node) := by
  obtain ⟨i, front, rest, here, rfl⟩ := points
  obtain ⟨head, slot, linked⟩ := rep.slot_of_chain here
  obtain ⟨start, read, tail⟩ := read_linkAfter slot linked
  rw [read, tail.1]

section LookUp

variable {nodes : Nodes} {slots : List (Option Addr)} {code : Nat} {eq : Addr → Bool}

def Matches (nodes : Nodes) (code : Nat) (eq : Addr → Bool) (node : Addr) : Prop :=
  (nodes node).code = code ∧ eq node = true

theorem lookUpFrom_spec (code : Nat) (eq : Addr → Bool) {i : Nat} {head : Option Addr} (slot : slots[i]? = some head)
    (fuel : Nat) (front rest : List Addr) (linked : Linked (nextOf nodes) head (front ++ rest))
    (enough : rest.length ≤ fuel) :
    (lookUpFrom nodes slots code eq fuel (linkAfter i front) = some none ∧
      ∀ node ∈ rest, ¬ Matches nodes code eq node) ∨
    ∃ mid node tail, rest = mid ++ node :: tail ∧ Matches nodes code eq node ∧
      lookUpFrom nodes slots code eq fuel (linkAfter i front) = some (some (linkAfter i (front ++ mid))) := by
  obtain ⟨start, read, chain⟩ := read_linkAfter slot linked
  -- induction on what the walk has not seen yet; `front` is what it has passed
  induction rest generalizing fuel front start with
  | nil =>
      left
      have ended : start = none := chain
      constructor
      · rw [lookUpFrom.eq_def]; simp [read, ended]
      · intro node member; simp at member
  | cons node rest ih =>
      obtain ⟨rfl, tail⟩ := chain
      by_cases found : Matches nodes code eq node
      · right
        refine ⟨[], node, rest, rfl, found, ?_⟩
        have test : (nodes node).code = code ∧ eq node = true := found
        rw [lookUpFrom.eq_def]
        simp [read, test]
      · have test : ¬ ((nodes node).code = code ∧ eq node = true) := found
        cases fuel with
        | zero => simp at enough
        | succ fuel =>
            -- one round of the loop: the link moves to the `next` field of the node just compared
            have step : lookUpFrom nodes slots code eq (fuel + 1) (linkAfter i front) =
                lookUpFrom nodes slots code eq fuel (linkAfter i (front ++ [node])) := by
              rw [lookUpFrom.eq_def, linkAfter_concat]
              simp only [read, Option.bind_eq_bind, Option.bind_some, if_neg test]
            have moved : Linked (nextOf nodes) head ((front ++ [node]) ++ rest) := by
              simpa using linked
            rw [step]
            rcases ih fuel (front ++ [node]) moved (by simpa using enough) (nextOf nodes node)
              (by rw [linkAfter_concat]; rfl) tail with ⟨none, absent⟩ | ⟨mid, hit, after, split, good, result⟩
            · left
              refine ⟨none, ?_⟩
              intro other member
              rcases List.mem_cons.mp member with rfl | member
              · exact found
              · exact absent other member
            · right
              refine ⟨node :: mid, hit, after, by rw [split]; rfl, good, ?_⟩
              rw [result, List.append_assoc]; rfl

/-- `lookUp` finds a matching node of the table, and reports none only if there is none. -/
theorem lookUp_rep {table : CTable} {chains : List (List Addr)} (rep : TableRep nodes table chains)
    (code : Nat) (eq : Addr → Bool) :
    (lookUp nodes table code eq = some none ∧ ∀ node ∈ chains.flatten, ¬ Matches nodes code eq node) ∨
    ∃ link node, lookUp nodes table code eq = some (some link) ∧ Points chains link node ∧
      Matches nodes code eq node := by
  rcases rep with ⟨rfl, rfl⟩ | ⟨slots, rep⟩
  · left
    exact ⟨rfl, by simp⟩
  · have inside : code &&& table.mask ≤ table.mask := Nat.and_le_right
    obtain ⟨head, chain, slot, here, linked⟩ := rep.slot inside
    have enough : chain.length ≤ table.size := by rw [rep.size]; exact length_slot_le here
    have start : lookUp nodes table code eq =
        lookUpFrom nodes slots code eq table.size (linkAfter (code &&& table.mask) []) := by
      simp [lookUp, rep.array]
    rw [start]
    rcases lookUpFrom_spec code eq slot table.size [] chain linked enough with
      ⟨none, absent⟩ | ⟨mid, node, tail, split, good, result⟩
    · left
      refine ⟨none, ?_⟩
      intro node member good
      obtain ⟨j, other, there, inOther⟩ := slot_of_mem_flatten member
      have place := rep.placed j other there node inOther
      rw [good.1] at place
      rw [← place, here] at there
      cases there
      exact absent node inOther good
    · right
      refine ⟨_, node, result, ⟨_, mid, tail, ?_, rfl⟩, good⟩
      rw [here, split]

end LookUp

section Detach

variable {nodes : Nodes} {table : CTable} {slots : List (Option Addr)} {chains : List (List Addr)} {i : Nat}
  {front rest : List Addr} {node : Addr}

/-! A chain loses one of its nodes. -/

theorem flatten_shrunk (here : chains[i]? = some (front ++ node :: rest)) :
    chains.flatten.Perm (node :: (chains.set i (front ++ rest)).flatten) :=
  flatten_unset_perm here List.perm_middle

theorem Allocated.size_shrunk (rep : Allocated nodes table slots chains) (here : chains[i]? = some (front ++ node :: rest))
    (room : chains.flatten.length < 2 ^ 64) :
    (table.size + (2 ^ 64 - 1)) % 2 ^ 64 = (chains.set i (front ++ rest)).flatten.length := by
  have remaining : (chains.set i (front ++ rest)).flatten.length + 1 = chains.flatten.length := by
    rw [(flatten_shrunk here).length_eq]; rfl
  rw [rep.size]
  omega

theorem Allocated.distinct_shrunk (rep : Allocated nodes table slots chains)
    (here : chains[i]? = some (front ++ node :: rest)) : (chains.set i (front ++ rest)).flatten.Nodup :=
  (List.nodup_cons.mp ((flatten_shrunk here).nodup_iff.mp rep.distinct)).2

theorem Allocated.placed_shrunk (rep : Allocated nodes table slots chains)
    (here : chains[i]? = some (front ++ node :: rest)) (j : Nat) (chain : List Addr)
    (there : (chains.set i (front ++ rest))[j]? = some chain) : ∀ other ∈ chain, (nodes other).code &&& table.mask = j := by
  intro other member
  by_cases same : i = j
  · subst same
    rw [List.getElem?_set_self (List.getElem?_eq_some_iff.mp here).1] at there
    cases there
    refine rep.placed i _ here other ?_
    rcases List.mem_append.mp member with left | right
    · exact List.mem_append_left _ left
    · exact List.mem_append_right _ (List.mem_cons_of_mem _ right)
  · rw [List.getElem?_set_ne same] at there
    exact rep.placed j chain there other member

theorem Allocated.detach_head (rep : Allocated nodes table slots chains) (here : chains[i]? = some (node :: rest))
    (room : chains.flatten.length < 2 ^ 64) :
    Allocated nodes { table with
      table := some (slots.set i (nodes node).next)
      size := (table.size + (2 ^ 64 - 1)) % 2 ^ 64 } (slots.set i (nodes node).next) (chains.set i rest) := by
  obtain ⟨head, slot, linked⟩ := rep.slot_of_chain here
  have slotBound := (List.getElem?_eq_some_iff.mp slot).1
  have chainBound := (List.getElem?_eq_some_iff.mp here).1
  have placed := @Allocated.placed_shrunk _ _ _ _ _ [] _ _ rep here
  exact {
    array := rfl
    width := by simpa using rep.width
    power := rep.power
    narrow := rep.narrow
    paired := by simpa using rep.paired
    size := @Allocated.size_shrunk _ _ _ _ _ [] _ _ rep here room
    distinct := @Allocated.distinct_shrunk _ _ _ _ _ [] _ _ rep here
    linked := by
      intro j head' chain' slot' here'
      by_cases same : i = j
      · subst same
        rw [List.getElem?_set_self slotBound] at slot'
        rw [List.getElem?_set_self chainBound] at here'
        cases slot'; cases here'
        exact linked.2
      · rw [List.getElem?_set_ne same] at slot' here'
        exact rep.linked j head' chain' slot' here'
    placed := placed }

theorem Allocated.detach_next {previous : Addr} (rep : Allocated nodes table slots chains)
    (here : chains[i]? = some (front ++ [previous] ++ node :: rest)) (room : chains.flatten.length < 2 ^ 64) :
    Allocated (nodes.setNext previous (nodes node).next) { table with size := (table.size + (2 ^ 64 - 1)) % 2 ^ 64 } slots
      (chains.set i (front ++ [previous] ++ rest)) := by
  obtain ⟨head, slot, linked⟩ := rep.slot_of_chain here
  have chainBound := (List.getElem?_eq_some_iff.mp here).1
  have chainDistinct := nodup_of_slot rep.distinct here
  exact {
    array := rep.array
    width := rep.width
    power := rep.power
    narrow := rep.narrow
    paired := by simpa using rep.paired
    size := rep.size_shrunk here room
    distinct := rep.distinct_shrunk here
    linked := by
      intro j head' chain' slot' here'
      rw [nextOf_setNext]
      by_cases same : i = j
      · subst same
        rw [List.getElem?_set_self chainBound] at here'
        cases here'
        cases slot.symm.trans slot'
        rw [List.append_assoc] at linked chainDistinct ⊢
        exact linked_bypass chainDistinct linked
      · rw [List.getElem?_set_ne same] at here'
        -- a node lies in one slot, so the predecessor is in no other chain
        apply linked_update_frame _ (rep.linked j head' chain' slot' here')
        intro member
        exact same (slot_unique rep.distinct here here' (by simp) member)
    placed := by
      intro j chain there other member
      rw [Nodes.setNext_code]
      exact rep.placed_shrunk here j chain there other member }

theorem detach_rep {link : Link} (rep : Allocated nodes table slots chains) (points : Points chains link node)
    (room : chains.flatten.length < 2 ^ 64) :
    ∃ nodes' table' slots' chains', detach nodes table link = some (node, nodes', table') ∧
      Allocated nodes' table' slots' chains' ∧ chains.flatten.Perm (node :: chains'.flatten) ∧
      (∀ other, (nodes' other).code = (nodes other).code) ∧
      (∀ other, other ∉ chains'.flatten → nodes' other = nodes other) ∧
      table'.mask = table.mask ∧
      (∀ i : Nat, chains[i]? = some [] → chains'[i]? = some []) := by
  have read := points.read rep
  obtain ⟨i, front, rest, here, linkEq⟩ := points
  have empties : ∀ j : Nat, chains[j]? = some [] → (chains.set i (front ++ rest))[j]? = some [] := by
    intro j empty
    have apart : i ≠ j := by
      rintro rfl
      rw [here] at empty
      simp at empty
    rw [List.getElem?_set_ne apart, empty]
  have shrunk := flatten_shrunk here
  rcases List.eq_nil_or_concat front with rfl | ⟨front, previous, rfl⟩
  · subst linkEq
    refine ⟨nodes, _, _, _, ?_, rep.detach_head here room, shrunk, fun _ => rfl, fun _ _ => rfl, rfl, empties⟩
    simp only [linkAfter_nil] at read
    simp [detach, rep.array, read]
  · subst linkEq
    rw [List.concat_eq_append] at *
    rw [linkAfter_concat] at read
    refine ⟨_, _, slots, _, ?_, rep.detach_next here room, shrunk, fun _ => Nodes.setNext_code _ _ _ _, ?_, rfl, empties⟩
    · rw [linkAfter_concat]
      simp [detach, rep.array, read]
    · intro other outside
      apply Nodes.setNext_of_ne
      rintro rfl
      apply outside
      exact mem_flatten_of_slot (List.getElem?_set_self (List.getElem?_eq_some_iff.mp here).1) (by simp)

end Detach

end Coxx.Map
