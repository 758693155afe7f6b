import Coxx.Map.Runs
import Coxx.Zset.Members
import Mathlib.Data.List.AList

/-! Whole runs of a sorted set. Every call passes the size of its name as `len`. -/

set_option autoImplicit false

namespace Coxx.Zset

open Library BinaryTree

/-- A call, with what lies behind the name and behind the copy of it in the key. -/
inductive Call where
  | add (name : CxxString) (copy : Tail) (score : Double)
  | lookup (name : CxxString) (copy : Tail)
  | pop (name : CxxString) (copy : Tail)

inductive Answer where
  | added (new : Bool)
  | node (found : Option Addr)

def Call.run (set : ZSet) : Call → Option (ZSet × Answer)
  | .add name copy score => (Zset.add set name copy name.bytes.length score).map fun (set, new) => (set, .added new)
  | .lookup name copy => (Zset.lookup set name copy name.bytes.length).map fun (set, found) => (set, .node found)
  | .pop name copy => (Zset.pop set name copy name.bytes.length).map fun (set, found) => (set, .node found)

abbrev Members := AList fun _ : Bytes => Double

def Call.after (members : Members) : Call → Members
  | .add name _ score => members.insert name.bytes (added (members.lookup name.bytes) score)
  | .lookup _ _ => members
  | .pop name _ => members.erase name.bytes

/-- The scores are numbers, and there are fewer than 2 ^ 32 members. -/
def Call.Legal (members : Members) : Call → Prop
  | .add name copy score =>
    score.isNaN = false ∧ ((Call.add name copy score).after members).keys.length < 2 ^ 32
  | .lookup _ _ | .pop _ _ => True

/-- Sets with the finite map that the calls amount to. -/
inductive Reached : ZSet → Members → Prop where
  | empty : Reached initZSet ∅
  | call {set set' : ZSet} {members : Members} {call : Call} {answer : Answer} : Reached set members →
      call.Legal members → call.run set = some (set', answer) → Reached set' (call.after members)

/-- The two indexes link the same nodes, in the order of scores and names, one node for each member. -/
structure Agreement (set : ZSet) (tree : BinaryTree Addr) (members : Members) : Prop where
  linked : Avl.Holds set.heap set.tree tree
  visited : ∃ visited, Map.Visits set.map visited ∧ visited.Nodup ∧ visited.Perm (inorder tree)
  names : ((inorder tree).map fun x => (set.nodes x).name).Nodup
  increasing : (inorder tree).Pairwise fun x y => (set.nodes x).rank < (set.nodes y).rank
  scores : ∀ name score, members.lookup name = some score ↔
    ∃ x ∈ inorder tree, (set.nodes x).name = name ∧ (set.nodes x).score = score

def Call.Answers (set set' : ZSet) (tree tree' : BinaryTree Addr) (members : Members) : Call → Answer → Prop
  | .add name _ score, .added new =>
    new = (members.lookup name.bytes).isNone ∧ AddStep set set' tree tree' name.bytes score new
  | .lookup name _, .node found =>
    set'.nodes = set.nodes ∧ tree' = tree ∧
      match found with
      | some n => n ∈ inorder tree ∧ (set.nodes n).name = name.bytes ∧
          members.lookup name.bytes = some (set.nodes n).score
      | none => members.lookup name.bytes = none
  | .pop name _, .node found =>
    set'.nodes = set.nodes ∧
      match found with
      | some n => n ∈ inorder tree ∧ (set.nodes n).name = name.bytes ∧ inorder tree' = (inorder tree).erase n
      | none => members.lookup name.bytes = none ∧ tree' = tree
  | _, _ => False

/-- The invariant of a run: every name is looked up by all of its bytes. -/
structure Stores (set : ZSet) (tree : BinaryTree Addr) (members : Members) : Prop where
  sound : Sound set tree
  keyed : Keyed (fun _ => True) set tree
  maps : Maps (fun _ => True) set tree fun name => members.lookup name
  few : members.keys.length < 2 ^ 32

namespace Stores

variable {set : ZSet} {tree : BinaryTree Addr} {members : Members}

theorem names_nodup (stores : Stores set tree members) :
    ((inorder tree).map fun x => (set.nodes x).name).Nodup := by
  refine (List.nodup_map_iff_inj_on stores.sound.holds.distinct).mpr ?_
  intro x memberX y memberY same
  exact stores.keyed.unique x memberX y memberY trivial same

theorem size_eq (stores : Stores set tree members) : tree.numNodes = members.keys.length := by
  have perm : ((inorder tree).map fun x => (set.nodes x).name).Perm members.keys := by
    refine (List.perm_ext_iff_of_nodup stores.names_nodup members.keys_nodup).mpr fun name => ?_
    rw [← AList.mem_keys, ← AList.lookup_isSome, Option.isSome_iff_exists]
    simp only [List.mem_map]
    constructor
    · rintro ⟨x, member, rfl⟩
      exact ⟨_, (stores.maps _ trivial _).mpr ⟨x, member, rfl, rfl⟩⟩
    · rintro ⟨score, found⟩
      obtain ⟨x, member, same, _⟩ := (stores.maps name trivial score).mp found
      exact ⟨x, member, same⟩
  simpa using perm.length_eq

theorem agreement (stores : Stores set tree members) : Agreement set tree members where
  linked := stores.sound.holds
  visited := stores.sound.tracks.visits
  names := stores.names_nodup
  increasing := by
    refine (stores.sound.sorted.and stores.sound.holds.distinct).imp_of_mem fun {x y} memberX memberY both => ?_
    refine lt_of_le_of_ne both.1 fun equal => both.2 ?_
    have names : word (set.nodes x).name = word (set.nodes y).name := congrArg (fun r : Rank => (ofLex r).2) equal
    exact stores.keyed.unique x memberX y memberY trivial (word_injective names)
  scores name score := stores.maps name trivial score

theorem call (stores : Stores set tree members) (call : Call) (legal : call.Legal members) :
    ∃ set' answer tree', call.run set = some (set', answer) ∧ Stores set' tree' (call.after members) ∧
      call.Answers set set' tree tree' members answer := by
  obtain ⟨sound, keyed, maps, few⟩ := id stores
  cases call with
  | add name copy score =>
      have room : tree.numNodes < MAX_OBJECTS := by
        rw [stores.size_eq]
        exact few.trans (by decide)
      obtain ⟨set', tree', result, sound', keyed', maps', step⟩ :=
        add_whole sound keyed maps name copy trivial legal.1 room
      refine ⟨set', .added (members.lookup name.bytes).isNone, tree', by simp only [Call.run, result, Option.map_some],
        ⟨sound', keyed', ?_, legal.2⟩, rfl, step⟩
      convert maps' using 1
      funext other
      by_cases same : other = name.bytes
      · subst same; simp [Call.after]
      · simp [Call.after, same, AList.lookup_insert_ne]
  | lookup name copy =>
      obtain ⟨s, found, result, sound', codes, hit, miss⟩ := lookup_whole sound keyed name copy trivial
      refine ⟨_, .node found, tree, by simp only [Call.run, result, Option.map_some],
        ⟨sound', keyed.setMap codes, maps.setMap s, few⟩, rfl, rfl, ?_⟩
      cases found with
      | some n =>
          obtain ⟨member, same⟩ := hit n rfl
          exact ⟨member, same, (maps _ trivial _).mpr ⟨n, member, same, rfl⟩⟩
      | none => exact (maps.none_iff trivial).mpr (miss rfl)
  | pop name copy =>
      obtain ⟨set', found, tree', result, sound', keyed', maps', nodes, hit, miss⟩ :=
        pop_whole sound keyed maps name copy trivial
      refine ⟨set', .node found, tree', by simp only [Call.run, result, Option.map_some],
        ⟨sound', keyed', ?_, ?_⟩, nodes, ?_⟩
      · convert maps' using 1
        funext other
        by_cases same : other = name.bytes
        · subst same; simp [Call.after]
        · simp [Call.after, same, AList.lookup_erase_ne]
      · have shorter : ((Call.pop name copy).after members).keys.length ≤ members.keys.length := by
          simp only [Call.after, AList.keys_erase]
          exact (@List.erase_sublist Bytes instBEqOfDecidableEq name.bytes members.keys).length_le
        omega
      · cases found with
        | some n => exact hit n rfl
        | none => exact miss rfl

end Stores

theorem Reached.stores {set : ZSet} {members : Members} (reached : Reached set members) :
    ∃ tree, Stores set tree members := by
  induction reached with
  | empty => exact ⟨.nil, initZSet_sound, ⟨by simp, by simp⟩, by simp [Maps], by decide⟩
  | @call set set' members call answer _ legal result ih =>
      obtain ⟨tree, stores⟩ := ih
      obtain ⟨next, reply, tree', run, stores', _⟩ := stores.call call legal
      cases result.symm.trans run
      exact ⟨tree', stores'⟩

/-- The sorted set keeps its two indexes in agreement and refines a finite map from names to scores. -/
theorem zset_refines_map {set : ZSet} {members : Members} (reached : Reached set members) :
    ∃ tree, Agreement set tree members ∧
      ∀ call : Call, call.Legal members →
        ∃ set' answer tree', call.run set = some (set', answer) ∧ Agreement set' tree' (call.after members) ∧
          call.Answers set set' tree tree' members answer := by
  obtain ⟨tree, stores⟩ := reached.stores
  refine ⟨tree, stores.agreement, fun call legal => ?_⟩
  obtain ⟨set', answer, tree', run, stores', answers⟩ := stores.call call legal
  exact ⟨set', answer, tree', run, stores'.agreement, answers⟩

def addAll (members : Members) (pairs : List (Bytes × Double)) : Members :=
  pairs.foldl (fun members pair => (Call.add ⟨pair.1, .guarded⟩ .guarded pair.2).after members) members

theorem Reached.addAll {set : ZSet} {members : Members} (reached : Reached set members) {pairs : List (Bytes × Double)}
    (numbers : ∀ pair ∈ pairs, pair.2.isNaN = false) (few : members.keys.length + pairs.length < 2 ^ 32) :
    ∃ set', Reached set' (addAll members pairs) := by
  induction pairs generalizing set members with
  | nil => exact ⟨set, reached⟩
  | cons pair pairs ih =>
      rw [List.length_cons] at few
      have grown : ((Call.add ⟨pair.1, .guarded⟩ .guarded pair.2).after members).keys.length ≤ members.keys.length + 1 := by
        rw [Call.after, AList.keys_insert, List.length_cons]
        exact Nat.succ_le_succ (@List.erase_sublist Bytes instBEqOfDecidableEq pair.1 members.keys).length_le
      obtain ⟨_, stores⟩ := reached.stores
      have legal : (Call.add ⟨pair.1, .guarded⟩ .guarded pair.2).Legal members :=
        ⟨numbers pair List.mem_cons_self, by omega⟩
      obtain ⟨set1, _, _, run, _, _⟩ := stores.call _ legal
      exact ih (reached.call legal run) (fun other member => numbers other (List.mem_cons_of_mem _ member))
        (show ((Call.add ⟨pair.1, .guarded⟩ .guarded pair.2).after members).keys.length + _ < _ by omega)

def threeNames : List (Bytes × Double) :=
  [([97], ⟨0x3FF0000000000000⟩), ([98], ⟨0x4000000000000000⟩), ([99], ⟨0x3FE0000000000000⟩), ([97], ⟨0x4008000000000000⟩)]

/-- The second of three members is taken out. -/
theorem zset_refines_map_three : ∃ set tree set' n tree', Reached set (addAll ∅ threeNames) ∧
    (addAll ∅ threeNames).keys.length = 3 ∧ (addAll ∅ threeNames).lookup [97] = some ⟨0x4008000000000000⟩ ∧
    Agreement set tree (addAll ∅ threeNames) ∧
    (Call.pop ⟨[98], .guarded⟩ .guarded).run set = some (set', .node (some n)) ∧ (set.nodes n).name = [98] ∧
    inorder tree' = (inorder tree).erase n ∧ Agreement set' tree' ((addAll ∅ threeNames).erase [98]) := by
  obtain ⟨set, reached⟩ := Reached.empty.addAll (show ∀ pair ∈ threeNames, pair.2.isNaN = false by decide) (by decide)
  obtain ⟨tree, agreement, calls⟩ := zset_refines_map reached
  obtain ⟨set', answer, tree', run, agreement', answers⟩ := calls (.pop ⟨[98], .guarded⟩ .guarded) trivial
  refine ⟨set, tree, set', ?_⟩
  cases answer with
  | added new => exact answers.elim
  | node found =>
      cases found with
      | none => exact absurd answers.2.1 (by decide)
      | some n => exact ⟨n, tree', reached, by decide, by decide, agreement, run, answers.2.2.1, answers.2.2.2, agreement'⟩

end Coxx.Zset
