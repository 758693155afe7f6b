import Coxx.Zset.Members

/-! Names as the commands pass them: cut at the first NUL byte, with the size of the whole name.

Names without NUL bytes are unaffected; a name with one makes a node whose copy holds the terminator,
so it never gets into the way of a name without.
-/

set_option autoImplicit false

namespace Coxx.Zset

open Library BinaryTree

def Clean (name : Bytes) : Prop := 0 ∉ name

instance (name : Bytes) : Decidable (Clean name) := inferInstanceAs (Decidable (0 ∉ name))

theorem read_cString {name copy : Bytes} {tail : Tail}
    (readable : CxxString.read ⟨cString name, tail⟩ name.length = some copy) (clean : Clean copy) :
    Clean name ∧ copy = name := by
  by_cases nul : 0 ∈ name
  · have far := length_cString_lt nul
    cases tail with
    | guarded =>
        rw [CxxString.read_guarded far] at readable
        cases readable
    | memory beyond => exact absurd (CxxString.terminator_mem far readable) clean
  · rw [cString_eq nul, CxxString.read_of_le (by simp)] at readable
    cases readable
    exact ⟨nul, by simp⟩

section Names

variable {set set' : ZSet} {tree : BinaryTree Addr} {name : Bytes} {tail copy : Tail}

theorem lookup_kept {found : Option Addr} (sound : Sound set tree) (keyed : Keyed Clean set tree)
    (result : lookup set ⟨cString name, tail⟩ copy name.length = some (set', found)) :
    ∃ s, set' = { set with map := s } ∧ Sound set' tree ∧ Keyed Clean set' tree ∧ Map.SameCodes set.map s ∧
      (∀ n, found = some n → n ∈ inorder tree) ∧
      (Clean name → found = none → ∀ n ∈ inorder tree, (set.nodes n).name ≠ name) := by
  by_cases clean : Clean name
  · have whole := lookup_whole sound keyed ⟨cString name, tail⟩ copy
      (show Clean (cString name) by rw [cString_eq clean]; exact clean)
    simp only [cString_eq clean] at whole result
    obtain ⟨s, found', result', sound', codes, hit, miss⟩ := whole
    cases result.symm.trans result'
    exact ⟨s, rfl, sound', keyed.setMap codes, codes, fun n here => (hit n here).1, fun _ => miss⟩
  · by_cases empty : set.tree.isNone = true
    · rw [lookup, if_pos empty] at result
      cases result
      exact ⟨set.map, rfl, sound, keyed, Map.SameCodes.refl _, by simp, fun wrong => absurd wrong clean⟩
    · rw [lookup, if_neg empty] at result
      rcases mapLookup_sound sound (makeKey ⟨cString name, tail⟩ copy name.length) with
        ⟨s, found', result', sound', codes, hit, _⟩ | ⟨fault, _⟩
      · cases result.symm.trans result'
        exact ⟨s, rfl, sound', keyed.setMap codes, codes, fun n here => (hit n here).1, fun wrong => absurd wrong clean⟩
      · cases result.symm.trans fault

theorem addNew_some {name : CxxString} {len : Nat} {score : Double} (sound : Sound set tree)
    (result : addNew set name len score = some set') :
    tree.numNodes < MAX_OBJECTS ∧ ∃ copy, name.read len = some copy := by
  simp only [addNew, create, sound.size_eq, Option.bind_eq_bind] at result
  split at result
  · simp at result
  · rename_i room
    cases readable : name.read len with
    | none => simp [readable] at result
    | some copy => exact ⟨by omega, copy, rfl⟩

/-- A key that was cut off equals no node whose length is that of the whole name, unless bytes behind it are read. -/
theorem mapCmp_nul {node : Addr} (nul : ¬Clean name) :
    mapCmp set (makeKey ⟨cString name, tail⟩ .guarded name.length) node ≠ some true := by
  unfold mapCmp makeKey
  simp only
  split
  · simp
  · rename_i same
    rw [not_not.mp same, CxxString.read_guarded (length_cString_lt (not_not.mp nul))]
    cases CxxString.read ⟨(set.nodes node).name, .guarded⟩ name.length <;> simp

/-- So a name with a NUL byte cannot be added without a read past its end: a comparison that would find it reads there,
and so does the copy of the name into a new node. -/
theorem add_nul {score : Double} (sound : Sound set tree) (nul : ¬Clean name) :
    add set ⟨cString name, .guarded⟩ .guarded name.length score = none := by
  have unreadable : CxxString.read ⟨cString name, .guarded⟩ name.length = none :=
    CxxString.read_guarded (length_cString_lt (not_not.mp nul))
  have stuck : ∀ set' : ZSet, addNew set' ⟨cString name, .guarded⟩ name.length score = none := by
    intro set'
    unfold addNew create
    rw [unreadable]
    split <;> rfl
  unfold add lookup
  split
  · simp only [Option.bind_eq_bind, Option.bind_some, stuck, Option.map_none]
  · rcases mapLookup_sound sound (makeKey ⟨cString name, .guarded⟩ .guarded name.length) with
      ⟨s, found, looked, _, _, hit, _⟩ | ⟨fault, _⟩
    · cases found with
      | none => simp only [looked, Option.bind_eq_bind, Option.bind_some, stuck, Option.map_none]
      | some n => exact absurd (hit n rfl).2.2 (mapCmp_nul nul)
    · rw [fault]
      rfl

theorem add_kept {score : Double} {new : Bool} (sound : Sound set tree) (keyed : Keyed Clean set tree)
    (number : score.isNaN = false)
    (result : add set ⟨cString name, tail⟩ copy name.length score = some (set', new)) :
    ∃ tree', Sound set' tree' ∧ Keyed Clean set' tree' := by
  simp only [add, Option.bind_eq_bind, Option.bind_eq_some_iff] at result
  obtain ⟨⟨set1, found⟩, looked, result⟩ := result
  obtain ⟨s, rfl, sound1, keyed1, _, hit, miss⟩ := lookup_kept sound keyed looked
  cases found with
  | some n =>
      obtain ⟨set2, tree', updated, sound', keyed', _, _⟩ := update_keyed sound1 keyed1 (hit n rfl) number
      simp only [updated, Option.map_some, Option.some.injEq, Prod.mk.injEq] at result
      obtain ⟨rfl, _⟩ := result
      exact ⟨tree', sound', keyed'⟩
  | none =>
      obtain ⟨set2, created, same⟩ := Option.map_eq_some_iff.mp result
      cases same
      obtain ⟨room, block, readable⟩ := addNew_some sound1 created
      obtain ⟨set3, tree', created', sound', keyed', _, _⟩ :=
        addNew_keyed sound1 keyed1 number room readable fun clean => by
          obtain ⟨cleanName, whole⟩ := read_cString readable clean
          refine ⟨by rw [whole]; exact (cString_eq cleanName).symm, ?_⟩
          rw [whole]
          exact miss cleanName rfl
      cases created.symm.trans created'
      exact ⟨tree', sound', keyed'⟩

theorem pop_kept {found : Option Addr} (sound : Sound set tree) (keyed : Keyed Clean set tree)
    (result : pop set ⟨cString name, tail⟩ copy name.length = some (set', found)) :
    ∃ tree', Sound set' tree' ∧ Keyed Clean set' tree' := by
  by_cases empty : set.tree.isNone = true
  · rw [pop, if_pos empty] at result
    cases result
    exact ⟨tree, sound, keyed⟩
  · rw [pop, if_neg empty] at result
    rcases mapPop_sound sound (makeKey ⟨cString name, tail⟩ copy name.length) with
      ⟨s, found', popped, codes, hit, miss⟩ | ⟨fault, _⟩
    · simp only [popped, Option.bind_eq_bind, Option.bind_some] at result
      cases found' with
      | none =>
          cases result
          exact ⟨tree, sound.setMap (miss rfl).2, keyed.setMap codes⟩
      | some n =>
          obtain ⟨member, _, _, tracks⟩ := hit n rfl
          obtain ⟨h, root, tree', deleted, sound', order⟩ := popped_sound sound member tracks
          simp only [deleted, Option.map_some, Option.some.injEq, Prod.mk.injEq] at result
          obtain ⟨rfl, _⟩ := result
          exact ⟨tree', sound', keyed.erase order rfl codes⟩
    · simp [fault] at result

end Names

end Coxx.Zset
