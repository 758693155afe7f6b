import Coxx.Common.Database

/-! What each command answers and what it does to the keys and values. -/

set_option autoImplicit false

namespace Coxx.Common

open Library Zset

/-! ### The walk over the tables -/

section Scan

variable {nodes : Map.Nodes} {table : Map.CTable} {chains : List (List Addr)} {visit : Bytes → Addr → Bytes}

theorem scanChain_eq (visit : Bytes → Addr → Bytes) (arg : Bytes) {chain : List Addr} {node : Option Addr} {fuel : Nat}
    (linked : Linked (Map.nextOf nodes) node chain) (enough : chain.length ≤ fuel) :
    scanChain fuel nodes visit node arg = some (chain.foldl visit arg) := by
  induction chain generalizing node fuel arg with
  | nil =>
      cases linked
      rw [scanChain.eq_def]
      rfl
  | cons cell chain ih =>
      obtain ⟨rfl, rest⟩ := linked
      obtain ⟨fuel, rfl⟩ : ∃ rest, fuel = rest + 1 := ⟨fuel - 1, by simp only [List.length_cons] at enough; omega⟩
      rw [scanChain.eq_def]
      exact ih _ rest (by simp only [List.length_cons] at enough; omega)

theorem scanSlots_eq {slots : List (Option Addr)} (rep : Map.Allocated nodes table slots chains) {left i : Nat}
    {arg : Bytes} (all : i + left = table.mask + 1) :
    scanSlots left nodes table visit i arg = some ((chains.drop i).flatten.foldl visit arg) := by
  induction left generalizing i arg with
  | zero =>
      have done : chains.length ≤ i := by rw [rep.paired, rep.width]; omega
      rw [scanSlots, List.drop_eq_nil_of_le done]
      rfl
  | succ left ih =>
      obtain ⟨head, chain, slot, here, linked⟩ := rep.slot (i := i) (by omega)
      have short := length_slot_le here
      rw [← rep.size] at short
      have bound := (List.getElem?_eq_some_iff.mp here).1
      have split : chains.drop i = chain :: chains.drop (i + 1) := by
        rw [List.drop_eq_getElem_cons bound, (List.getElem?_eq_some_iff.mp here).2]
      simp only [scanSlots, rep.array, slot, Option.bind_eq_bind, Option.bind_some,
        scanChain_eq visit arg linked short]
      rw [ih (by omega), split, List.flatten_cons, List.foldl_append]

theorem scan_eq (rep : Map.TableRep nodes table chains) (arg : Bytes) :
    scan nodes table visit arg = some (chains.flatten.foldl visit arg) := by
  have size := rep.size_eq
  unfold scan
  split
  · rename_i empty
    rw [empty] at size
    rw [List.eq_nil_of_length_eq_zero size.symm]
    rfl
  · rename_i filled
    rcases rep with ⟨rfl, rfl⟩ | ⟨slots, rep⟩
    · simp [Map.initTable] at filled
    · exact scanSlots_eq rep (by omega)

end Scan

section Answers

variable {cm : CommandMap} {present : List Addr} {values : Bytes → Option Bytes}

theorem keys_sound (sound : Sound cm present) (output : Bytes) :
    ∃ order : List Addr, order.Perm present ∧
      Request.keys cm output = some (cm, order.foldl (Request.keyScan cm) (Out.arr output present.length)) := by
  obtain ⟨few, newer, older, rep, same⟩ := sound.tracks
  refine ⟨newer.flatten ++ older.flatten, same, ?_⟩
  simp only [Request.keys, Map.Tracks.size_eq ⟨few, newer, older, rep, same⟩, scan_eq rep.table1, scan_eq rep.table2,
    Option.bind_eq_bind, Option.bind_some, List.foldl_append]

def getAnswer (value : Option Bytes) (output : Bytes) : Bytes :=
  match value with
  | none => Out.nil output
  | some val => Out.str output val

theorem get_sound (sound : Sound cm present) (view : Values cm present values) (key output : Bytes) :
    ∃ s, Request.get cm key output = some ({ cm with db := s }, getAnswer (values key) output) ∧
      Sound { cm with db := s } present := by
  obtain ⟨s, found, result, sound', hit, miss⟩ := lookup_sound sound key
  cases found with
  | none =>
      have absent := (view.none_iff key).mpr (miss rfl)
      exact ⟨s, by simp [Request.get, result, absent, getAnswer], sound'⟩
  | some n =>
      obtain ⟨member, same⟩ := hit n rfl
      have there : values key = some (cm.entries n).val := (view key _).mpr ⟨n, member, same, rfl⟩
      exact ⟨s, by simp [Request.get, result, there, getAnswer], sound'⟩

theorem insert_room (sound : Sound cm present) {entry : Entry} {cm' : CommandMap}
    (result : Request.insert cm entry = some cm') : present.length < MAX_OBJECTS := by
  rw [Request.insert, sound.tracks.size_eq] at result
  split at result
  · cases result
  · omega

theorem set_sound (sound : Sound cm present) (view : Values cm present values) (key val output : Bytes)
    (room : values key = none → present.length < MAX_OBJECTS) :
    ∃ cm' present', Request.set cm key val output = some (cm', Out.nil output) ∧ Sound cm' present' ∧
      Values cm' present' (Function.update values key (some val)) := by
  obtain ⟨s, found, result, sound', hit, miss⟩ := lookup_sound sound key
  cases found with
  | none =>
      have absent := (view.none_iff key).mpr (miss rfl)
      obtain ⟨s', inserted, sound''⟩ := insert_sound sound' (entrySound_str key val) (miss rfl) (room absent)
      refine ⟨_, _, by simp [Request.set, result, inserted], sound'', ?_⟩
      exact insert_values sound' view (miss rfl)
  | some n =>
      obtain ⟨member, same⟩ := hit n rfl
      have kept : EntrySound { cm.entries n with val := val } := ⟨(sound.entries n member).typed, (sound.entries n member).sets⟩
      refine ⟨_, present, by simp [Request.set, result], setEntry_sound sound' kept rfl, ?_⟩
      rw [← same]
      exact setEntry_values sound' view member rfl

/-- `expectZSet` only migrates; it returns an entry of type ZSET, or has written NIL or an error. -/
theorem expectZSet_sound (sound : Sound cm present) (s output : Bytes) :
    ∃ db output' entry, Request.expectZSet cm s output = some ({ cm with db := db }, output', entry) ∧
      Sound { cm with db := db } present ∧
      (∀ n, entry = some n → n ∈ present ∧ (cm.entries n).key = s ∧ (cm.entries n).type = .ZSET ∧ output' = output) ∧
      (entry = none → output' = Out.nil output ∨
        output' = Out.err output Error.TYPE.code (text "expect zset")) := by
  obtain ⟨db, found, result, sound', hit, miss⟩ := lookup_sound sound s
  cases found with
  | none => exact ⟨db, Out.nil output, none, by simp [Request.expectZSet, result], sound', by simp, by simp⟩
  | some n =>
      obtain ⟨member, same⟩ := hit n rfl
      by_cases typed : (cm.entries n).type = .ZSET
      · refine ⟨db, output, some n, by simp [Request.expectZSet, result, typed], sound', ?_, by simp⟩
        rintro _ ⟨⟩
        exact ⟨member, same, typed, rfl⟩
      · exact ⟨db, Out.err output Error.TYPE.code (text "expect zset"), none,
          by simp [Request.expectZSet, result, typed], sound', by simp, by simp⟩

theorem addMember_kept (sound : Sound cm present) {around : Surroundings} {node : Addr} {score : Double}
    {name output out : Bytes} {cm' : CommandMap} (member : node ∈ present) (number : score.isNaN = false)
    (result : Request.addMember cm around node score name output = some (cm', out)) :
    ∃ (set : ZSet) (added : Bool), cm' = Request.setZSet cm node set ∧ Sound cm' present ∧
      out = Out.num output (if added then 1 else 0) := by
  simp only [Request.addMember, Option.bind_eq_bind, Option.bind_eq_some_iff] at result
  obtain ⟨set, here, ⟨set', added⟩, done, same⟩ := result
  cases same
  obtain ⟨tree, setSound, keyed⟩ := (sound.entries node member).sets set here
  obtain ⟨tree', setSound', keyed'⟩ := add_kept setSound keyed number done
  exact ⟨set', added, rfl, setZSet_sound sound setSound' keyed', rfl⟩

end Answers

/-! ### Replies -/

/-- The state after a command, and the one value of its reply. -/
structure Kept (cm : CommandMap) (values : Bytes → Option Bytes) (out : Bytes) : Prop where
  state : ∃ present, Sound cm present ∧ Values cm present values
  reply : ∃ value : Value, out = value.encoded ∧ value.Ranged

theorem ranged_error (error : Error) (msg : Bytes) : (Value.err error.code msg).Ranged := by
  cases error <;> exact ⟨by decide, by decide⟩

theorem ranged_flag (flag : Bool) : (Value.int (if flag then 1 else 0)).Ranged := by
  cases flag <;> exact ⟨by decide, by decide⟩

theorem foldl_keyScan (cm : CommandMap) (order : List Addr) (output : Bytes) :
    order.foldl (Request.keyScan cm) output =
      output ++ Value.encodedAll (order.map fun x => .str (cm.entries x).key) := by
  induction order generalizing output with
  | nil => simp [Value.encodedAll]
  | cons x order ih =>
      rw [List.foldl_cons, ih]
      simp [Request.keyScan, Out.str, Value.encodedAll, Value.encoded]

/-- The loop of `zquery` appends values, and counts them in 32 bits; the first two are those of the node. -/
theorem outputMembers_values {fuel : Nat} {set : ZSet} {limit : Int} {node : Option Addr} {n n' : Nat}
    {output output' : Bytes} (result : Request.outputMembers fuel set limit node n output = some (output', n'))
    (small : n < 2 ^ 32) :
    ∃ items : List Value, output' = output ++ Value.encodedAll items ∧ n' = (n + items.length) % 2 ^ 32 ∧
      Value.RangedAll items ∧ ∀ x, node = some x → (n : Int) < limit →
        ∃ rest, items = .str (set.nodes x).name :: .dbl (set.nodes x).score :: rest := by
  have same (output : Bytes) : output = output ++ Value.encodedAll [] := (List.append_nil output).symm
  have count {n : Nat} (small : n < 2 ^ 32) : n = (n + ([] : List Value).length) % 2 ^ 32 := (Nat.mod_eq_of_lt small).symm
  induction fuel generalizing node n output with
  | zero =>
      rw [Request.outputMembers.eq_def] at result
      cases node with
      | none =>
          cases result
          exact ⟨[], same _, count small, trivial, by simp⟩
      | some node =>
          simp only at result
          split at result
          · cases result
          · rename_i done
            cases result
            exact ⟨[], same _, count small, trivial, fun _ _ more => absurd more done⟩
  | succ fuel ih =>
      rw [Request.outputMembers.eq_def] at result
      cases node with
      | none =>
          cases result
          exact ⟨[], same _, count small, trivial, by simp⟩
      | some node =>
          simp only [Option.bind_eq_bind] at result
          split at result
          · obtain ⟨next, _, rest⟩ := Option.bind_eq_some_iff.mp result
            obtain ⟨items, same, count, ranged, _⟩ := ih rest (Nat.mod_lt _ (by decide))
            refine ⟨.str (set.nodes node).name :: .dbl (set.nodes node).score :: items, ?_, ?_, ⟨trivial, trivial, ranged⟩, ?_⟩
            · rw [same]
              simp [Out.str, Out.dbl, Value.encodedAll, Value.encoded]
            · rw [count]
              simp only [List.length_cons]
              omega
            · rintro _ ⟨⟩ _
              exact ⟨items, rfl⟩
          · rename_i done
            cases result
            exact ⟨[], same _, count small, trivial, fun _ _ more => absurd more done⟩

theorem end_arr_encoded (items : List Value) :
    Out.end_arr ((Out.begin_arr []).1 ++ Value.encodedAll items) (Out.begin_arr []).2 (items.length % 2 ^ 32) =
      some (Value.arr items).encoded := by
  have count : encode 4 (items.length % 2 ^ 32) = encode 4 items.length := encode_mod 4 items.length
  unfold Out.end_arr
  rw [if_pos, count]
  · rfl
  · refine ⟨by decide, rfl, ?_⟩
    rw [List.length_append]
    exact Nat.le_add_right 5 _

theorem queryMembers_value {set : ZSet} {around : Surroundings} {score : Double} {name : Bytes} {off limit : Int}
    {out : Bytes} (result : Request.queryMembers set around score name off limit [] = some out) :
    ∃ items : List Value, out = (Value.arr items).encoded ∧ Value.RangedAll items := by
  simp only [Request.queryMembers, Option.bind_eq_bind, Option.bind_eq_some_iff] at result
  obtain ⟨_, _, node, _, ⟨output, n⟩, listed, ended⟩ := result
  obtain ⟨items, rfl, rfl, ranged, _⟩ := outputMembers_values listed (by decide)
  rw [Nat.zero_add, end_arr_encoded] at ended
  cases ended
  exact ⟨items, rfl, ranged⟩

end Coxx.Common
