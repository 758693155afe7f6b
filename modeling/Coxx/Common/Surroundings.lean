import Coxx.Common.Members

/-! What lies behind the strings of a command in memory, which a command looks at when it hands a sorted set a name with a
NUL byte, and only then.
-/

set_option autoImplicit false

namespace Coxx

/-! ### Sorted sets -/

namespace Zset

section

variable (set : ZSet) (name : Bytes) (tail tail' copy copy' : Tail)

theorem mapCmp_tail {key key' : Key} (whole : key.len = key.name.bytes.length) (len : key'.len = key.len)
    (bytes : key'.name.bytes = key.name.bytes) (node : Addr) : mapCmp set key node = mapCmp set key' node := by
  simp only [mapCmp, len]
  by_cases other : (set.nodes node).len ≠ key.len
  · rw [if_pos other, if_pos other]
  · have read : key.name.read key.len = key'.name.read key.len := by
      rw [CxxString.read_of_le whole.le, CxxString.read_of_le (by rw [bytes]; exact whole.le), bytes]
    rw [if_neg other, if_neg other, Decidable.not_not.mp other, read]

theorem mapCmp_makeKey : mapCmp set (makeKey ⟨name, tail⟩ copy name.length) =
    mapCmp set (makeKey ⟨name, tail'⟩ copy' name.length) :=
  funext (mapCmp_tail set rfl rfl rfl)

theorem lookup_tail : lookup set ⟨name, tail⟩ copy name.length = lookup set ⟨name, tail'⟩ copy' name.length := by
  have same := mapCmp_makeKey set name tail tail' copy copy'
  simp only [lookup, mapLookup, same]
  rfl

theorem pop_tail : pop set ⟨name, tail⟩ copy name.length = pop set ⟨name, tail'⟩ copy' name.length := by
  have same := mapCmp_makeKey set name tail tail' copy copy'
  simp only [pop, mapPop, same]
  rfl

theorem add_tail (score : Double) :
    add set ⟨name, tail⟩ copy name.length score = add set ⟨name, tail'⟩ copy' name.length score := by
  have created (set : ZSet) : create set ⟨name, tail⟩ name.length score = create set ⟨name, tail'⟩ name.length score := by
    unfold create
    rw [CxxString.read_tail (le_refl name.length) tail tail']
  simp only [add, lookup_tail set name tail tail' copy copy', addNew, created]

theorem lessThan_tail (node : ZNode) (score : Double) :
    lessThan node score ⟨name, tail⟩ name.length = lessThan node score ⟨name, tail'⟩ name.length := by
  unfold lessThan
  rw [CxxString.read_tail (Nat.min_le_right node.len name.length) tail tail']

theorem query_tail (score : Double) :
    query set score ⟨name, tail⟩ name.length = query set score ⟨name, tail'⟩ name.length := by
  have loop (fuel : Nat) (curr found : Option Addr) : queryFrom fuel set score ⟨name, tail⟩ name.length curr found =
      queryFrom fuel set score ⟨name, tail'⟩ name.length curr found := by
    induction fuel generalizing curr found with
    | zero => cases curr <;> rfl
    | succ fuel ih =>
        cases curr with
        | none => rfl
        | some curr => simp only [queryFrom, lessThan_tail name tail tail', ih]
  exact loop _ _ _

end

end Zset

namespace Common

open Zset Request

/-! ### Commands -/

/-- The command hands a sorted set a name with a NUL byte. `zadd` makes a set for a key that is not there. -/
def Request.Command.Spills (cm : CommandMap) : Command → Prop
  | .zadd key score name => ¬Clean name ∧ (strToDouble score).isSome ∧
      ((∃ cm', Request.lookup cm key = some (cm', none)) ∨ IsZSet cm key)
  | .zrem key name | .zscore key name => ¬Clean name ∧ IsZSet cm key
  | .zquery key score name off limit => ¬Clean name ∧ (strToDouble score).isSome ∧ (strToInt off).isSome ∧
      (∃ count, strToInt limit = some count ∧ 0 < count) ∧ IsZSet cm key
  | _ => False

theorem Request.Command.not_spills_of_clean {c : Command} (clean : ∀ name ∈ c.names, Clean name) (cm : CommandMap) :
    ¬c.Spills cm := by
  cases c <;> simp_all [Command.Spills, Command.names]

section Commands

variable {cm : CommandMap} {key name : Bytes}

theorem addMember_around (clean : Clean name) (cm : CommandMap) (around around' : Surroundings) (node : Addr)
    (score : Double) (output : Bytes) :
    Request.addMember cm around node score name output = Request.addMember cm around' node score name output := by
  simp only [Request.addMember, cString_eq clean]
  congr 1
  funext set
  rw [add_tail set name around.name around'.name around.copy around'.copy]

theorem zadd_around {score : Bytes} (kept : ¬(Command.zadd key score name).Spills cm) (around around' : Surroundings) :
    Request.zadd cm around key score name [] = Request.zadd cm around' key score name [] := by
  by_cases clean : Clean name
  · simp only [Request.zadd, addMember_around clean _ around around']
  · cases parsed : strToDouble score with
    | none => simp only [Request.zadd, parsed]
    | some number =>
        simp only [Command.Spills, parsed, Option.isSome_some, true_and, not_and, not_or] at kept
        obtain ⟨present, string⟩ := kept clean
        cases looked : Request.lookup cm key with
        | none => simp [Request.zadd, parsed, looked]
        | some result =>
            obtain ⟨cm', _ | node⟩ := result
            · exact absurd ⟨cm', looked⟩ present
            · by_cases other : (cm'.entries node).type ≠ .ZSET
              · simp [Request.zadd, parsed, looked, other]
              · exact absurd ⟨cm', [], node, by simp [Request.expectZSet, looked, Decidable.not_not.mp other]⟩ string

theorem expectZSet_none (missing : ¬IsZSet cm key) {result : CommandMap × Bytes × Option Addr}
    (expected : Request.expectZSet cm key [] = some result) : result.2.2 = none := by
  obtain ⟨cm', output, _ | node⟩ := result
  · rfl
  · exact absurd ⟨cm', output, node, expected⟩ missing

theorem zrem_around (kept : ¬(Command.zrem key name).Spills cm) (around around' : Surroundings) :
    Request.zrem cm around key name [] = Request.zrem cm around' key name [] := by
  by_cases clean : Clean name
  · simp only [Request.zrem, cString_eq clean, pop_tail _ name around.name around'.name around.copy around'.copy]
  · cases expected : Request.expectZSet cm key [] with
    | none => simp [Request.zrem, expected]
    | some result => simp [Request.zrem, expected, expectZSet_none (fun zset => kept ⟨clean, zset⟩) expected]

theorem zscore_around (kept : ¬(Command.zscore key name).Spills cm) (around around' : Surroundings) :
    Request.zscore cm around key name [] = Request.zscore cm around' key name [] := by
  by_cases clean : Clean name
  · simp only [Request.zscore, cString_eq clean, lookup_tail _ name around.name around'.name around.copy around'.copy]
  · cases expected : Request.expectZSet cm key [] with
    | none => simp [Request.zscore, expected]
    | some result => simp [Request.zscore, expected, expectZSet_none (fun zset => kept ⟨clean, zset⟩) expected]

theorem zquery_around {score off limit : Bytes} (kept : ¬(Command.zquery key score name off limit).Spills cm)
    (around around' : Surroundings) :
    Request.zquery cm around key score name off limit [] = Request.zquery cm around' key score name off limit [] := by
  by_cases clean : Clean name
  · simp only [Request.zquery, queryMembers, cString_eq clean, query_tail _ name around.name around'.name]
  · cases parsed : strToDouble score with
    | none => simp only [Request.zquery, parsed]
    | some number =>
        cases offParsed : strToInt off with
        | none => simp only [Request.zquery, parsed, offParsed]
        | some places =>
            cases limitParsed : strToInt limit with
            | none => simp only [Request.zquery, parsed, offParsed, limitParsed]
            | some count =>
                by_cases positive : 0 < count
                · cases expected : Request.expectZSet cm key [] with
                  | none => simp [Request.zquery, parsed, offParsed, limitParsed, expected]
                  | some result =>
                      have missing : ¬IsZSet cm key := fun zset => kept ⟨clean, by simp [parsed], by simp [offParsed],
                        ⟨count, limitParsed, positive⟩, zset⟩
                      simp [Request.zquery, parsed, offParsed, limitParsed, expected, expectZSet_none missing expected]
                · simp only [Request.zquery, parsed, offParsed, limitParsed, if_pos (not_lt.mp positive)]

theorem run_around {commandList : List Bytes} (kept : ¬(Request.command commandList).Spills cm)
    (around around' : Surroundings) : Request.run cm around commandList [] = Request.run cm around' commandList [] := by
  unfold Request.run
  generalize Request.command commandList = c at kept
  cases c with
  | zadd key score name => exact zadd_around kept around around'
  | zrem key name => exact zrem_around kept around around'
  | zscore key name => exact zscore_around kept around around'
  | zquery key score name off limit => exact zquery_around kept around around'
  | keys | get | set | del | unknown => rfl

end Commands

end Common

end Coxx
