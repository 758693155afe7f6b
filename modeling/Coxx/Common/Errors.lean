import Coxx.Common.Connection
import Coxx.Common.Queries
import Coxx.Common.Runs
import Mathlib.Data.Multiset.MapFold

/-! A command that is answered by an error has changed nothing. -/

set_option autoImplicit false

namespace Coxx.Common

open Library Zset

def HasMembers : Option ZSet → Multiset Member → Prop
  | none, members => members = 0
  | some set, members => ∃ visited, Map.Visits set.map visited ∧ members = visited.map (memberOf set)

def Contains (cm : CommandMap) (key : Bytes) (type : KeyType) (val : Bytes) (members : Multiset Member) : Prop :=
  ∃ visited, Map.Visits cm.db visited ∧ ∃ x ∈ visited, (cm.entries x).key = key ∧ (cm.entries x).type = type ∧
    (cm.entries x).val = val ∧ HasMembers (cm.entries x).set members

def SameContents (cm cm' : CommandMap) : Prop :=
  ∀ key type val members, Contains cm' key type val members ↔ Contains cm key type val members

/-- Only the nodes of the map have moved between its tables. -/
structure Migrated (cm cm' : CommandMap) : Prop where
  entries : cm'.entries = cm.entries
  present : ∃ present, Sound cm present ∧ Sound cm' present

theorem Migrated.sameContents {cm cm' : CommandMap} (migrated : Migrated cm cm') : SameContents cm cm' := by
  obtain ⟨present, sound, sound'⟩ := migrated.present
  intro key type val members
  unfold Contains
  rw [migrated.entries]
  constructor
  · rintro ⟨visited, visits, x, member, held⟩
    obtain ⟨visited', visits', _, same⟩ := sound.tracks.visits
    exact ⟨visited', visits', x, same.mem_iff.mpr ((sound'.visits visits).mem_iff.mp member), held⟩
  · rintro ⟨visited, visits, x, member, held⟩
    obtain ⟨visited', visits', _, same⟩ := sound'.tracks.visits
    exact ⟨visited', visits', x, same.mem_iff.mpr ((sound.visits visits).mem_iff.mp member), held⟩

/-! ### Replies that are no errors -/

/-- A reply that is neither an error nor replaced by one. -/
def Fine (output : Bytes) : Prop := isError (packed output) = false

theorem fine_of_short {output : Bytes} (short : output.length ≤ 4092) (plain : isError output = false) : Fine output := by
  unfold Fine packed MAX_MESSAGE_SIZE
  rw [if_neg (by omega)]
  exact plain

theorem fine_nil : Fine (Out.nil []) := fine_of_short (by decide) rfl

theorem fine_num (value : Int) : Fine (Out.num [] value) :=
  fine_of_short (by simp [Out.num, signed]) rfl

theorem fine_dbl (value : Double) : Fine (Out.dbl [] value) :=
  fine_of_short (by simp [Out.dbl]) rfl

theorem Plain.fine {out : Bytes} (plain : Plain out) : Fine out := by
  cases plain with
  | nil => exact fine_nil
  | flag flag => exact fine_num (if flag then 1 else 0)
  | dbl score => exact fine_dbl score

section Commands

variable {cm cm' : CommandMap} {present : List Addr} {around : Surroundings} {key out : Bytes}

/-- A command that only looks its key up has migrated nodes; one that has found its set answers with no error. -/
theorem ZSetStep.fine (step : ZSetStep cm present cm' out) (sound : Sound cm present) : Fine out ∨ Migrated cm cm' := by
  cases step with
  | looked sound' _ => exact .inr ⟨rfl, present, sound, sound'⟩
  | replaced _ plain => exact .inl plain.fine

theorem ZAddStep.fine {score : Option Double} (step : ZAddStep cm present key score cm' out) (sound : Sound cm present) :
    Fine out ∨ Migrated cm cm' := by
  cases step with
  | refused => exact .inr ⟨rfl, present, sound, sound⟩
  | found _ _ step => exact step.fine sound
  | created _ _ _ => exact .inl (fine_num _)

theorem run_error (sound : Sound cm present) {values : Bytes → Option Bytes} (view : Values cm present values)
    (c : Request.Command) (result : c.run cm around [] = some (cm', out)) : Fine out ∨ Migrated cm cm' := by
  cases c with
  | keys =>
      obtain ⟨_, _, done⟩ := keys_sound sound []
      cases result.symm.trans done
      exact .inr ⟨rfl, present, sound, sound⟩
  | get key =>
      obtain ⟨db, done, sound'⟩ := get_sound sound view key []
      cases result.symm.trans done
      exact .inr ⟨rfl, present, sound, sound'⟩
  | set key val =>
      obtain ⟨_, rfl⟩ := set_step sound result
      exact .inl fine_nil
  | del key =>
      obtain ⟨_, _, done, _⟩ := del_sound sound view key []
      cases result.symm.trans done
      exact .inl (fine_num _)
  | zadd key score name => exact (zadd_step sound result).fine sound
  | zrem key name => exact (zrem_step sound result).fine sound
  | zscore key name => exact (zscore_step sound result).fine sound
  | zquery key score name off limit =>
      -- its reply may be too big, but it has only looked its key up
      obtain ⟨s, value, sound', rfl, rfl, _⟩ := zquery_looked sound result
      exact .inr ⟨rfl, present, sound, sound'⟩
  | unknown =>
      cases result
      exact .inr ⟨rfl, present, sound, sound⟩

end Commands

/-- When the reply in the write buffer is an error, that of a reply which was too big included, keys, strings and members
are what they were. -/
theorem error_changes_nothing {cm cm' : CommandMap} {around : Surroundings} {commandList : List Bytes} {output : Bytes}
    (reachable : Reachable cm) (result : Request.run cm around commandList [] = some (cm', output))
    (error : isError (packed output) = true) : SameContents cm cm' := by
  obtain ⟨present, values, sound, view⟩ := reachable.sound
  rcases run_error sound view _ result with fine | migrated
  · rw [fine] at error
    cases error
  · exact migrated.sameContents

/-- In a database with a string and a sorted set, the string is asked to take a member. -/
theorem error_changes_nothing_sample : ∃ cm trace cm' output,
    runAll initCommandMap sample = some (cm, trace) ∧
      Request.run cm ⟨.guarded, .guarded⟩ [text "zadd", text "s", text "1", text "m"] [] = some (cm', output) ∧
      isError (packed output) = true ∧ SameContents cm cm' := by
  obtain ⟨cm, trace, made, reachable⟩ := sample_reachable
  have evaluated : ((runAll initCommandMap sample).bind fun after => Request.run after.1 ⟨.guarded, .guarded⟩
      [text "zadd", text "s", text "1", text "m"] []).map (fun result => isError (packed result.2)) = some true := by
    decide +kernel
  rw [made, Option.bind_some] at evaluated
  obtain ⟨⟨cm', output⟩, result, error⟩ := Option.map_eq_some_iff.mp evaluated
  exact ⟨cm, trace, cm', output, made, result, error, error_changes_nothing reachable result error⟩

end Coxx.Common
