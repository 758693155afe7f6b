import Coxx.Common.Commands

/-! What `set` and the commands on sorted sets may do to the entries, read off their results. -/

set_option autoImplicit false

namespace Coxx.Common

open Library Zset

def withEntry (cm : CommandMap) (s : Map.Store) (entry : Entry) : CommandMap where
  db := s
  entries := Function.update cm.entries cm.fresh entry
  fresh := cm.fresh + 1

inductive SetStep (cm : CommandMap) (present : List Addr) (key val : Bytes) : CommandMap → Prop where
  | changed {s : Map.Store} {n : Addr} (before : Sound { cm with db := s } present) (member : n ∈ present)
      (named : (cm.entries n).key = key) :
      SetStep cm present key val (Request.setEntry { cm with db := s } n { cm.entries n with val := val })
  | created {s s' : Map.Store} (before : Sound { cm with db := s } present)
      (absent : ∀ n ∈ present, (cm.entries n).key ≠ key)
      (sound : Sound (withEntry cm s' ⟨key, .STR, val, none⟩) (cm.fresh :: present)) :
      SetStep cm present key val (withEntry cm s' ⟨key, .STR, val, none⟩)

/-- The replies of a command that works on a sorted set. -/
inductive Plain : Bytes → Prop where
  | nil : Plain (Out.nil [])
  | flag (flag : Bool) : Plain (Out.num [] (if flag then 1 else 0))
  | dbl (score : Double) : Plain (Out.dbl [] score)

/-- A command on sorted sets looks its key up, and replaces the set of its entry at most. -/
inductive ZSetStep (cm : CommandMap) (present : List Addr) : CommandMap → Bytes → Prop where
  | looked {s : Map.Store} {value : Value} (sound : Sound { cm with db := s } present) (ranged : value.Ranged) :
      ZSetStep cm present { cm with db := s } value.encoded
  | replaced {s : Map.Store} {n : Addr} {set : ZSet} {out : Bytes}
      (sound : Sound (Request.setZSet { cm with db := s } n set) present) (plain : Plain out) :
      ZSetStep cm present (Request.setZSet { cm with db := s } n set) out

/-- `zadd` is such a command where its key is live. Otherwise it makes an entry. -/
inductive ZAddStep (cm : CommandMap) (present : List Addr) (key : Bytes) :
    Option Double → CommandMap → Bytes → Prop where
  | refused : ZAddStep cm present key none cm (Out.err [] Error.ARG.code (text "expect fp number"))
  | found {score : Double} {cm' : CommandMap} {out : Bytes} {n : Addr} (member : n ∈ present)
      (named : (cm.entries n).key = key) (step : ZSetStep cm present cm' out) :
      ZAddStep cm present key (some score) cm' out
  | created {score : Double} {s s' : Map.Store} {set : ZSet} {added : Bool} (before : Sound { cm with db := s } present)
      (absent : ∀ n ∈ present, (cm.entries n).key ≠ key)
      (sound : Sound (withEntry cm s' ⟨key, .ZSET, [], some set⟩) (cm.fresh :: present)) :
      ZAddStep cm present key (some score) (withEntry cm s' ⟨key, .ZSET, [], some set⟩)
        (Out.num [] (if added then 1 else 0))

section Inversion

variable {cm cm' : CommandMap} {present : List Addr} {around : Surroundings} {key name out : Bytes}

theorem inserted_sound (sound : Sound cm present) {entry : Entry} (entrySound : EntrySound entry)
    (new : ∀ n ∈ present, (cm.entries n).key ≠ entry.key) (result : Request.insert cm entry = some cm') :
    ∃ s, cm' = withEntry cm s entry ∧ Sound (withEntry cm s entry) (cm.fresh :: present) := by
  obtain ⟨s, inserted, sound'⟩ := insert_sound sound entrySound new (insert_room sound result)
  cases result.symm.trans inserted
  exact ⟨s, rfl, sound'⟩

theorem set_step (sound : Sound cm present) {val : Bytes} (result : Request.set cm key val [] = some (cm', out)) :
    SetStep cm present key val cm' ∧ out = Out.nil [] := by
  obtain ⟨s, found, looked, sound', hit, miss⟩ := lookup_sound sound key
  simp only [Request.set, looked, Option.bind_eq_bind, Option.bind_some] at result
  cases found with
  | some n =>
      obtain ⟨member, named⟩ := hit n rfl
      cases result
      exact ⟨.changed sound' member named, rfl⟩
  | none =>
      obtain ⟨cm1, inserted, same⟩ := Option.bind_eq_some_iff.mp result
      cases same
      obtain ⟨s', rfl, sound''⟩ := inserted_sound sound' (entrySound_str key val) (miss rfl) inserted
      exact ⟨.created sound' (miss rfl) sound'', rfl⟩

theorem expectZSet_reply {output : Bytes} (missing : output = Out.nil [] ∨
    output = Out.err [] Error.TYPE.code (text "expect zset")) :
    ∃ value : Value, output = value.encoded ∧ value.Ranged := by
  rcases missing with rfl | rfl
  · exact ⟨.nil, rfl, trivial⟩
  · exact ⟨.err Error.TYPE.code (text "expect zset"), rfl, ranged_error _ _⟩

theorem zadd_step (sound : Sound cm present) {score : Bytes}
    (result : Request.zadd cm around key score name [] = some (cm', out)) :
    ZAddStep cm present key (strToDouble score) cm' out := by
  cases parsed : strToDouble score with
  | none =>
      simp only [Request.zadd, parsed, Option.some.injEq, Prod.mk.injEq] at result
      obtain ⟨rfl, rfl⟩ := result
      exact .refused
  | some number =>
      have isNumber := strToDouble_number parsed
      obtain ⟨s, found, looked, sound', hit, miss⟩ := lookup_sound sound key
      simp only [Request.zadd, parsed, looked, Option.bind_eq_bind, Option.bind_some] at result
      cases found with
      | none =>
          obtain ⟨cm1, inserted, rest⟩ := Option.bind_eq_some_iff.mp result
          obtain ⟨s', rfl, sound''⟩ := inserted_sound sound' (entrySound_new key) (miss rfl) inserted
          obtain ⟨set, added, rfl, sound3, rfl⟩ := addMember_kept sound'' (by simp) isNumber rest
          have same : Request.setZSet (withEntry { cm with db := s } s' ⟨key, .ZSET, [], some initZSet⟩) cm.fresh set =
              withEntry cm s' ⟨key, .ZSET, [], some set⟩ := by
            simp [Request.setZSet, Request.setEntry, withEntry]
          rw [same] at sound3 ⊢
          exact .created sound' (miss rfl) sound3
      | some n =>
          obtain ⟨member, named⟩ := hit n rfl
          refine .found member named ?_
          simp only at result
          split at result
          · cases result
            exact .looked sound' (ranged_error .TYPE (text "expect zset"))
          · obtain ⟨set, added, rfl, sound3, rfl⟩ := addMember_kept sound' member isNumber result
            exact .replaced sound3 (.flag added)

theorem zrem_step (sound : Sound cm present) (result : Request.zrem cm around key name [] = some (cm', out)) :
    ZSetStep cm present cm' out := by
  obtain ⟨s, output, entry, expected, sound', hit, miss⟩ := expectZSet_sound sound key []
  simp only [Request.zrem, expected, Option.bind_eq_bind, Option.bind_some] at result
  cases entry with
  | none =>
      cases result
      obtain ⟨value, rfl, ranged⟩ := expectZSet_reply (miss rfl)
      exact .looked sound' ranged
  | some n =>
      obtain ⟨member, _, _, rfl⟩ := hit n rfl
      simp only [Option.bind_eq_some_iff] at result
      obtain ⟨set, here, ⟨set', node⟩, popped, same⟩ := result
      cases same
      obtain ⟨tree, setSound, keyed⟩ := (sound.entries n member).sets set here
      obtain ⟨tree', setSound', keyed'⟩ := pop_kept setSound keyed popped
      exact .replaced (setZSet_sound sound' setSound' keyed') (.flag node.isSome)

theorem zscore_step (sound : Sound cm present) (result : Request.zscore cm around key name [] = some (cm', out)) :
    ZSetStep cm present cm' out := by
  obtain ⟨s, output, entry, expected, sound', hit, miss⟩ := expectZSet_sound sound key []
  simp only [Request.zscore, expected, Option.bind_eq_bind, Option.bind_some] at result
  cases entry with
  | none =>
      cases result
      obtain ⟨value, rfl, ranged⟩ := expectZSet_reply (miss rfl)
      exact .looked sound' ranged
  | some n =>
      obtain ⟨member, _, _, rfl⟩ := hit n rfl
      simp only [Option.bind_eq_some_iff] at result
      obtain ⟨set, here, ⟨set', node⟩, looked, same⟩ := result
      obtain ⟨tree, setSound, keyed⟩ := (sound.entries n member).sets set here
      obtain ⟨_, _, setSound', keyed', _⟩ := lookup_kept setSound keyed looked
      have sound'' := @setZSet_sound _ _ sound' n _ _ setSound' keyed'
      cases node with
      | none =>
          cases same
          exact .replaced sound'' .nil
      | some node =>
          cases same
          exact .replaced sound'' (.dbl (set'.nodes node).score)

theorem zquery_looked (sound : Sound cm present) {score off limit : Bytes}
    (result : Request.zquery cm around key score name off limit [] = some (cm', out)) :
    ∃ s, ∃ value : Value, Sound { cm with db := s } present ∧ cm' = { cm with db := s } ∧ out = value.encoded ∧
      value.Ranged := by
  unfold Request.zquery at result
  split at result
  · cases result
    exact ⟨cm.db, .err Error.ARG.code (text "expect fp number"), sound, rfl, rfl, ranged_error _ _⟩
  · split at result
    · obtain ⟨s, output, entry, expected, sound', hit, miss⟩ := expectZSet_sound sound key []
      simp only [expected, Option.bind_eq_bind, Option.bind_some] at result
      cases entry with
      | none =>
          simp only at result
          split at result
          · cases result
            exact ⟨s, .arr [], sound', rfl, rfl, trivial⟩
          · cases result
            obtain ⟨value, rfl, ranged⟩ := expectZSet_reply (miss rfl)
            exact ⟨s, value, sound', rfl, rfl, ranged⟩
      | some n =>
          obtain ⟨_, _, _, rfl⟩ := hit n rfl
          simp only at result
          split at result
          · cases result
            exact ⟨s, .arr [], sound', rfl, rfl, trivial⟩
          · simp only [Option.bind_eq_some_iff, Option.map_eq_some_iff] at result
            obtain ⟨set, _, output, listed, same⟩ := result
            cases same
            obtain ⟨items, rfl, ranged⟩ := queryMembers_value listed
            exact ⟨s, .arr items, sound', rfl, rfl, ranged⟩
    · cases result
      exact ⟨cm.db, .err Error.ARG.code (text "expect int"), sound, rfl, rfl, ranged_error _ _⟩

end Inversion

/-! ### What the steps do to a part of the entries -/

section Parts

variable {cm cm' : CommandMap} {present : List Addr} {key val out : Bytes} {α : Type} {part : Entry → α}
  {parts : Bytes → Option α}

theorem View.known (view : View part cm present parts) {n : Addr} (member : n ∈ present)
    (named : (cm.entries n).key = key) : parts key = some (part (cm.entries n)) :=
  (view key _).mpr ⟨n, member, named, rfl⟩

theorem SetStep.view (step : SetStep cm present key val cm') (sound : Sound cm present)
    (view : View part cm present parts) (change : α → α)
    (changes : ∀ entry : Entry, part { entry with val := val } = change (part entry)) :
    ∃ present', Sound cm' present' ∧ View part cm' present'
      (Function.update parts key (some ((parts key).elim (part ⟨key, .STR, val, none⟩) change))) := by
  cases step with
  | @changed s n before member named =>
      have entrySound := sound.entries n member
      have kept : EntrySound { cm.entries n with val := val } := ⟨entrySound.typed, entrySound.sets⟩
      refine ⟨present, setEntry_sound before kept rfl, ?_⟩
      have changed := @setEntry_view _ _ _ _ parts before view n { cm.entries n with val := val } member rfl
      rw [view.known member named, Option.elim_some, ← changes, ← named]
      exact changed
  | @created s s' before absent sound' =>
      refine ⟨_, sound', ?_⟩
      rw [(view.none_iff key).mpr absent, Option.elim_none]
      exact insert_view before view absent

theorem ZSetStep.view (step : ZSetStep cm present cm' out) (view : View part cm present parts)
    (apart : ∀ (entry : Entry) (set : ZSet), part { entry with set := some set } = part entry) :
    Sound cm' present ∧ View part cm' present parts := by
  cases step with
  | looked sound _ => exact ⟨sound, view⟩
  | replaced sound _ => exact ⟨sound, setZSet_view view fun entry => apart entry _⟩

theorem ZAddStep.view {score : Option Double} (step : ZAddStep cm present key score cm' out) (sound : Sound cm present)
    (view : View part cm present parts)
    (apart : ∀ (entry : Entry) (set : ZSet), part { entry with set := some set } = part entry) :
    ∃ present', Sound cm' present' ∧ View part cm' present'
      (if score.isSome then Function.update parts key (some ((parts key).getD (part ⟨key, .ZSET, [], none⟩)))
      else parts) := by
  cases step with
  | refused => exact ⟨present, sound, view⟩
  | found member named step =>
      have same : Function.update parts key (some ((parts key).getD (part ⟨key, .ZSET, [], none⟩))) = parts := by
        rw [view.known member named, Option.getD_some, ← view.known member named, Function.update_eq_self]
      rw [Option.isSome_some, if_pos rfl, same]
      exact ⟨present, step.view view apart⟩
  | @created _ s s' set _ before absent sound' =>
      refine ⟨_, sound', ?_⟩
      rw [Option.isSome_some, if_pos rfl, (view.none_iff key).mpr absent, Option.getD_none, ← apart _ set]
      exact insert_view before view absent

end Parts

end Coxx.Common
