import Coxx.Common.Steps

/-! Every command keeps the database sound, changes the values by its effect, and answers one value. -/

set_option autoImplicit false

namespace Coxx.Common

open Library Zset

/-- What a command does to the value of a key, none while there is no entry. -/
def Request.Command.effect (c : Request.Command) (key : Bytes) (old : Option Bytes) : Option Bytes :=
  match c with
  | .set target val => if key = target then some val else old
  | .del target => if key = target then none else old
  | .zadd target score _ => if key = target ∧ (strToDouble score).isSome then some (old.getD []) else old
  | _ => old

section Kept

variable {cm cm' : CommandMap} {present : List Addr} {values : Bytes → Option Bytes} {around : Surroundings}
  {out : Bytes}

theorem keys_kept (sound : Sound cm present) (view : Values cm present values)
    (result : Request.keys cm [] = some (cm', out)) : Kept cm' values out := by
  obtain ⟨order, perm, done⟩ := keys_sound sound []
  cases result.symm.trans done
  refine ⟨⟨present, sound, view⟩, .arr (order.map fun x => .str (cm.entries x).key), ?_, ?_⟩
  · rw [foldl_keyScan]
    simp [Out.arr, Value.encoded, perm.length_eq]
  · refine Value.rangedAll_iff.mpr fun item member => ?_
    obtain ⟨x, _, rfl⟩ := List.mem_map.mp member
    trivial

theorem get_kept (sound : Sound cm present) (view : Values cm present values) {key : Bytes}
    (result : Request.get cm key [] = some (cm', out)) : Kept cm' values out := by
  obtain ⟨s, done, sound'⟩ := get_sound sound view key []
  cases result.symm.trans done
  refine ⟨⟨present, sound', view⟩, ?_⟩
  cases values key with
  | none => exact ⟨.nil, rfl, trivial⟩
  | some val => exact ⟨.str val, rfl, trivial⟩

theorem set_kept (sound : Sound cm present) (view : Values cm present values) {key val : Bytes}
    (result : Request.set cm key val [] = some (cm', out)) :
    Kept cm' (Function.update values key (some val)) out := by
  obtain ⟨step, rfl⟩ := set_step sound result
  obtain ⟨present', sound', view'⟩ := step.view sound view.view (fun _ => val) fun _ => rfl
  refine ⟨⟨present', sound', ?_⟩, .nil, rfl, trivial⟩
  cases known : values key with
  | none =>
      rw [known] at view'
      exact view'
  | some old =>
      rw [known] at view'
      exact view'

theorem del_kept (sound : Sound cm present) (view : Values cm present values) {key : Bytes}
    (result : Request.del cm key [] = some (cm', out)) : Kept cm' (Function.update values key none) out := by
  obtain ⟨s, present', done, sound', view'⟩ := del_sound sound view key []
  cases result.symm.trans done
  exact ⟨⟨present', sound', view'⟩, .int (if (values key).isSome then 1 else 0), rfl, ranged_flag _⟩

theorem Plain.value (plain : Plain out) : ∃ value : Value, out = value.encoded ∧ value.Ranged := by
  cases plain with
  | nil => exact ⟨.nil, rfl, trivial⟩
  | flag flag => exact ⟨.int (if flag then 1 else 0), rfl, ranged_flag _⟩
  | dbl score => exact ⟨.dbl score, rfl, trivial⟩

theorem ZSetStep.reply (step : ZSetStep cm present cm' out) : ∃ value : Value, out = value.encoded ∧ value.Ranged := by
  cases step with
  | looked _ ranged => exact ⟨_, rfl, ranged⟩
  | replaced _ plain => exact plain.value

theorem ZSetStep.kept (step : ZSetStep cm present cm' out) (view : Values cm present values) : Kept cm' values out := by
  obtain ⟨sound', view'⟩ := step.view view.view fun _ _ => rfl
  exact ⟨⟨present, sound', view'⟩, step.reply⟩

theorem ZAddStep.reply {key : Bytes} {score : Option Double} (step : ZAddStep cm present key score cm' out) :
    ∃ value : Value, out = value.encoded ∧ value.Ranged := by
  cases step with
  | refused => exact ⟨.err Error.ARG.code (text "expect fp number"), rfl, ranged_error _ _⟩
  | found _ _ step => exact step.reply
  | @created _ _ _ _ added => exact ⟨.int (if added then 1 else 0), rfl, ranged_flag _⟩

theorem zadd_kept (sound : Sound cm present) (view : Values cm present values) {key score name : Bytes}
    (result : Request.zadd cm around key score name [] = some (cm', out)) :
    Kept cm' (fun k => (Request.Command.zadd key score name).effect k (values k)) out := by
  have step := zadd_step sound result
  obtain ⟨present', sound', view'⟩ := step.view sound view.view fun _ _ => rfl
  refine ⟨⟨present', sound', ?_⟩, step.reply⟩
  have effect : (fun k => (Request.Command.zadd key score name).effect k (values k)) =
      if (strToDouble score).isSome then Function.update values key (some ((values key).getD [])) else values := by
    funext k
    by_cases here : k = key
    · subst here
      cases parsed : strToDouble score <;> simp [Request.Command.effect, parsed]
    · cases parsed : strToDouble score <;> simp [Request.Command.effect, here]
  rw [effect]
  exact view'

theorem zquery_kept (sound : Sound cm present) (view : Values cm present values) {key score name off limit : Bytes}
    (result : Request.zquery cm around key score name off limit [] = some (cm', out)) : Kept cm' values out := by
  obtain ⟨s, value, sound', rfl, rfl, ranged⟩ := zquery_looked sound result
  exact ⟨⟨present, sound', view⟩, value, rfl, ranged⟩

theorem run_kept (sound : Sound cm present) (view : Values cm present values) (c : Request.Command)
    (result : c.run cm around [] = some (cm', out)) : Kept cm' (fun key => c.effect key (values key)) out := by
  cases c with
  | keys => exact keys_kept sound view result
  | get key => exact get_kept sound view result
  | set key val =>
      have effect : (fun k => (Request.Command.set key val).effect k (values k)) =
          Function.update values key (some val) := by
        funext k
        by_cases here : k = key
        · subst here; simp [Request.Command.effect]
        · simp [Request.Command.effect, here]
      rw [effect]
      exact set_kept sound view result
  | del key =>
      have effect : (fun k => (Request.Command.del key).effect k (values k)) = Function.update values key none := by
        funext k
        by_cases here : k = key
        · subst here; simp [Request.Command.effect]
        · simp [Request.Command.effect, here]
      rw [effect]
      exact del_kept sound view result
  | zadd key score name => exact zadd_kept sound view result
  | zrem key name => exact (zrem_step sound result).kept view
  | zscore key name => exact (zscore_step sound result).kept view
  | zquery key score name off limit => exact zquery_kept sound view result
  | unknown =>
      cases result
      exact ⟨⟨present, sound, view⟩, .err Error.UNKNOWN.code (text "Unknown cmd"), rfl, ranged_error _ _⟩

end Kept

end Coxx.Common
