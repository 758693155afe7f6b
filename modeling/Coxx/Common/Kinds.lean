import Coxx.Common.Errors

/-! The type of a key. The commands on sorted sets look at it; `get` and `set` do not. -/

set_option autoImplicit false

namespace Coxx.Common

open Library BinaryTree Zset

/-- The commands on the sorted set of a key, with arguments that are numbers where they have to be. -/
def Request.Command.OnZSet (key : Bytes) : Request.Command → Prop
  | .zadd target score _ => target = key ∧ (strToDouble score).isSome
  | .zrem target _ | .zscore target _ => target = key
  | .zquery target score _ off limit =>
      target = key ∧ (strToDouble score).isSome ∧ (strToInt off).isSome ∧ (strToInt limit).isSome
  | _ => False

def typeError : Bytes := Out.err [] Error.TYPE.code (text "expect zset")

/-- Some command on sorted sets goes through. -/
def UsableAsZSet (cm : CommandMap) (key : Bytes) : Prop :=
  ∃ (c : Request.Command) (around : Surroundings) (cm' : CommandMap) (output : Bytes),
    c.OnZSet key ∧ c.run cm around [] = some (cm', output) ∧ output ≠ typeError

def UsableAsString (cm : CommandMap) (key : Bytes) : Prop :=
  ∃ cm' val, Request.get cm key [] = some (cm', Out.str [] val)

inductive Later (key : Bytes) (cm : CommandMap) : CommandMap → Prop where
  | here : Later key cm cm
  | next {cm1 cm2 : CommandMap} {around : Surroundings} {commandList : List Bytes} {output : Bytes} :
      Later key cm cm1 → Request.command commandList ≠ .del key →
      Request.run cm1 around commandList [] = some (cm2, output) → Later key cm cm2

structure OneKind (cm : CommandMap) (key : Bytes) : Prop where
  exclusive : UsableAsZSet cm key → ¬UsableAsString cm key
  afterSet : ∀ val cm1 output, Request.set cm key val [] = some (cm1, output) → ∀ cm2, Later key cm1 cm2 →
    ∀ c : Request.Command, c.OnZSet key → ∀ around, ∃ cm3, c.run cm2 around [] = some (cm3, typeError)
  kept : ∀ commandList around cm' output, Request.run cm around commandList [] = some (cm', output) →
    ¬(UsableAsZSet cm' key ∧ UsableAsString cm' key)

/-! ### The types that commands give -/

/-- What a command does to the type of a key, none while there is no entry. -/
def Request.Command.typed (c : Request.Command) (key : Bytes) (old : Option KeyType) : Option KeyType :=
  match c with
  | .set target _ => if key = target then some (old.getD .STR) else old
  | .zadd target score _ => if key = target ∧ (strToDouble score).isSome then some (old.getD .ZSET) else old
  | .del target => if key = target then none else old
  | _ => old

/-- The type that the first `set` or `zadd` gave to a key since its last `del`. -/
def typeAfter (commands : List Request.Command) (key : Bytes) : Option KeyType :=
  commands.foldl (fun old c => c.typed key old) none

inductive History : CommandMap → List Request.Command → Prop where
  | init : History initCommandMap []
  | run {cm cm' : CommandMap} {commands : List Request.Command} {around : Surroundings} {commandList : List Bytes}
      {output : Bytes} : History cm commands → Request.run cm around commandList [] = some (cm', output) →
      History cm' (commands ++ [Request.command commandList])

theorem reachable_iff_history {cm : CommandMap} : Reachable cm ↔ ∃ commands, History cm commands := by
  constructor
  · intro reachable
    induction reachable with
    | init => exact ⟨[], .init⟩
    | run _ result ih =>
        obtain ⟨commands, history⟩ := ih
        exact ⟨_, history.run result⟩
  · rintro ⟨commands, history⟩
    induction history with
    | init => exact .init
    | run _ result ih => exact ih.run result

abbrev Types (cm : CommandMap) (present : List Addr) (types : Bytes → Option KeyType) : Prop :=
  View Entry.type cm present types

section Types

variable {cm cm' : CommandMap} {present : List Addr} {types : Bytes → Option KeyType} {around : Surroundings}
  {key out : Bytes}

theorem View.of_tracks {α : Type} {part : Entry → α} {parts : Bytes → Option α} {present' : List Addr}
    (view : View part cm present parts) (tracks : Map.Tracks cm.db present) (tracks' : Map.Tracks cm.db present') :
    View part cm present' parts := by
  intro key value
  rw [view key value]
  constructor
  · rintro ⟨x, member, held⟩
    exact ⟨x, (tracks.unique tracks').mem_iff.mp member, held⟩
  · rintro ⟨x, member, held⟩
    exact ⟨x, (tracks.unique tracks').mem_iff.mpr member, held⟩

theorem run_types {values : Bytes → Option Bytes} (sound : Sound cm present) (vals : Values cm present values)
    (view : Types cm present types) (c : Request.Command) (result : c.run cm around [] = some (cm', out)) :
    ∃ present', Sound cm' present' ∧ Types cm' present' fun k => c.typed k (types k) := by
  cases c with
  | set key val =>
      obtain ⟨step, _⟩ := set_step sound result
      have effect : (fun k => (Request.Command.set key val).typed k (types k)) =
          Function.update types key (some ((types key).elim .STR id)) := by
        funext k
        by_cases here : k = key
        · subst here
          cases types k <;> simp [Request.Command.typed]
        · simp [Request.Command.typed, here]
      rw [effect]
      exact step.view sound view id fun _ => rfl
  | del key =>
      have effect : (fun k => (Request.Command.del key).typed k (types k)) = Function.update types key none := by
        funext k
        by_cases here : k = key
        · subst here; simp [Request.Command.typed]
        · simp [Request.Command.typed, here]
      obtain ⟨_, present', _, done, sound', _, views⟩ := del_views sound key []
      cases result.symm.trans done
      rw [effect]
      exact ⟨present', sound', views view⟩
  | zadd key score name =>
      have effect : (fun k => (Request.Command.zadd key score name).typed k (types k)) =
          if (strToDouble score).isSome then Function.update types key (some ((types key).getD .ZSET)) else types := by
        funext k
        by_cases here : k = key
        · subst here
          cases parsed : strToDouble score <;> simp [Request.Command.typed, parsed]
        · cases parsed : strToDouble score <;> simp [Request.Command.typed, here]
      rw [effect]
      exact (zadd_step sound result).view sound view fun _ _ => rfl
  | zrem key name => exact ⟨present, (zrem_step sound result).view view fun _ _ => rfl⟩
  | zscore key name => exact ⟨present, (zscore_step sound result).view view fun _ _ => rfl⟩
  | zquery key score name off limit =>
      obtain ⟨s, _, sound', rfl, _⟩ := zquery_looked sound result
      exact ⟨present, sound', view⟩
  | keys =>
      obtain ⟨_, _, done⟩ := keys_sound sound []
      cases result.symm.trans done
      exact ⟨present, sound, view⟩
  | get key =>
      obtain ⟨_, done, sound'⟩ := get_sound sound vals key []
      cases result.symm.trans done
      exact ⟨present, sound', view⟩
  | unknown =>
      cases result
      exact ⟨present, sound, view⟩

theorem typed_kept {c : Request.Command} {kind : KeyType} (stays : c ≠ .del key) :
    c.typed key (some kind) = some kind := by
  cases c with
  | set target val => simp [Request.Command.typed]
  | zadd target score name => simp [Request.Command.typed]
  | del target =>
      have apart : key ≠ target := fun same => stays (by rw [same])
      simp [Request.Command.typed, apart]
  | _ => rfl

end Types

/-- A key of a database that requests led to, with the type of its entry. -/
def Typed (cm : CommandMap) (key : Bytes) (kind : Option KeyType) : Prop :=
  ∃ present values types, Sound cm present ∧ Values cm present values ∧ Types cm present types ∧ types key = kind

section Kinds

variable {cm cm' : CommandMap} {around : Surroundings} {commandList : List Bytes} {key out : Bytes} {kind : KeyType}

theorem Typed.run {kind : Option KeyType} (typed : Typed cm key kind)
    (result : Request.run cm around commandList [] = some (cm', out)) :
    Typed cm' key ((Request.command commandList).typed key kind) := by
  obtain ⟨present, values, types, sound, vals, view, rfl⟩ := typed
  obtain ⟨present', sound', view'⟩ := run_types sound vals view _ result
  obtain ⟨present1, sound1, vals1⟩ := (run_kept sound vals _ result).state
  exact ⟨present', _, _, sound', View.of_tracks vals1 sound1.tracks sound'.tracks, view', rfl⟩

theorem History.typed {commands : List Request.Command} (history : History cm commands) (key : Bytes) :
    Typed cm key (typeAfter commands key) := by
  induction history with
  | init => exact ⟨[], fun _ => none, fun _ => none, initCommandMap_sound, by intro; simp, by intro; simp, rfl⟩
  | run _ result ih =>
      have next := ih.run result
      rwa [typeAfter, List.foldl_append]

theorem Typed.later (typed : Typed cm key (some kind)) (later : Later key cm cm') : Typed cm' key (some kind) := by
  induction later with
  | here => exact typed
  | next _ stays result ih =>
      have next := ih.run result
      rwa [typed_kept stays] at next

theorem Typed.refused (typed : Typed cm key (some .STR)) {c : Request.Command} (onZSet : c.OnZSet key)
    (around : Surroundings) : ∃ cm', c.run cm around [] = some (cm', typeError) := by
  obtain ⟨present, _, _, sound, _, view, known⟩ := typed
  obtain ⟨x, member, named, str⟩ := (view key .STR).mp known
  obtain ⟨db, found, looked, _, hit, miss⟩ := lookup_sound sound key
  cases found with
  | none => exact absurd named (miss rfl x member)
  | some n =>
      obtain ⟨member', named'⟩ := hit n rfl
      obtain rfl := sound.unique n member' x member (named'.trans named.symm)
      have other : (cm.entries n).type ≠ .ZSET := by rw [str]; decide
      have refused : Request.expectZSet cm key [] = some ({ cm with db := db }, typeError, none) := by
        simp [Request.expectZSet, looked, other, typeError]
      cases c with
      | zadd target score name =>
          obtain ⟨rfl, number⟩ := onZSet
          obtain ⟨score, parsed⟩ := Option.isSome_iff_exists.mp number
          exact ⟨_, by simp [Request.Command.run, Request.zadd, parsed, looked, other, typeError]; rfl⟩
      | zrem target name =>
          obtain rfl := onZSet
          exact ⟨_, by simp [Request.Command.run, Request.zrem, refused]; rfl⟩
      | zscore target name =>
          obtain rfl := onZSet
          exact ⟨_, by simp [Request.Command.run, Request.zscore, refused]; rfl⟩
      | zquery target score name off limit =>
          obtain ⟨rfl, number, isOff, isLimit⟩ := onZSet
          obtain ⟨score, parsed⟩ := Option.isSome_iff_exists.mp number
          obtain ⟨off, parsedOff⟩ := Option.isSome_iff_exists.mp isOff
          obtain ⟨limit, parsedLimit⟩ := Option.isSome_iff_exists.mp isLimit
          have noNil : typeError[0]? ≠ some Serialize.NIL.tag := by decide
          exact ⟨_, by simp [Request.Command.run, Request.zquery, parsed, parsedOff, parsedLimit, refused, noNil]; rfl⟩
      | _ => exact onZSet.elim

theorem Typed.not_usable (typed : Typed cm key (some .STR)) : ¬UsableAsZSet cm key := by
  rintro ⟨c, around, cm', output, onZSet, result, through⟩
  obtain ⟨_, refused⟩ := typed.refused onZSet around
  cases result.symm.trans refused
  exact through rfl

theorem Typed.string_iff {kind : Option KeyType} (typed : Typed cm key kind) : UsableAsString cm key ↔ kind.isSome := by
  obtain ⟨present, values, types, sound, vals, view, rfl⟩ := typed
  obtain ⟨_, result, _⟩ := get_sound sound vals key []
  unfold UsableAsString
  rw [result]
  cases known : types key with
  | none =>
      rw [(vals.none_iff key).mpr ((view.none_iff key).mp known)]
      refine iff_of_false ?_ (by simp)
      rintro ⟨_, val, same⟩
      cases same
  | some kind =>
      obtain ⟨x, member, named, _⟩ := (view key kind).mp known
      rw [(vals key _).mpr ⟨x, member, named, rfl⟩]
      exact iff_of_true ⟨_, _, rfl⟩ rfl

theorem Typed.usable (typed : Typed cm key (some .ZSET)) : UsableAsZSet cm key := by
  obtain ⟨present, _, _, sound, _, view, known⟩ := typed
  obtain ⟨x, member, named, zset⟩ := (view key .ZSET).mp known
  obtain ⟨set, tree, scores, here, setSound, keyed, maps⟩ := (sound.entries x member).members zset
  have holding : Holding cm present key x set tree scores := ⟨sound, member, named, zset, here, setSound, keyed, maps⟩
  have clean : Clean (text "m") := by decide
  obtain ⟨cm', _, result, _⟩ := holding.zscore ⟨.guarded, .guarded⟩ clean
  refine ⟨.zscore key (text "m"), ⟨.guarded, .guarded⟩, cm', _, rfl, result, ?_⟩
  cases scores (text "m") with
  | none => decide
  | some score => simp [scoreAnswer, typeError, Out.dbl, Out.err, Serialize.tag]

/-- The reachable databases are those that requests lead to. In each of them, the rule holds of the live keys that `set`
made, and of no others: `get` and `set` take an entry of any type. -/
theorem one_kind_iff (cm : CommandMap) (key : Bytes) :
    (Reachable cm ↔ ∃ commands, History cm commands) ∧
    ∀ {commands : List Request.Command} {kind : KeyType}, History cm commands → typeAfter commands key = some kind →
      (OneKind cm key ↔ kind = .STR) := by
  refine ⟨reachable_iff_history, fun {commands kind} history live => ?_⟩
  have typed := history.typed key
  rw [live] at typed
  constructor
  · intro one
    cases kind with
    | STR => rfl
    | ZSET => exact absurd (typed.string_iff.mpr rfl) (one.exclusive typed.usable)
  · rintro rfl
    refine ⟨fun usable => absurd usable typed.not_usable, ?_, ?_⟩
    · intro val cm1 output result cm2 later c onZSet around
      have stored : Typed cm1 key (some .STR) := by
        have next := typed.run (show Request.run cm around [text "set", key, val] [] = some (cm1, output) from result)
        rwa [typed_kept (by nofun)] at next
      exact (stored.later later).refused onZSet around
    · rintro commandList around cm' output result ⟨usable, string⟩
      have next := typed.run result
      by_cases deleted : Request.command commandList = .del key
      · rw [deleted, show (Request.Command.del key).typed key (some .STR) = none by simp [Request.Command.typed]] at next
        exact absurd (next.string_iff.mp string) (by simp)
      · rw [typed_kept deleted] at next
        exact next.not_usable usable

/-- After `set k v`. -/
theorem one_kind_iff_string : ∃ cm commands, History cm commands ∧ typeAfter commands (text "k") = some .STR ∧
    OneKind cm (text "k") := by
  have history : History _ [Request.command [text "set", text "k", text "v"]] :=
    @History.run _ _ [] ⟨.guarded, .guarded⟩ _ _ .init rfl
  exact ⟨_, _, history, rfl, ((one_kind_iff _ _).2 history rfl).mpr rfl⟩

/-- After `zadd k 1 m` and `set k v` the key answers `get` with `v`, and is still a sorted set. -/
theorem both_kinds : ∃ cm, History cm [.zadd (text "k") (text "1") (text "m"), .set (text "k") (text "v")] ∧
    (∃ cm', Request.get cm (text "k") [] = some (cm', Out.str [] (text "v"))) ∧ UsableAsZSet cm (text "k") ∧
      ¬OneKind cm (text "k") := by
  obtain ⟨cm, _, _, added, _⟩ := @zadd_new initCommandMap [] (text "k") (text "m") initCommandMap_sound
    not_full_init (by simp) ⟨.guarded, .guarded⟩ (text "1") ⟨0x3FF0000000000000⟩ (by decide) (by decide)
  have first : History cm [.zadd (text "k") (text "1") (text "m")] :=
    @History.run _ _ [] ⟨.guarded, .guarded⟩ [text "zadd", text "k", text "1", text "m"] _ .init added
  obtain ⟨present, values, types, sound, vals, view, known⟩ := first.typed (text "k")
  have there : values (text "k") ≠ none := by
    intro absent
    rw [(view.none_iff _).mpr ((vals.none_iff _).mp absent)] at known
    cases known
  obtain ⟨cm1, present1, stored, sound1, vals1⟩ :=
    set_sound sound vals (text "k") (text "v") [] fun absent => absurd absent there
  have second : History cm1 [.zadd (text "k") (text "1") (text "m"), .set (text "k") (text "v")] :=
    first.run (show Request.run cm ⟨.guarded, .guarded⟩ [text "set", text "k", text "v"] [] = some (cm1, Out.nil [])
      from stored)
  have usable : UsableAsZSet cm1 (text "k") := (second.typed (text "k")).usable
  obtain ⟨_, answered, _⟩ := get_sound sound1 vals1 (text "k") []
  rw [Function.update_self] at answered
  exact ⟨cm1, second, ⟨_, answered⟩, usable, fun one => one.exclusive usable ⟨_, _, answered⟩⟩

end Kinds

end Coxx.Common
