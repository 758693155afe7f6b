import Coxx.Common.Semantics

/-! Whole runs of the commands on a database: what `get`, `del` and `keys` answer is decided by
the commands that came before. -/

set_option autoImplicit false

namespace Coxx.Common

open Library Request

def Done.command (done : Done) : Command := Request.command done.commandList

/-- Runs from the empty database: fewer than 2 ^ 32 keys, strings shorter than 2 ^ 32 bytes. -/
inductive Run : CommandMap → List Done → Prop where
  | empty : Run initCommandMap []
  | step {cm cm' : CommandMap} {trace : List Done} {around : Surroundings} {commandList : List Bytes} {reply : Bytes} :
      Run cm trace → (∀ s ∈ commandList, s.length < 2 ^ 32) →
      Request.run cm around commandList [] = some (cm', reply) → Map.CMapSize cm'.db.map < 2 ^ 32 →
      Run cm' (trace ++ [⟨commandList, reply⟩])

def isError (reply : Bytes) : Bool := reply.head? == some Serialize.ERR.tag

/-- A key is live if a `set`, or a `zadd` that did not answer ERR, has named it since its last `del`. -/
def live (trace : List Done) (key : Bytes) : Bool :=
  trace.foldl (fun before done =>
    match done.command with
    | .set target _ => if key = target then true else before
    | .zadd target _ _ => if key = target ∧ isError done.reply = false then true else before
    | .del target => if key = target then false else before
    | _ => before) false

def lastSet (trace : List Done) (key : Bytes) : Option Bytes :=
  trace.foldl (fun before done =>
    match done.command with
    | .set target val => if key = target then some val else before
    | .del target => if key = target then none else before
    | _ => before) none

def valueAfter (commands : List Command) (key : Bytes) : Option Bytes :=
  commands.foldl (fun old c => c.effect key old) none

/-- The commands that name a key and may change what `get` answers for it. -/
def Touches (key : Bytes) : Command → Prop
  | .set target _ | .del target | .zadd target _ _ => target = key
  | _ => False

theorem effect_of_not_touches {key : Bytes} {c : Command} (away : ¬Touches key c) (old : Option Bytes) :
    c.effect key old = old := by
  cases c with
  | set target val =>
      have apart : key ≠ target := fun same => away same.symm
      simp [Command.effect, apart]
  | del target =>
      have apart : key ≠ target := fun same => away same.symm
      simp [Command.effect, apart]
  | zadd target score name =>
      have apart : key ≠ target := fun same => away same.symm
      simp [Command.effect, apart]
  | _ => rfl

structure Follows (cm : CommandMap) (trace : List Done) : Prop where
  state : ∃ present, Sound cm present ∧ Values cm present (valueAfter (trace.map Done.command))
  live : ∀ key, live trace key = (valueAfter (trace.map Done.command) key).isSome
  lastSet : ∀ key val, lastSet trace key = some val → valueAfter (trace.map Done.command) key = some val
  short : ∀ key val, valueAfter (trace.map Done.command) key = some val → key.length < 2 ^ 32 ∧ val.length < 2 ^ 32
  few : Map.CMapSize cm.db.map < 2 ^ 32

theorem valueAfter_concat (commands : List Command) (c : Command) (key : Bytes) :
    valueAfter (commands ++ [c]) key = c.effect key (valueAfter commands key) := by
  simp [valueAfter, List.foldl_append]

/-- The strings that a command may leave in the database. -/
def Request.Command.stored : Command → List Bytes
  | .set key val => [key, val]
  | .zadd key _ _ => [key]
  | _ => []

theorem stored_mem (commandList : List Bytes) : ∀ s ∈ (Request.command commandList).stored, s ∈ commandList := by
  unfold Request.command
  split <;> (repeat' split) <;> simp [Command.stored]

theorem effect_short {c : Command} {old : Option Bytes} {key val : Bytes}
    (strings : ∀ s ∈ c.stored, s.length < 2 ^ 32)
    (before : ∀ val, old = some val → key.length < 2 ^ 32 ∧ val.length < 2 ^ 32)
    (after : c.effect key old = some val) : key.length < 2 ^ 32 ∧ val.length < 2 ^ 32 := by
  cases c with
  | set target value =>
      simp only [Command.effect] at after
      split at after
      · rename_i same
        cases after
        exact ⟨strings _ (by simp [Command.stored, same]), strings _ (by simp [Command.stored])⟩
      · exact before val after
  | del target =>
      simp only [Command.effect] at after
      split at after
      · cases after
      · exact before val after
  | zadd target score name =>
      simp only [Command.effect] at after
      split at after
      · rename_i both
        cases after
        refine ⟨strings _ (by simp [Command.stored, both.1]), ?_⟩
        cases old with
        | none => decide
        | some val => exact (before val rfl).2
      · exact before val after
  | _ => exact before val after

theorem Follows.empty : Follows initCommandMap [] where
  state := ⟨[], initCommandMap_sound, by intro key val; simp [valueAfter]⟩
  live key := rfl
  lastSet key val wrong := nomatch wrong
  short key val wrong := nomatch wrong
  few := by decide

theorem live_step {cm cm' : CommandMap} {trace : List Done} {around : Surroundings} {commandList : List Bytes}
    {reply : Bytes} (follows : Follows cm trace) (result : Request.run cm around commandList [] = some (cm', reply))
    (key : Bytes) : live (trace ++ [⟨commandList, reply⟩]) key =
      ((Request.command commandList).effect key (valueAfter (trace.map Done.command) key)).isSome := by
  obtain ⟨present, sound, view⟩ := follows.state
  have before := follows.live key
  simp only [live, List.foldl_append, List.foldl_cons, List.foldl_nil] at before ⊢
  rw [before]
  cases shape : Request.command commandList with
  | set target val =>
      simp only [Done.command, shape, Command.effect]
      split <;> rfl
  | del target =>
      simp only [Done.command, shape, Command.effect]
      split <;> rfl
  | zadd target score name =>
      simp only [Done.command, shape, Command.effect]
      rw [Request.run, shape] at result
      have step := zadd_step sound result
      by_cases same : key = target
      · subst same
        cases parsed : strToDouble score with
        | none =>
            rw [parsed] at step
            have error : isError reply = true := by
              cases step
              rfl
            simp [error]
        | some number =>
            cases known : valueAfter (trace.map Done.command) key with
            | some old => simp
            | none =>
                rw [parsed] at step
                have good : isError reply = false := by
                  cases step with
                  | found member named _ => exact absurd named ((view.none_iff key).mp known _ member)
                  | @created _ _ _ _ added => cases added <;> rfl
                simp [good]
      · simp [same]
  | _ => simp only [Done.command, shape, Command.effect]

theorem lastSet_step {trace : List Done} {commandList : List Bytes} {reply : Bytes} {key val : Bytes}
    (before : ∀ val, lastSet trace key = some val → valueAfter (trace.map Done.command) key = some val) :
    lastSet (trace ++ [⟨commandList, reply⟩]) key = some val →
      (Request.command commandList).effect key (valueAfter (trace.map Done.command) key) = some val := by
  simp only [lastSet, List.foldl_append, List.foldl_cons, List.foldl_nil] at before ⊢
  cases shape : Request.command commandList with
  | set target val' =>
      simp only [Done.command, shape, Command.effect]
      split
      · exact id
      · exact before val
  | del target =>
      simp only [Done.command, shape, Command.effect]
      split
      · exact id
      · exact before val
  | zadd target score name =>
      simp only [Done.command, shape, Command.effect]
      intro found
      rw [before val found]
      split <;> rfl
  | _ =>
      simp only [Done.command, shape, Command.effect]
      exact before val

theorem Follows.step {cm cm' : CommandMap} {trace : List Done} {around : Surroundings} {commandList : List Bytes}
    {reply : Bytes} (follows : Follows cm trace) (strings : ∀ s ∈ commandList, s.length < 2 ^ 32)
    (result : Request.run cm around commandList [] = some (cm', reply)) (few : Map.CMapSize cm'.db.map < 2 ^ 32) :
    Follows cm' (trace ++ [⟨commandList, reply⟩]) := by
  obtain ⟨present, sound, view⟩ := follows.state
  have kept := run_kept sound view (Request.command commandList) result
  have values : ∀ key, valueAfter ((trace ++ [(⟨commandList, reply⟩ : Done)]).map Done.command) key =
      (Request.command commandList).effect key (valueAfter (trace.map Done.command) key) := by
    intro key
    rw [List.map_append]
    exact valueAfter_concat _ _ _
  refine ⟨?_, ?_, ?_, ?_, few⟩
  · obtain ⟨present', sound', view'⟩ := kept.state
    refine ⟨present', sound', ?_⟩
    simpa only [Values, values] using view'
  · intro key
    rw [values]
    exact live_step follows result key
  · intro key val
    rw [values]
    exact lastSet_step (follows.lastSet key)
  · intro key val after
    rw [values] at after
    exact effect_short (fun s member => strings s (stored_mem _ s member)) (follows.short key) after

theorem Run.follows {cm : CommandMap} {trace : List Done} (run : Run cm trace) : Follows cm trace := by
  induction run with
  | empty => exact Follows.empty
  | step _ strings result few ih => exact ih.step strings result few

section Answers

variable {cm : CommandMap} {trace : List Done} {commandList : List Bytes} {around : Surroundings} {key : Bytes}

theorem get_answered (follows : Follows cm trace) (shape : Request.command commandList = .get key) :
    ∃ cm' value, Request.run cm around commandList [] = some (cm', Value.encoded value) ∧ value.Fits ∧
      (∀ val, lastSet trace key = some val → value = .str val) ∧ (live trace key = false → value = .nil) := by
  obtain ⟨present, sound, view⟩ := follows.state
  obtain ⟨s, result, _⟩ := get_sound sound view key []
  have live := follows.live key
  have stored := follows.lastSet key
  have short := follows.short key
  cases known : valueAfter (trace.map Done.command) key with
  | none =>
      rw [known] at result stored
      exact ⟨_, .nil, by rw [Request.run, shape]; exact result, trivial, fun val wrong => (nomatch stored val wrong),
        fun _ => rfl⟩
  | some val =>
      rw [known] at result stored live
      refine ⟨_, .str val, by rw [Request.run, shape]; exact result, (short val known).2, ?_, ?_⟩
      · intro other found
        cases stored other found
        rfl
      · intro dead
        rw [dead] at live
        cases live

theorem del_answered (follows : Follows cm trace) (shape : Request.command commandList = .del key) :
    ∃ cm', Request.run cm around commandList [] = some (cm', (Value.int (if live trace key then 1 else 0)).encoded) ∧
      ∀ reply, live (trace ++ [⟨commandList, reply⟩]) key = false := by
  obtain ⟨present, sound, view⟩ := follows.state
  obtain ⟨s, _, result, _⟩ := del_sound sound view key []
  refine ⟨{ cm with db := s }, ?_, ?_⟩
  · rw [Request.run, shape, follows.live key]
    exact result
  · intro reply
    simp [live, List.foldl_append, Done.command, shape]

theorem keys_answered (follows : Follows cm trace) (shape : Request.command commandList = .keys) :
    ∃ (cm' : CommandMap) (names : List Bytes),
      Request.run cm around commandList [] = some (cm', (Value.arr (names.map .str)).encoded) ∧
      (Value.arr (names.map .str)).Fits ∧ names.Nodup ∧ ∀ key, key ∈ names ↔ live trace key = true := by
  obtain ⟨present, sound, view⟩ := follows.state
  obtain ⟨order, perm, result⟩ := keys_sound sound []
  have size := sound.tracks.size_eq
  have few := follows.few
  refine ⟨cm, order.map fun x => (cm.entries x).key, ?_, ?_, ?_, ?_⟩
  · rw [Request.run, shape]
    simp only [Command.run, result, foldl_keyScan]
    simp [Out.arr, Value.encoded, perm.length_eq]
    rfl
  · refine ⟨by simp only [List.length_map, perm.length_eq]; omega, Value.fitsAll_iff.mpr ?_⟩
    intro item member
    obtain ⟨key, inside, rfl⟩ := List.mem_map.mp member
    obtain ⟨x, there, rfl⟩ := List.mem_map.mp inside
    exact (follows.short _ _ ((view _ _).mpr ⟨x, perm.mem_iff.mp there, rfl, rfl⟩)).1
  · refine (List.nodup_map_iff_inj_on (perm.nodup_iff.mpr sound.tracks.nodup)).mpr ?_
    intro x memberX y memberY same
    exact sound.unique x (perm.mem_iff.mp memberX) y (perm.mem_iff.mp memberY) same
  · intro key
    rw [follows.live key, Option.isSome_iff_exists, List.mem_map]
    constructor
    · rintro ⟨x, there, rfl⟩
      exact ⟨_, (view _ _).mpr ⟨x, perm.mem_iff.mp there, rfl, rfl⟩⟩
    · rintro ⟨val, found⟩
      obtain ⟨x, there, same, _⟩ := (view key val).mp found
      exact ⟨x, perm.mem_iff.mpr there, same⟩

end Answers

/-- What `get`, `del` and `keys` answer after a run, and that other commands do not matter to `get`. -/
theorem key_value_semantics {cm : CommandMap} {trace : List Done} (run : Run cm trace) :
    (∀ commandList around key, Request.command commandList = .get key →
      ∃ cm' value, Request.run cm around commandList [] = some (cm', Value.encoded value) ∧ value.Fits ∧
        (∀ val, lastSet trace key = some val → value = .str val) ∧ (live trace key = false → value = .nil)) ∧
    (∀ commandList around key, Request.command commandList = .del key →
      ∃ cm', Request.run cm around commandList [] =
          some (cm', (Value.int (if live trace key then 1 else 0)).encoded) ∧
        ∀ reply, live (trace ++ [⟨commandList, reply⟩]) key = false) ∧
    (∀ commandList around, Request.command commandList = .keys →
      ∃ (cm' : CommandMap) (names : List Bytes),
        Request.run cm around commandList [] = some (cm', (Value.arr (names.map .str)).encoded) ∧
        (Value.arr (names.map .str)).Fits ∧ names.Nodup ∧ ∀ key, key ∈ names ↔ live trace key = true) ∧
    (∀ cm₂ trace₂ front c back key, Run cm₂ trace₂ → ¬Touches key c →
      trace.map Done.command = front ++ c :: back → trace₂.map Done.command = front ++ back →
      ∀ commandList around around₂, Request.command commandList = .get key →
        ∃ cm' cm₂' reply, Request.run cm around commandList [] = some (cm', reply) ∧
          Request.run cm₂ around₂ commandList [] = some (cm₂', reply)) := by
  have follows := run.follows
  refine ⟨fun _ _ _ shape => get_answered follows shape, fun _ _ _ shape => del_answered follows shape,
    fun _ _ shape => keys_answered follows shape, ?_⟩
  intro cm₂ trace₂ front c back key run₂ away first second commandList around around₂ shape
  obtain ⟨present, sound, view⟩ := follows.state
  obtain ⟨present₂, sound₂, view₂⟩ := run₂.follows.state
  obtain ⟨s, result, _⟩ := get_sound sound view key []
  obtain ⟨s₂, result₂, _⟩ := get_sound sound₂ view₂ key []
  have same : valueAfter (trace.map Done.command) key = valueAfter (trace₂.map Done.command) key := by
    rw [first, second]
    simp only [valueAfter, List.foldl_append, List.foldl_cons, effect_of_not_touches away]
  rw [← same] at result₂
  exact ⟨_, _, _, by rw [Request.run, shape]; exact result, by rw [Request.run, shape]; exact result₂⟩

/-- After `set k v` alone, `get k` answers `v` and `keys` lists `k`. -/
theorem key_value_semantics_set :
    ∃ cm, Run cm [⟨[text "set", text "k", text "v"], Value.nil.encoded⟩] ∧
      (∃ cm' value, Request.run cm ⟨.guarded, .guarded⟩ [text "GET", text "k"] [] = some (cm', Value.encoded value) ∧
        value = .str (text "v")) ∧
      ∃ (cm' : CommandMap) (names : List Bytes),
        Request.run cm ⟨.guarded, .guarded⟩ [text "keys"] [] = some (cm', (Value.arr (names.map .str)).encoded) ∧
        names.Nodup ∧ text "k" ∈ names := by
  have first : Run _ [⟨[text "set", text "k", text "v"], Value.nil.encoded⟩] :=
    @Run.step _ _ _ ⟨.guarded, .guarded⟩ _ _ Run.empty (by decide) rfl (by decide)
  obtain ⟨get, _, keys, _⟩ := key_value_semantics first
  obtain ⟨cm', value, result, _, found, _⟩ :=
    get [text "GET", text "k"] ⟨.guarded, .guarded⟩ (text "k") (by rfl)
  obtain ⟨cm'', names, listed, _, distinct, names_live⟩ := keys [text "keys"] ⟨.guarded, .guarded⟩ (by rfl)
  exact ⟨_, first, ⟨cm', value, result, found _ (by rfl)⟩, cm'', names, listed, distinct,
    (names_live _).mpr (by rfl)⟩

end Coxx.Common
