import Coxx.Avl.Navigation
import Coxx.Common.Semantics
import Coxx.Map.Runs

/-! Every command answers, while there is memory and the names of members hold no NUL byte. -/

set_option autoImplicit false

namespace Coxx.Common

open Library BinaryTree Zset

/-- The names of members in a command, those to seek included. -/
def Request.Command.names : Request.Command → List Bytes
  | .zadd _ _ name | .zrem _ name | .zscore _ name | .zquery _ _ name _ _ => [name]
  | _ => []

/-- The memory is full of entries, or of the members of a sorted set. -/
def Full (cm : CommandMap) : Prop :=
  MAX_OBJECTS ≤ Map.CMapSize cm.db.map ∨
    ∃ visited, Map.Visits cm.db visited ∧ ∃ x ∈ visited, ∃ set, (cm.entries x).set = some set ∧
      MAX_OBJECTS ≤ Map.CMapSize set.map.map

/-- The databases that commands lead to, with whatever names, from the one of a server that starts. -/
inductive Reachable : CommandMap → Prop where
  | init : Reachable initCommandMap
  | run {cm cm' : CommandMap} {around : Surroundings} {commandList : List Bytes} {reply : Bytes} : Reachable cm →
      Request.run cm around commandList [] = some (cm', reply) → Reachable cm'

theorem Reachable.sound {cm : CommandMap} (reachable : Reachable cm) :
    ∃ present values, Sound cm present ∧ Values cm present values := by
  induction reachable with
  | init => exact ⟨[], fun _ => none, initCommandMap_sound, by intro key val; simp⟩
  | run _ result ih =>
      obtain ⟨present, values, sound, view⟩ := ih
      obtain ⟨present', sound', view'⟩ := (run_kept sound view _ result).state
      exact ⟨present', _, sound', view'⟩

/-- A series of requests with nothing readable behind their strings: the database after it, and the replies. -/
def runAll (cm : CommandMap) : List (List Bytes) → Option (CommandMap × List Done)
  | [] => some (cm, [])
  | commandList :: rest => do
    let (cm, reply) ← Request.run cm ⟨.guarded, .guarded⟩ commandList []
    let (cm, trace) ← runAll cm rest
    some (cm, ⟨commandList, reply⟩ :: trace)

theorem runAll_cons {cm cm' : CommandMap} {commandList : List Bytes} {rest : List (List Bytes)} {trace : List Done}
    (result : runAll cm (commandList :: rest) = some (cm', trace)) :
    ∃ between reply later, Request.run cm ⟨.guarded, .guarded⟩ commandList [] = some (between, reply) ∧
      runAll between rest = some (cm', later) ∧ trace = ⟨commandList, reply⟩ :: later := by
  simp only [runAll, Option.bind_eq_bind, Option.bind_eq_some_iff] at result
  obtain ⟨⟨between, reply⟩, first, ⟨cm'', later⟩, second, same⟩ := result
  cases same
  exact ⟨between, reply, later, first, second, rfl⟩

theorem Reachable.runAll {cm cm' : CommandMap} {requests : List (List Bytes)} {trace : List Done} (reachable : Reachable cm)
    (result : runAll cm requests = some (cm', trace)) : Reachable cm' := by
  induction requests generalizing cm trace with
  | nil =>
      cases result
      exact reachable
  | cons commandList rest ih =>
      obtain ⟨between, reply, later, first, second, _⟩ := runAll_cons result
      exact ih (reachable.run first) second

/-- Requests that leave a string, and a sorted set of three members. -/
def sample : List (List Bytes) :=
  [[text "set", text "s", text "v"], [text "zadd", text "k", text "1", text "m"],
    [text "zadd", text "k", text "2", text "n"], [text "zadd", text "k", text "0.5", text "a"]]

theorem sample_reachable : ∃ cm trace, runAll initCommandMap sample = some (cm, trace) ∧ Reachable cm := by
  have there : (runAll initCommandMap sample).isSome = true := by decide +kernel
  obtain ⟨⟨cm, trace⟩, result⟩ := Option.isSome_iff_exists.mp there
  exact ⟨cm, trace, result, Reachable.init.runAll result⟩

section Members

variable {set : ZSet} {tree : BinaryTree Addr}

theorem outputMembers_ends (sound : Zset.Sound set tree) (limit : Int) {fuel : Nat} {front back : List Addr}
    {node : Option Addr} (n : Nat) (output : Bytes) (split : inorder tree = front ++ back)
    (here : node = none ∨ node = back.head?) (enough : back.length ≤ fuel) :
    ∃ result, Request.outputMembers fuel set limit node n output = some result := by
  induction fuel generalizing front back node n output with
  | zero =>
      have nothing : back = [] := List.length_eq_zero_iff.mp (by omega)
      subst nothing
      obtain rfl : node = none := by simpa using here
      exact ⟨_, by rw [Request.outputMembers.eq_def]⟩
  | succ fuel ih =>
      rw [Request.outputMembers.eq_def]
      cases node with
      | none => exact ⟨_, rfl⟩
      | some x =>
          simp only
          split
          · obtain ⟨back, rfl⟩ : ∃ rest, back = x :: rest := by
              cases back with
              | nil => simp at here
              | cons y back => exact ⟨back, by simp at here; rw [here]⟩
            have fits := sound.fits
            have high := height_le_numNodes tree
            obtain ⟨found, next, ahead⟩ := Avl.offsetAVL_returns sound.holds (by omega) split 1
              (show 2 * tree.height ≤ set.rounds by rw [sound.rounds_eq]; omega)
            simp only [offset, next, Option.bind_eq_bind, Option.bind_some]
            cases found with
            | none => exact @ih (inorder tree) [] _ _ _ (by simp) (.inl rfl) (Nat.zero_le _)
            | some y =>
                -- the next member lies behind this one, so what is left gets shorter
                obtain ⟨between, rest, rfl⟩ := List.append_of_mem ((ahead y rfl).1 (by decide))
                refine @ih (front ++ x :: between) (y :: rest) _ _ _ (by simpa using split) (.inr rfl) ?_
                simp only [List.length_cons, List.length_append] at enough ⊢
                omega
          · exact ⟨_, rfl⟩

theorem offset_ends (sound : Zset.Sound set tree) {node : Option Addr} (member : ∀ x, node = some x → x ∈ inorder tree)
    (off : Int) :
    ∃ found, offset set node off = some found ∧ ∀ y, found = some y → y ∈ inorder tree := by
  cases node with
  | none => exact ⟨none, rfl, by simp⟩
  | some x =>
      have fits := sound.fits
      have high := height_le_numNodes tree
      obtain ⟨front, back, split⟩ := List.append_of_mem (member x rfl)
      obtain ⟨found, result, sides⟩ := Avl.offsetAVL_returns sound.holds (by omega) split off
        (show 2 * tree.height ≤ set.rounds by rw [sound.rounds_eq]; omega)
      refine ⟨found, result, fun y same => ?_⟩
      obtain ⟨ahead, behind, still⟩ := sides y same
      rw [split, List.mem_append, List.mem_cons]
      rcases lt_trichotomy off 0 with less | equal | more
      · exact .inl (behind less)
      · exact .inr (.inl (still equal))
      · exact .inr (.inr (ahead more))

theorem queryMembers_ends (sound : Zset.Sound set tree) (around : Surroundings) {score : Double} {name : Bytes}
    (number : score.isNaN = false) (clean : Clean name) (off limit : Int) :
    ∃ out, Request.queryMembers set around score name off limit [] = some out := by
  obtain ⟨front, back, split, found, _⟩ := @query_sound set tree sound score ⟨name, around.name⟩ number
  have inside : ∀ x, back.head? = some x → x ∈ inorder tree := fun x here => by
    rw [split]
    exact List.mem_append_right _ (List.mem_of_mem_head? here)
  obtain ⟨start, moved, member⟩ := offset_ends sound inside off
  have fits := sound.rounds_eq
  have size := length_inorder tree
  obtain ⟨⟨output, n⟩, listed⟩ : ∃ result,
      Request.outputMembers set.rounds set limit start 0 (Out.begin_arr []).1 = some result := by
    cases start with
    | none => exact @outputMembers_ends _ _ sound limit _ (inorder tree) [] _ 0 _ (by simp) (.inl rfl) (Nat.zero_le _)
    | some x =>
        obtain ⟨before, rest, here⟩ := List.append_of_mem (member x rfl)
        refine outputMembers_ends sound limit 0 _ here (.inr rfl) ?_
        have := congrArg List.length here
        simp only [List.length_append] at this
        omega
  obtain ⟨items, rfl, rfl, _⟩ := outputMembers_values listed (by decide)
  rw [Nat.zero_add] at listed
  refine ⟨(Value.arr items).encoded, ?_⟩
  unfold Request.queryMembers
  rw [cString_eq clean]
  simp only [found, moved, listed, end_arr_encoded, Option.bind_eq_bind, Option.bind_some]

end Members

section Answers

variable {cm : CommandMap} {present : List Addr}

theorem Sound.visits (sound : Sound cm present) {visited : List Addr} (visits : Map.Visits cm.db visited) :
    visited.Perm present :=
  sound.tracks.visited visits

theorem Sound.room (sound : Sound cm present) (space : ¬Full cm) :
    present.length < MAX_OBJECTS ∧ ∀ x ∈ present, ∀ set, (cm.entries x).set = some set →
      ∀ tree, Zset.Sound set tree → tree.numNodes < MAX_OBJECTS := by
  unfold Full at space
  rw [not_or, sound.tracks.size_eq, not_le] at space
  refine ⟨space.1, fun x member set here tree setSound => ?_⟩
  obtain ⟨_, visits, _, same⟩ := sound.tracks.visits
  by_contra full
  refine space.2 ⟨_, visits, x, same.mem_iff.mpr member, set, here, ?_⟩
  rw [setSound.size_eq]
  omega

theorem addMember_ends (sound : Sound cm present) (around : Surroundings) {node : Addr} {score : Double} {name : Bytes}
    (member : node ∈ present) (typed : (cm.entries node).type = .ZSET) (number : score.isNaN = false)
    (clean : Clean name) (room : ∀ set, (cm.entries node).set = some set →
      ∀ tree, Zset.Sound set tree → tree.numNodes < MAX_OBJECTS) :
    ∃ result, Request.addMember cm around node score name [] = some result := by
  obtain ⟨set, tree, scores, here, setSound, keyed, maps⟩ := (sound.entries node member).members typed
  obtain ⟨set', _, added, _⟩ := add_whole setSound keyed maps ⟨name, around.name⟩ around.copy clean number
    (room set here tree setSound)
  unfold Request.addMember
  rw [cString_eq clean]
  exact ⟨_, by simp only [here, added, Option.bind_eq_bind, Option.bind_some]; rfl⟩

theorem expectZSet_ends {cm : CommandMap} {present : List Addr} (sound : Sound cm present) (key : Bytes)
    {rest : CommandMap × Bytes × Option Addr → Option (CommandMap × Bytes)}
    (missing : ∀ cm output, ∃ result, rest (cm, output, none) = some result)
    (found : ∀ db, Sound { cm with db := db } present → ∀ n ∈ present, (cm.entries n).type = .ZSET →
      ∃ result, rest ({ cm with db := db }, [], some n) = some result) :
    ∃ result, (Request.expectZSet cm key []).bind rest = some result := by
  obtain ⟨db, output, entry, expected, sound', hit, _⟩ := expectZSet_sound sound key []
  rw [expected, Option.bind_some]
  cases entry with
  | none => exact missing _ output
  | some n =>
      obtain ⟨member, _, typed, rfl⟩ := hit n rfl
      exact found db sound' n member typed

theorem zadd_ends (sound : Sound cm present) (space : ¬Full cm) (around : Surroundings) (key score name : Bytes)
    (clean : Clean name) : ∃ result, Request.zadd cm around key score name [] = some result := by
  obtain ⟨space, room⟩ := sound.room space
  unfold Request.zadd
  cases parsed : strToDouble score with
  | none => exact ⟨_, rfl⟩
  | some number =>
      have isNumber := strToDouble_number parsed
      obtain ⟨db, found, looked, sound', hit, miss⟩ := lookup_sound sound key
      simp only [looked, Option.bind_eq_bind, Option.bind_some]
      cases found with
      | none =>
          obtain ⟨s, inserted, sound''⟩ := insert_sound sound' (entrySound_new key) (miss rfl) space
          simp only [inserted, Option.bind_some]
          apply addMember_ends sound'' around (by simp) (by simp) isNumber clean
          intro set here tree setSound
          simp only [Function.update_self, Option.some.injEq] at here
          subst here
          rw [← setSound.size_eq]
          decide
      | some n =>
          simp only
          split
          · exact ⟨_, rfl⟩
          · rename_i typed
            exact addMember_ends sound' around (hit n rfl).1 (not_not.mp typed) isNumber clean (room n (hit n rfl).1)

theorem zrem_ends (sound : Sound cm present) (around : Surroundings) (key name : Bytes) (clean : Clean name) :
    ∃ result, Request.zrem cm around key name [] = some result := by
  apply expectZSet_ends sound key
  · exact fun cm output => ⟨_, rfl⟩
  · intro db sound' n member typed
    obtain ⟨set, tree, scores, here, setSound, keyed, maps⟩ := (sound.entries n member).members typed
    obtain ⟨set', found, _, popped, _⟩ := pop_whole setSound keyed maps ⟨name, around.name⟩ around.copy clean
    exact ⟨_, by simp only [here, cString_eq clean, popped, Option.bind_eq_bind, Option.bind_some]; rfl⟩

theorem zscore_ends (sound : Sound cm present) (around : Surroundings) (key name : Bytes) (clean : Clean name) :
    ∃ result, Request.zscore cm around key name [] = some result := by
  apply expectZSet_ends sound key
  · exact fun cm output => ⟨_, rfl⟩
  · intro db sound' n member typed
    obtain ⟨set, tree, _, here, setSound, keyed, _⟩ := (sound.entries n member).members typed
    obtain ⟨s, found, looked, _⟩ := lookup_whole setSound keyed ⟨name, around.name⟩ around.copy clean
    simp only [here, cString_eq clean, looked, Option.bind_eq_bind, Option.bind_some]
    cases found with
    | none => exact ⟨_, rfl⟩
    | some node => exact ⟨_, rfl⟩

theorem zquery_ends (sound : Sound cm present) (around : Surroundings) (key score name off limit : Bytes)
    (clean : Clean name) : ∃ result, Request.zquery cm around key score name off limit [] = some result := by
  unfold Request.zquery
  cases parsed : strToDouble score with
  | none => exact ⟨_, rfl⟩
  | some number =>
      have isNumber := strToDouble_number parsed
      simp only
      split
      · apply expectZSet_ends sound key
        · intro cm output
          simp only
          split
          · exact ⟨_, rfl⟩
          · exact ⟨_, rfl⟩
        · intro db sound' n member typed
          simp only
          split
          · exact ⟨_, rfl⟩
          · rename_i off limit _ _ _
            obtain ⟨set, tree, _, here, setSound, _⟩ := (sound.entries n member).members typed
            obtain ⟨out, listed⟩ := queryMembers_ends setSound around isNumber clean off limit
            exact ⟨_, by simp only [here, listed, Option.bind_eq_bind, Option.bind_some]; rfl⟩
      · exact ⟨_, rfl⟩

theorem run_ends (sound : Sound cm present) {values : Bytes → Option Bytes} (view : Values cm present values) (space : ¬Full cm)
    (around : Surroundings) (c : Request.Command) (clean : ∀ name ∈ c.names, Clean name) :
    ∃ result, c.run cm around [] = some result := by
  cases c with
  | keys =>
      obtain ⟨order, _, done⟩ := keys_sound sound []
      exact ⟨_, done⟩
  | get key =>
      obtain ⟨s, done, _⟩ := get_sound sound view key []
      exact ⟨_, done⟩
  | set key val =>
      obtain ⟨cm', _, done, _⟩ := set_sound sound view key val [] fun _ => (sound.room space).1
      exact ⟨_, done⟩
  | del key =>
      obtain ⟨s, _, done, _⟩ := del_sound sound view key []
      exact ⟨_, done⟩
  | zadd key score name => exact zadd_ends sound space around key score name (clean name (by simp [Request.Command.names]))
  | zrem key name => exact zrem_ends sound around key name (clean name (by simp [Request.Command.names]))
  | zscore key name => exact zscore_ends sound around key name (clean name (by simp [Request.Command.names]))
  | zquery key score name off limit =>
      exact zquery_ends sound around key score name off limit (clean name (by simp [Request.Command.names]))
  | unknown => exact ⟨_, rfl⟩

end Answers

end Coxx.Common
