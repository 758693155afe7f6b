import Coxx.Common.Runs
import Coxx.Common.Simulation

/-! Requests on the database run as on the store. -/

set_option autoImplicit false

namespace Coxx.Common

open Library BinaryTree Zset Request

/-- A command that has returned: its reply fits the contents, and the contents are changed as the command says. -/
def Simulated (contents : Contents) (c : Command) (cm' : CommandMap) (out : Bytes) : Prop :=
  ∃ value : Value, out = value.encoded ∧ value.Ranged ∧ contents.Answers c value ∧
    ∃ present, Refines cm' present (contents.after c)

section Commands

variable {cm cm' : CommandMap} {present : List Addr} {contents : Contents} {around : Surroundings}
  {key name out : Bytes}

theorem keys_simulated (refines : Refines cm present contents) (result : Request.keys cm [] = some (cm', out)) :
    Simulated contents .keys cm' out := by
  obtain ⟨order, perm, answer⟩ := keys_sound refines.sound []
  obtain ⟨rfl, rfl⟩ := Prod.mk.inj (Option.some.inj (answer.symm.trans result))
  refine ⟨.arr ((order.map fun x => (cm.entries x).key).map .str), ?_, ?_, ⟨_, ?_, ?_, rfl⟩, present, refines⟩
  · rw [foldl_keyScan, List.map_map, Value.encoded, List.length_map, perm.length_eq]
    rfl
  · exact Value.rangedAll_iff.mpr (by simp [Value.Ranged])
  · refine List.Nodup.map_on (fun x memberX y memberY same => ?_) (perm.nodup_iff.mpr refines.sound.tracks.nodup)
    exact refines.sound.unique x (perm.mem_iff.mp memberX) y (perm.mem_iff.mp memberY) same
  · intro key
    rw [refines.isSome_iff, List.mem_map]
    simp only [perm.mem_iff]

theorem get_simulated (refines : Refines cm present contents) (result : Request.get cm key [] = some (cm', out)) :
    Simulated contents (.get key) cm' out := by
  obtain ⟨s, found, looked, refines', miss, hit⟩ := refines.lookup key
  simp only [Request.get, looked, Option.bind_eq_bind, Option.bind_some] at result
  cases found with
  | none =>
      cases result
      exact ⟨.nil, rfl, trivial, by simp [Contents.Answers, miss rfl], present, refines'⟩
  | some n =>
      obtain ⟨_, _, item, here, stored⟩ := hit n rfl
      cases result
      exact ⟨.str (cm.entries n).val, rfl, trivial, by simp [Contents.Answers, here, stored.val], present, refines'⟩

theorem set_simulated (refines : Refines cm present contents) {val : Bytes}
    (result : Request.set cm key val [] = some (cm', out)) : Simulated contents (.set key val) cm' out := by
  obtain ⟨s, found, looked, refines', miss, hit⟩ := refines.lookup key
  simp only [Request.set, looked, Option.bind_eq_bind, Option.bind_some] at result
  cases found with
  | none =>
      obtain ⟨cm1, inserted, value⟩ := Option.bind_eq_some_iff.mp result
      cases value
      obtain ⟨_, refines''⟩ := refines'.insert (miss rfl) (@Stored.str ⟨key, .STR, val, none⟩ rfl rfl) inserted
      exact ⟨.nil, rfl, trivial, rfl, _, by simpa [Contents.after, miss rfl] using refines''⟩
  | some n =>
      obtain ⟨member, named, item, here, stored⟩ := hit n rfl
      cases result
      refine ⟨.nil, rfl, trivial, rfl, present, ?_⟩
      have kept : ({ cm.entries n with val := val } : Entry).key = key := named
      simpa [Contents.after, here] using refines'.setEntry member named kept (stored.setVal val)

theorem del_simulated (refines : Refines cm present contents) (result : Request.del cm key [] = some (cm', out)) :
    Simulated contents (.del key) cm' out := by
  obtain ⟨s, present', answer, refines'⟩ := refines.del key []
  obtain ⟨rfl, rfl⟩ := Prod.mk.inj (Option.some.inj (answer.symm.trans result))
  exact ⟨_, rfl, ranged_flag _, rfl, present', refines'⟩

theorem addMember_simulated {score : Double} {node : Addr} {set : ZSet} {tree : BinaryTree Addr}
    {members : SortedMembers} (refines : Refines cm present contents) (member : node ∈ present)
    (named : (cm.entries node).key = key) (type : (cm.entries node).type = .ZSET)
    (here : (cm.entries node).set = some set) (shown : Shown set tree members) (number : score.isNaN = false)
    (clean : Clean name) (result : Request.addMember cm around node score name [] = some (cm', out)) :
    out = (Contents.flag (members.find name).isNone).encoded ∧
      Refines cm' present (Function.update contents key
        (some (.zset (cm.entries node).val (members.put name (Zset.added (members.find name) score))))) := by
  simp only [Request.addMember, here, Option.bind_eq_bind, Option.bind_some] at result
  obtain ⟨⟨set', added⟩, new, value⟩ := Option.bind_eq_some_iff.mp result
  cases value
  obtain ⟨⟨tree', shown', _⟩, rfl⟩ := shown.add number clean new
  exact ⟨rfl, refines.setZSet member named type shown'⟩

theorem zadd_simulated (refines : Refines cm present contents) {score : Bytes} (clean : Clean name)
    (result : Request.zadd cm around key score name [] = some (cm', out)) :
    Simulated contents (.zadd key score name) cm' out := by
  cases parsed : strToDouble score with
  | none =>
      simp only [Request.zadd, parsed] at result
      cases result
      refine ⟨.err Error.ARG.code (text "expect fp number"), rfl, ranged_error _ _, ?_, present, ?_⟩
      · simp only [Contents.Answers, parsed]
      · simpa only [Contents.after, parsed] using refines
  | some number =>
      have isNumber := strToDouble_number parsed
      obtain ⟨s, found, looked, refines', miss, hit⟩ := refines.lookup key
      simp only [Request.zadd, parsed, looked, Option.bind_eq_bind, Option.bind_some] at result
      cases found with
      | none =>
          have missing := miss rfl
          obtain ⟨cm1, inserted, added⟩ := Option.bind_eq_some_iff.mp result
          obtain ⟨⟨s', rfl⟩, refines''⟩ := refines'.insert missing
            (@Stored.zset ⟨key, .ZSET, [], some initZSet⟩ _ _ _ rfl rfl shown_init) inserted
          have made : (withEntry { cm with db := s } s' ⟨key, .ZSET, [], some initZSet⟩).entries cm.fresh =
              ⟨key, .ZSET, [], some initZSet⟩ := by simp [withEntry]
          obtain ⟨rfl, kept⟩ := addMember_simulated refines'' List.mem_cons_self (congrArg Entry.key made)
            (congrArg Entry.type made) (congrArg Entry.set made) shown_init isNumber clean added
          refine ⟨_, rfl, ranged_flag _, ?_, cm.fresh :: present, ?_⟩
          · simp only [Contents.Answers, parsed, missing, Contents.onZSet, Ranking.find_empty, Option.isNone_none]
          · simpa [Contents.after, parsed, missing, Zset.added, made] using kept
      | some n =>
          obtain ⟨member, named, item, here, stored⟩ := hit n rfl
          cases stored with
          | str type alone =>
              simp only [type, ne_eq, reduceCtorEq, not_false_eq_true, if_true] at result
              cases result
              refine ⟨.err Error.TYPE.code (text "expect zset"), rfl, ranged_error _ _, ?_, present, ?_⟩
              · simp only [Contents.Answers, parsed, here, Contents.onZSet]
              · simpa [Contents.after, parsed, here] using refines'
          | zset type set shown =>
              simp only [type, ne_eq, not_true_eq_false, if_false] at result
              obtain ⟨rfl, kept⟩ := addMember_simulated refines' member named type set shown isNumber clean result
              refine ⟨_, rfl, ranged_flag _, ?_, present, ?_⟩
              · simp only [Contents.Answers, parsed, here, Contents.onZSet]
              · simpa only [Contents.after, parsed, here] using kept

theorem zrem_simulated (refines : Refines cm present contents) (clean : Clean name)
    (result : Request.zrem cm around key name [] = some (cm', out)) : Simulated contents (.zrem key name) cm' out := by
  obtain ⟨s, refines', ⟨missing, expected⟩ | ⟨val, here, expected⟩ |
    ⟨n, member, set, tree, members, named, type, same, shown, here, expected⟩⟩ := refines.expectZSet key []
  all_goals simp only [Request.zrem, expected, Option.bind_eq_bind, Option.bind_some] at result
  · cases result
    refine ⟨.nil, rfl, trivial, ?_, present, ?_⟩
    · simp only [Contents.Answers, missing, Contents.onZSet]
    · simpa only [Contents.after, missing] using refines'
  · cases result
    refine ⟨.err Error.TYPE.code (text "expect zset"), rfl, ranged_error _ _, ?_, present, ?_⟩
    · simp only [Contents.Answers, here, Contents.onZSet]
    · simpa only [Contents.after, here] using refines'
  · obtain ⟨set', found, tree', popped, shown', answer, _⟩ := @Shown.pop _ _ _ _ around shown clean
    simp only [same, popped, Option.bind_some, answer] at result
    cases result
    refine ⟨Contents.flag (members.find name).isSome, rfl, ranged_flag _, ?_, present, ?_⟩
    · simp only [Contents.Answers, here, Contents.onZSet]
    · simpa only [Contents.after, here] using refines'.setZSet member named type shown'

theorem zscore_simulated (refines : Refines cm present contents) (clean : Clean name)
    (result : Request.zscore cm around key name [] = some (cm', out)) :
    Simulated contents (.zscore key name) cm' out := by
  obtain ⟨s, refines', ⟨missing, expected⟩ | ⟨val, here, expected⟩ |
    ⟨n, member, set, tree, members, named, type, same, shown, here, expected⟩⟩ := refines.expectZSet key []
  all_goals simp only [Request.zscore, expected, Option.bind_eq_bind, Option.bind_some] at result
  · cases result
    exact ⟨.nil, rfl, trivial, by simp only [Contents.Answers, missing, Contents.onZSet], present, refines'⟩
  · cases result
    refine ⟨.err Error.TYPE.code (text "expect zset"), rfl, ranged_error _ _, ?_, present, refines'⟩
    simp only [Contents.Answers, here, Contents.onZSet]
  · obtain ⟨s', found, looked, shown', score⟩ := @Shown.lookup _ _ _ _ around shown clean
    simp only [same, looked, Option.bind_some] at result
    have kept : Refines (Request.setZSet { cm with db := s } n { set with map := s' }) present contents := by
      simpa only [← here, Function.update_eq_self] using refines'.setZSet member named type shown'
    cases found with
    | none =>
        cases result
        refine ⟨.nil, rfl, trivial, ?_, present, kept⟩
        simp only [Contents.Answers, here, Contents.onZSet, score, Option.map_none]
    | some x =>
        cases result
        refine ⟨.dbl (set.nodes x).score, rfl, trivial, ?_, present, kept⟩
        simp only [Contents.Answers, here, Contents.onZSet, score, Option.map_some]

theorem rangeReply_eq (members : SortedMembers) (score : Double) (name : Bytes) (off limit : Int) :
    rangeReply members.list score name off limit = (Contents.listing members score name off limit).encoded := by
  have same : rankBelow members.list score name = members.below (rankOf score name) := rfl
  unfold rangeReply Contents.listing Ranking.range
  rw [same]
  by_cases none : members.below (rankOf score name) = members.list.length ∨ members.below (rankOf score name) + off < 0
  · rw [if_pos (none.elim .inl fun front => .inr (.inl front)), if_pos none]
    rfl
  · rw [if_neg none]
    by_cases behind : (members.list.length : Int) ≤ members.below (rankOf score name) + off
    · rw [if_pos (.inr (.inr behind)), List.drop_of_length_le (by omega), List.take_nil]
      rfl
    · rw [if_neg (by omega)]
      simp only [Value.encoded, length_pairs, Out.arr, List.nil_append, List.length_take, List.length_drop]
      rw [Nat.min_comm (half limit), ← List.length_drop, Nat.min_comm, ← List.take_take, List.take_length]

theorem ranged_listing (members : SortedMembers) (score : Double) (name : Bytes) (off limit : Int) :
    (Contents.listing members score name off limit).Ranged := by
  refine Value.rangedAll_iff.mpr fun item listed => ?_
  obtain ⟨member, _, pair⟩ := List.mem_flatMap.mp listed
  simp only [List.mem_cons, List.not_mem_nil, or_false] at pair
  rcases pair with rfl | rfl <;> trivial

theorem zquery_simulated (refines : Refines cm present contents) {score off limit : Bytes} (clean : Clean name)
    (result : Request.zquery cm around key score name off limit [] = some (cm', out)) :
    Simulated contents (.zquery key score name off limit) cm' out := by
  cases parsed : strToDouble score with
  | none =>
      simp only [Request.zquery, parsed] at result
      cases result
      exact ⟨.err Error.ARG.code (text "expect fp number"), rfl, ranged_error _ _, fun _ => by simp only [parsed],
        present, refines⟩
  | some number =>
      by_cases ints : (strToInt off).isSome ∧ (strToInt limit).isSome
      · obtain ⟨places, offParsed⟩ := Option.isSome_iff_exists.mp ints.1
        obtain ⟨count, limitParsed⟩ := Option.isSome_iff_exists.mp ints.2
        obtain ⟨s, refines', ⟨missing, expected⟩ | ⟨val, here, expected⟩ |
          ⟨n, member, set, tree, members, named, type, same, shown, here, expected⟩⟩ := refines.expectZSet key []
        all_goals simp only [Request.zquery, parsed, offParsed, limitParsed, expected, Option.bind_eq_bind,
          Option.bind_some] at result
        · cases result
          refine ⟨.arr [], rfl, trivial, fun _ => ?_, present, refines'⟩
          simp only [parsed, offParsed, limitParsed, missing, Contents.onZSet]
        · cases result
          refine ⟨.err Error.TYPE.code (text "expect zset"), rfl, ranged_error _ _, fun _ => ?_, present, refines'⟩
          simp only [parsed, offParsed, limitParsed, here, Contents.onZSet]
        · split at result
          · rename_i empty
            cases result
            refine ⟨.arr [], rfl, trivial, fun _ => ?_, present, refines'⟩
            simp only [parsed, offParsed, limitParsed, here, Contents.onZSet, if_pos empty]
          · rename_i positive
            simp only [same, Option.bind_some] at result
            obtain ⟨output, listed, value⟩ := Option.map_eq_some_iff.mp result
            cases value
            by_cases few : members.list.length < 2 ^ 31
            · rw [queryMembers_range shown.sound (by rw [shown.length_eq]; exact few) around (strToDouble_number parsed)
                clean, ← shown.list_eq, rangeReply_eq] at listed
              cases listed
              refine ⟨_, rfl, ranged_listing _ _ _ _ _, fun _ => ?_, present, refines'⟩
              simp only [parsed, offParsed, limitParsed, here, Contents.onZSet, if_neg positive]
            · obtain ⟨items, rfl, ranged⟩ := queryMembers_value listed
              exact ⟨.arr items, rfl, ranged, fun small => absurd (small _ _ here) few, present, refines'⟩
      · have unread : Request.zquery cm around key score name off limit [] =
            some (cm, Out.err [] Error.ARG.code (text "expect int")) := by
          unfold Request.zquery
          cases left : strToInt off <;> cases right : strToInt limit <;> simp_all
        rw [unread] at result
        cases result
        refine ⟨.err Error.ARG.code (text "expect int"), rfl, ranged_error _ _, fun _ => ?_, present, refines⟩
        cases left : strToInt off <;> cases right : strToInt limit <;> simp_all

theorem run_simulated (refines : Refines cm present contents) (c : Command) (clean : ∀ name ∈ c.names, Clean name)
    (result : c.run cm around [] = some (cm', out)) : Simulated contents c cm' out := by
  cases c with
  | keys => exact keys_simulated refines result
  | get key => exact get_simulated refines result
  | set key val => exact set_simulated refines result
  | del key => exact del_simulated refines result
  | zadd key score name => exact zadd_simulated refines (clean name (by simp [Command.names])) result
  | zrem key name => exact zrem_simulated refines (clean name (by simp [Command.names])) result
  | zscore key name => exact zscore_simulated refines (clean name (by simp [Command.names])) result
  | zquery key score name off limit => exact zquery_simulated refines (clean name (by simp [Command.names])) result
  | unknown =>
      cases result
      exact ⟨.err Error.UNKNOWN.code (text "Unknown cmd"), rfl, ranged_error _ _, rfl, present, refines⟩

end Commands

/-! ### Runs -/

/-- The runs of requests whose names hold no NUL bytes, from the database of a server that starts. -/
inductive CleanRun : CommandMap → List Done → Prop where
  | start : CleanRun initCommandMap []
  | step {cm cm' : CommandMap} {trace : List Done} {around : Surroundings} {commandList : List Bytes} {reply : Bytes} :
      CleanRun cm trace → (∀ name ∈ (command commandList).names, Clean name) →
      Request.run cm around commandList [] = some (cm', reply) → CleanRun cm' (trace ++ [⟨commandList, reply⟩])

section Runs

variable {cm : CommandMap} {trace : List Done}

theorem CleanRun.serves (run : CleanRun cm trace) :
    ∃ contents present, Contents.Serves trace contents ∧ Refines cm present contents := by
  induction run with
  | start => exact ⟨_, _, .start, refines_init⟩
  | step before clean result ih =>
      obtain ⟨contents, present, serves, refines⟩ := ih
      obtain ⟨value, rfl, ranged, answers, present', refines'⟩ := run_simulated refines _ clean result
      exact ⟨_, present', serves.answer ranged answers, refines'⟩

theorem CleanRun.answers (run : CleanRun cm trace) (space : ¬Full cm) {commandList : List Bytes}
    (clean : ∀ name ∈ (command commandList).names, Clean name) (around : Surroundings) :
    ∃ cm' reply, Request.run cm around commandList [] = some (cm', reply) := by
  obtain ⟨contents, present, _, refines⟩ := run.serves
  obtain ⟨values, view⟩ := exists_view refines.sound Entry.val
  obtain ⟨⟨cm', reply⟩, result⟩ := run_ends refines.sound view space around (command commandList) clean
  exact ⟨cm', reply, result⟩

/-- Whatever was requested, the database has answered as the store does, and it goes on to do so while there is memory. -/
theorem requests_served (run : CleanRun cm trace) :
    ∃ contents, Contents.Serves trace contents ∧
      ∀ commandList around, (∀ name ∈ (command commandList).names, Clean name) →
        (¬Full cm → ∃ cm' reply, Request.run cm around commandList [] = some (cm', reply)) ∧
        ∀ cm' reply, Request.run cm around commandList [] = some (cm', reply) →
          Contents.Serves (trace ++ [⟨commandList, reply⟩]) (contents.after (command commandList)) := by
  obtain ⟨contents, present, serves, refines⟩ := run.serves
  refine ⟨contents, serves, fun commandList around clean => ⟨fun space => run.answers space clean around, ?_⟩⟩
  intro cm' reply result
  obtain ⟨value, rfl, ranged, answers, _⟩ := run_simulated refines _ clean result
  exact serves.answer ranged answers

end Runs

theorem CleanRun.runAll {cm cm' : CommandMap} {trace later : List Done} {requests : List (List Bytes)}
    (run : CleanRun cm trace) (clean : ∀ commandList ∈ requests, ∀ name ∈ (command commandList).names, Clean name)
    (result : runAll cm requests = some (cm', later)) : CleanRun cm' (trace ++ later) := by
  induction requests generalizing cm trace later with
  | nil =>
      cases result
      rwa [List.append_nil]
  | cons commandList rest ih =>
      obtain ⟨between, reply, after, first, second, rfl⟩ := runAll_cons result
      have next := run.step (clean commandList List.mem_cons_self) first
      rw [List.append_cons]
      exact ih next (fun other member => clean other (List.mem_cons_of_mem _ member)) second

/-- A string and a sorted set. -/
theorem requests_served_sample : ∃ cm trace contents, CleanRun cm trace ∧ trace.length = 4 ∧
    Contents.Serves trace contents := by
  obtain ⟨cm, trace, made, _⟩ := sample_reachable
  have run := CleanRun.start.runAll (by decide) made
  rw [List.nil_append] at run
  obtain ⟨contents, serves, _⟩ := requests_served run
  have evaluated : (runAll initCommandMap sample).map (fun after => after.2.length) = some 4 := by decide +kernel
  rw [made] at evaluated
  exact ⟨cm, trace, contents, run, Option.some.inj evaluated, serves⟩

/-! ### Listings -/

def Request.Command.Changes (key : Bytes) : Command → Prop
  | .set target _ | .del target | .zadd target _ _ | .zrem target _ => target = key
  | _ => False

theorem Contents.after_of_not_changes (contents : Contents) {key : Bytes} {c : Command} (away : ¬c.Changes key) :
    contents.after c key = contents key := by
  cases c with
  | set target val => exact Function.update_of_ne (Ne.symm away) _ _
  | del target => exact Function.update_of_ne (Ne.symm away) _ _
  | zadd target score name =>
      have other : key ≠ target := Ne.symm away
      cases number : strToDouble score with
      | none => simp [Contents.after, number]
      | some number' => rcases known : contents target with _ | ⟨_ | _⟩ <;> simp [Contents.after, number, known, other]
  | zrem target name =>
      have other : key ≠ target := Ne.symm away
      rcases known : contents target with _ | ⟨_ | _⟩ <;> simp [Contents.after, known, other]
  | keys | get | zscore | zquery | unknown => rfl

/-- While nothing changes what a key stands for, every request is answered by what it stands for at the end. -/
theorem Contents.Serves.answered {front later : List Done} {contents : Contents} {key : Bytes}
    (serves : Contents.Serves (front ++ later) contents) (untouched : ∀ done ∈ later, ¬done.command.Changes key) :
    ∀ done ∈ later, ∃ before value, done.reply = Value.encoded value ∧ Contents.Answers before done.command value ∧
      before key = contents key := by
  induction later using List.reverseRecOn generalizing contents with
  | nil => simp
  | append_singleton later last ih =>
      rw [← List.append_assoc] at serves
      generalize whole : front ++ later ++ [last] = trace at serves
      cases serves with
      | start => simp at whole
      | @answer _ earlier _ _ serves _ answers =>
          obtain ⟨rfl, rfl⟩ := List.append_inj' whole rfl |>.imp id List.singleton_inj.mp
          have same := Contents.after_of_not_changes earlier (untouched _ (List.mem_append_right _ List.mem_cons_self))
          intro done member
          rcases List.mem_append.mp member with early | late
          · obtain ⟨before, value, reply, answered, kept⟩ :=
              ih serves (fun done inside => untouched done (List.mem_append_left _ inside)) done early
            exact ⟨before, value, reply, answered, kept.trans same.symm⟩
          · obtain rfl := List.mem_singleton.mp late
            exact ⟨_, _, rfl, answers, same.symm⟩

/-- Queries for one page after the other, among whatever requests that leave the key alone, list the members from a score
and name on, each of them once. A member takes two of the values that the limit counts, so a page holds half as many of
them. -/
theorem pages_listed {cm : CommandMap} {front later : List Done} (run : CleanRun cm (front ++ later)) {key : Bytes}
    (untouched : ∀ done ∈ later, ¬done.command.Changes key) {set : ZSet} (zset : HasZSet cm key set) :
    ∃ members, Ranked set members ∧ (members.length < 2 ^ 31 →
      ∀ (score name limit : Bytes) (seek : Double) (count : Int) (offs replies : Nat → Bytes) (pages : Nat),
        strToDouble score = some seek → strToInt limit = some count → 0 < count →
        (∀ page < pages, strToInt (offs page) = some ((page * half count : Nat) : Int)) →
        (∀ page < pages, ⟨[text "zquery", key, score, name, offs page, limit], replies page⟩ ∈ later) →
        ∃ listings, (∀ page < pages, replies page = (Value.arr (pairs (listings page))).encoded) ∧
          (List.range pages).flatMap listings =
            (members.filter fun member => rankOf seek name ≤ member.rank).take (pages * half count)) := by
  obtain ⟨contents, present, serves, refines⟩ := run.serves
  obtain ⟨cm', node, expected, here⟩ := zset
  obtain ⟨s, _, ⟨_, other⟩ | ⟨_, _, other⟩ | ⟨n, member, set', tree, members, _, type, same, shown, known, other⟩⟩ :=
    refines.expectZSet key []
  all_goals
    rw [other] at expected
    cases expected
  obtain rfl := Option.some.inj (same.symm.trans here)
  refine ⟨members.list, shown.list_eq ▸ ranked shown.sound, ?_⟩
  intro few score name limit seek count offs replies pages parsed counted positive places asked
  refine ⟨fun page => members.range (rankOf seek name) ((page * half count : Nat) : Int) (half count), ?_,
    members.range_pages _ _ _⟩
  intro page early
  obtain ⟨before, value, reply, answers, kept⟩ := serves.answered untouched _ (asked page early)
  have query : Done.command ⟨[text "zquery", key, score, name, offs page, limit], replies page⟩ =
      .zquery key score name (offs page) limit := rfl
  rw [query] at answers
  have countable : Contents.Countable (before key) := by
    intro val' members' found
    rw [kept, known] at found
    cases found
    exact few
  have listed := answers countable
  simp only [parsed, places page early, counted, kept, known, Contents.onZSet, if_neg (not_le.mpr positive)] at listed
  rw [listed] at reply
  exact reply

/-- Queries of the sample for its pages. Between them, the string is written and another set is made. -/
def paging : List (List Bytes) :=
  [[text "zquery", text "k", text "0", [], text "0", text "2"], [text "set", text "s", text "w"],
    [text "zquery", text "k", text "0", [], text "1", text "2"], [text "zadd", text "l", text "1", text "m"],
    [text "zquery", text "k", text "0", [], text "2", text "2"]]

/-- Three pages of one member each. -/
theorem pages_listed_sample : ∃ (cm : CommandMap) (front later : List Done) (set : ZSet) (members : List Member),
    CleanRun cm (front ++ later) ∧ later.map Done.commandList = paging ∧ Ranked set members ∧ members.length = 3 ∧
    ∃ listings : Nat → List Member,
      (∀ page < 3, (Value.arr (pairs (listings page))).encoded ∈ later.map Done.reply) ∧
      (List.range 3).flatMap listings =
        (members.filter fun member => rankOf ⟨0⟩ [] ≤ member.rank).take (3 * half 2) := by
  obtain ⟨start, front, made, reachable⟩ := sample_reachable
  have evaluated : ((runAll initCommandMap sample).bind fun before => (runAll before.1 paging).map fun after =>
      sized after.1 (text "k")) = some (some (some 1, some 3)) := by decide +kernel
  rw [made, Option.bind_some] at evaluated
  obtain ⟨⟨cm, later⟩, asked, three⟩ := Option.map_eq_some_iff.mp evaluated
  have run := (CleanRun.start.runAll (by decide) made).runAll (by decide) asked
  rw [List.nil_append] at run
  obtain ⟨_, set, tree, scores, holding, counted⟩ := holding_of_sized (reachable.runAll asked) three
  obtain ⟨_, first, _, _, asked1, rfl⟩ := runAll_cons asked
  obtain ⟨_, written, _, _, asked2, rfl⟩ := runAll_cons asked1
  obtain ⟨_, second, _, _, asked3, rfl⟩ := runAll_cons asked2
  obtain ⟨_, other, _, _, asked4, rfl⟩ := runAll_cons asked3
  obtain ⟨_, third, _, _, asked5, rfl⟩ := runAll_cons asked4
  cases asked5
  obtain ⟨_, expected, _⟩ := holding.expectZSet []
  obtain ⟨members, ranked, answers⟩ := pages_listed run (by
    intro done member
    simp only [List.mem_cons, List.not_mem_nil, or_false] at member
    rcases member with rfl | rfl | rfl | rfl | rfl
    · exact id
    · exact (by decide : text "s" ≠ text "k")
    · exact id
    · exact (by decide : text "l" ≠ text "k")
    · exact id) ⟨_, _, expected, holding.here⟩
  have size : members.length = 3 := (ranked.length_eq holding.setSound).trans counted
  have early : ∀ page < 3, page = 0 ∨ page = 1 ∨ page = 2 := by omega
  obtain ⟨listings, listed, whole⟩ := answers (by rw [size]; decide) (text "0") [] (text "2") ⟨0⟩ 2
    (fun page => if page = 0 then text "0" else if page = 1 then text "1" else text "2")
    (fun page => if page = 0 then first else if page = 1 then second else third) 3 (by decide) (by decide) (by decide)
    (by decide) (fun page few => by rcases early page few with rfl | rfl | rfl <;> simp)
  refine ⟨cm, front, _, set, members, run, rfl, ranked, size, listings, fun page few => ?_, whole⟩
  rw [← listed page few]
  rcases early page few with rfl | rfl | rfl <;> simp

end Coxx.Common
