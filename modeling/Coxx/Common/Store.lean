import Coxx.Common.Queries
import Coxx.Library.Ranking

/-! The purpose of the database: a finite map from keys to strings and sorted sets, and what a command answers. Nothing
here is read off the tables, chains and trees.
-/

set_option autoImplicit false

namespace Coxx.Common

open Library Request

/-- The members of a sorted set, each name once, by score and then by name. -/
abbrev SortedMembers := Ranking Member.rank

theorem Member.rank_distinct (a b : Member) (same : a.rank = b.rank) : a.1 = b.1 :=
  word_injective (congrArg (fun rank : Zset.Rank => (ofLex rank).2) same)

/-- What a key stands for. A sorted set has a string beside its members, for `set` does not look at the type. -/
inductive Item where
  | str (val : Bytes)
  | zset (val : Bytes) (members : SortedMembers)

namespace Item

def val : Item → Bytes
  | str val | zset val _ => val

def setVal (val : Bytes) : Item → Item
  | str _ => str val
  | zset _ members => zset val members

end Item

abbrev Contents := Bytes → Option Item

namespace Contents

def empty : Contents := fun _ => none

/-- The replies of the commands on sorted sets, by what the key stands for. -/
def onZSet (item : Option Item) (missing : Value) (found : SortedMembers → Value) : Value :=
  match item with
  | none => missing
  | some (.str _) => .err Error.TYPE.code (text "expect zset")
  | some (.zset _ members) => found members

def flag (answer : Bool) : Value := .int (if answer then 1 else 0)

/-- The members that a range query lists, with their scores: two values for each. -/
def listing (members : SortedMembers) (score : Double) (name : Bytes) (off limit : Int) : Value :=
  .arr (pairs (members.range (Zset.rankOf score name) off (half limit)))

/-- The counter of `zquery` has 32 bits. -/
def Countable (item : Option Item) : Prop :=
  ∀ val members, item = some (.zset val members) → members.list.length < 2 ^ 31

/-- The replies that fit the contents. The order of the keys is left open, and so is a listing of more members than can
be counted. -/
def Answers (contents : Contents) (c : Command) (value : Value) : Prop :=
  match c with
  | .keys => ∃ names : List Bytes, names.Nodup ∧ (∀ key, key ∈ names ↔ (contents key).isSome) ∧
      value = .arr (names.map .str)
  | .get key => value = match contents key with
      | none => .nil
      | some item => .str item.val
  | .set _ _ => value = .nil
  | .del key => value = flag (contents key).isSome
  | .zadd key score name => value = match strToDouble score with
      | none => .err Error.ARG.code (text "expect fp number")
      | some _ => onZSet (contents key) (flag true) fun members => flag (members.find name).isNone
  | .zrem key name => value = onZSet (contents key) .nil fun members => flag (members.find name).isSome
  | .zscore key name => value = onZSet (contents key) .nil fun members =>
      match members.find name with
      | none => .nil
      | some score => .dbl score
  | .zquery key score name off limit => Countable (contents key) → value =
      match strToDouble score, strToInt off, strToInt limit with
      | none, _, _ => .err Error.ARG.code (text "expect fp number")
      | some score, some off, some limit => onZSet (contents key) (.arr []) fun members =>
          if limit ≤ 0 then .arr [] else listing members score name off limit
      | _, _, _ => .err Error.ARG.code (text "expect int")
  | .unknown => value = .err Error.UNKNOWN.code (text "Unknown cmd")

/-- The contents after a command. A score that is equal to the old one does not replace it. -/
def after (contents : Contents) (c : Command) : Contents :=
  match c with
  | .set key val => Function.update contents key (some (match contents key with
      | none => .str val
      | some item => item.setVal val))
  | .del key => Function.update contents key none
  | .zadd key score name =>
    match strToDouble score, contents key with
    | some score, none => Function.update contents key (some (.zset [] (Ranking.empty.put name score)))
    | some score, some (.zset val members) =>
      Function.update contents key (some (.zset val (members.put name (Zset.added (members.find name) score))))
    | _, _ => contents
  | .zrem key name =>
    match contents key with
    | some (.zset val members) => Function.update contents key (some (.zset val (members.erase name)))
    | _ => contents
  | _ => contents

/-- The runs of the store, with the requests and the bytes of their replies. -/
inductive Serves : List Done → Contents → Prop where
  | start : Serves [] empty
  | answer {trace : List Done} {contents : Contents} {commandList : List Bytes} {value : Value} :
      Serves trace contents → value.Ranged → contents.Answers (command commandList) value →
      Serves (trace ++ [⟨commandList, value.encoded⟩]) (contents.after (command commandList))

end Contents

end Coxx.Common
