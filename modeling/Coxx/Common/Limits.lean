import Coxx.Common.Connection
import Coxx.Common.Parsing
import Coxx.Common.Replies

/-! What was stored can be read back: the request that brings a value or a name leaves enough of
the message limit unused for the reply that gives it back. -/

set_option autoImplicit false

namespace Coxx.Common

open Map Zset

/-- The databases that the requests accepted by `tryOneRequest` lead to. -/
inductive ByRequests : CommandMap → Prop where
  | init : ByRequests initCommandMap
  | request {cm cm' : CommandMap} {around : Surroundings} {body : Bytes} {commandList : List Bytes} {output : Bytes} :
      ByRequests cm → body.length ≤ MAX_MESSAGE_SIZE → Request.parse body body.length = some commandList →
      Request.run cm around commandList [] = some (cm', output) → ByRequests cm'

/-- The longest value and the longest name that a request has room for. -/
def MAX_VALUE : Nat := 4077
def MAX_NAME : Nat := 4072

def ShortNames (set : ZSet) : Prop := ∀ node, (set.nodes node).name.length ≤ MAX_NAME

structure ShortEntry (entry : Entry) : Prop where
  val : entry.val.length ≤ MAX_VALUE
  names : ∀ set, entry.set = some set → ShortNames set

/-- What the entries hold is short, those included that no key leads to any more. -/
def Short (cm : CommandMap) : Prop := ∀ node, ShortEntry (cm.entries node)

theorem initCommandMap_short : Short initCommandMap := fun _ => ⟨Nat.zero_le _, fun _ wrong => by cases wrong⟩

theorem initZSet_short : ShortNames initZSet := fun _ => Nat.zero_le _

/-! ### Sorted sets -/

section Sets

variable {set set' : ZSet} {name : CxxString} {copy : Tail} {len : Nat} {score : Double}

theorem mapLookup_nodes {key : Key} {found : Option Addr} (result : mapLookup set key = some (set', found)) :
    set'.nodes = set.nodes := by
  obtain ⟨⟨s, node⟩, _, same⟩ := Option.map_eq_some_iff.mp result
  cases same
  rfl

theorem lookup_nodes {found : Option Addr} (result : lookup set name copy len = some (set', found)) :
    set'.nodes = set.nodes := by
  unfold lookup at result
  split at result
  · cases result; rfl
  · exact mapLookup_nodes result

theorem treeAdd_nodes {fuel : Nat} {node : Addr} (result : treeAdd fuel set node = some set') : set'.nodes = set.nodes := by
  simp only [treeAdd, Option.bind_eq_bind, Option.bind_eq_some_iff] at result
  obtain ⟨h, _, ⟨h', root⟩, _, same⟩ := result
  cases same
  rfl

theorem treeDel_nodes {node : Addr} (result : treeDel set node = some set') : set'.nodes = set.nodes := by
  obtain ⟨⟨h, root⟩, _, same⟩ := Option.map_eq_some_iff.mp result
  cases same
  rfl

theorem update_short {node : Addr} (short : ShortNames set) (result : update set node score = some set') :
    ShortNames set' := by
  unfold update at result
  split at result
  · cases result; exact short
  · simp only [Option.bind_eq_bind, Option.bind_eq_some_iff] at result
    obtain ⟨set1, deleted, added⟩ := result
    intro other
    rw [treeAdd_nodes added, treeDel_nodes deleted]
    by_cases same : other = node
    · subst same
      simpa using short other
    · simpa [same] using short other

theorem addNew_short (short : ShortNames set) (fits : len ≤ MAX_NAME) (result : addNew set name len score = some set') :
    ShortNames set' := by
  simp only [addNew, Option.bind_eq_bind, Option.bind_eq_some_iff] at result
  obtain ⟨⟨set1, node⟩, created, s, _, added⟩ := result
  unfold create at created
  split at created
  · cases created
  · simp only [Option.bind_eq_bind, Option.bind_eq_some_iff] at created
    obtain ⟨block, readable, same⟩ := created
    cases same
    intro other
    rw [treeAdd_nodes added]
    by_cases same : other = set.fresh
    · subst same
      simpa [CxxString.length_read readable] using fits
    · simpa [same] using short other

theorem add_short {added : Bool} (short : ShortNames set) (fits : len ≤ MAX_NAME)
    (result : Zset.add set name copy len score = some (set', added)) : ShortNames set' := by
  simp only [Zset.add, Option.bind_eq_bind, Option.bind_eq_some_iff] at result
  obtain ⟨⟨set1, found⟩, looked, rest⟩ := result
  have short1 : ShortNames set1 := by
    intro node
    rw [lookup_nodes looked]
    exact short node
  cases found with
  | some node =>
      obtain ⟨set2, updated, same⟩ := Option.map_eq_some_iff.mp rest
      cases same
      exact update_short short1 updated
  | none =>
      obtain ⟨set2, created, same⟩ := Option.map_eq_some_iff.mp rest
      cases same
      exact addNew_short short1 fits created

theorem pop_nodes {found : Option Addr} (result : Zset.pop set name copy len = some (set', found)) :
    set'.nodes = set.nodes := by
  unfold Zset.pop at result
  split at result
  · cases result; rfl
  · simp only [Option.bind_eq_bind, Option.bind_eq_some_iff] at result
    obtain ⟨⟨set1, node⟩, popped, rest⟩ := result
    obtain ⟨⟨s, _⟩, _, same⟩ := Option.map_eq_some_iff.mp popped
    cases same
    cases node with
    | none => cases rest; rfl
    | some node =>
        obtain ⟨set2, deleted, same⟩ := Option.map_eq_some_iff.mp rest
        cases same
        exact (treeDel_nodes deleted).trans rfl

end Sets

/-! ### Entries -/

section Entries

variable {cm cm' : CommandMap} {around : Surroundings} {key name output output' : Bytes}

theorem Short.congr (short : Short cm) (same : cm'.entries = cm.entries) : Short cm' := by
  intro node
  rw [same]
  exact short node

theorem Short.update (short : Short cm) {n : Addr} {entry : Entry} (fits : ShortEntry entry)
    (same : cm'.entries = Function.update cm.entries n entry) : Short cm' := by
  intro node
  rw [same]
  by_cases here : node = n
  · subst here
    simpa using fits
  · simpa [here] using short node

theorem Short.setZSet (short : Short cm) {n : Addr} {set : ZSet} (fits : ShortNames set) :
    Short (Request.setZSet cm n set) :=
  @Short.update cm _ short n { cm.entries n with set := some set }
    ⟨(short n).val, fun _ here => by cases here; exact fits⟩ rfl

theorem lookup_entries {found : Option Addr} (result : Request.lookup cm key = some (cm', found)) :
    cm'.entries = cm.entries := by
  obtain ⟨⟨s, node⟩, _, same⟩ := Option.map_eq_some_iff.mp result
  cases same
  rfl

theorem expectZSet_entries {found : Option Addr}
    (result : Request.expectZSet cm key output = some (cm', output', found)) : cm'.entries = cm.entries := by
  simp only [Request.expectZSet, Option.bind_eq_bind, Option.bind_eq_some_iff] at result
  obtain ⟨⟨cm1, node⟩, looked, rest⟩ := result
  have kept := lookup_entries looked
  cases node with
  | none => cases rest; exact kept
  | some node =>
      simp only at rest
      split at rest <;> cases rest <;> exact kept

theorem insert_short (short : Short cm) {entry : Entry} (fits : ShortEntry entry)
    (result : Request.insert cm entry = some cm') : Short cm' := by
  unfold Request.insert at result
  split at result
  · cases result
  · obtain ⟨s, _, same⟩ := Option.map_eq_some_iff.mp result
    cases same
    exact short.update fits rfl

theorem addMember_short (short : Short cm) {node : Addr} {score : Double} (fits : name.length ≤ MAX_NAME)
    (result : Request.addMember cm around node score name output = some (cm', output')) : Short cm' := by
  simp only [Request.addMember, Option.bind_eq_bind, Option.bind_eq_some_iff] at result
  obtain ⟨set, here, ⟨set', added⟩, grown, same⟩ := result
  cases same
  exact short.setZSet (add_short ((short node).names set here) fits grown)

theorem zadd_short (short : Short cm) {score : Bytes} (fits : name.length ≤ MAX_NAME)
    (result : Request.zadd cm around key score name output = some (cm', output')) : Short cm' := by
  unfold Request.zadd at result
  split at result
  · cases result
    exact short
  · simp only [Option.bind_eq_bind, Option.bind_eq_some_iff] at result
    obtain ⟨⟨cm1, node⟩, looked, rest⟩ := result
    have short1 := short.congr (lookup_entries looked)
    cases node with
    | none =>
        obtain ⟨cm2, inserted, added⟩ := Option.bind_eq_some_iff.mp rest
        have empty : ShortEntry { key := key, type := .ZSET, val := [], set := some initZSet } :=
          ⟨Nat.zero_le _, fun _ here => by cases here; exact initZSet_short⟩
        exact addMember_short (insert_short short1 empty inserted) fits added
    | some node =>
        simp only at rest
        split at rest
        · cases rest
          exact short1
        · exact addMember_short short1 fits rest

theorem set_short (short : Short cm) {val : Bytes} (fits : val.length ≤ MAX_VALUE)
    (result : Request.set cm key val output = some (cm', output')) : Short cm' := by
  simp only [Request.set, Option.bind_eq_bind, Option.bind_eq_some_iff] at result
  obtain ⟨⟨cm1, node⟩, looked, rest⟩ := result
  have short1 := short.congr (lookup_entries looked)
  cases node with
  | some node =>
      cases rest
      exact @Short.update cm1 _ short1 node { cm1.entries node with val := val } ⟨fits, (short1 node).names⟩ rfl
  | none =>
      obtain ⟨cm2, inserted, same⟩ := Option.bind_eq_some_iff.mp rest
      cases same
      exact insert_short short1 ⟨fits, fun _ wrong => by cases wrong⟩ inserted

theorem zrem_short (short : Short cm) (result : Request.zrem cm around key name output = some (cm', output')) :
    Short cm' := by
  simp only [Request.zrem, Option.bind_eq_bind, Option.bind_eq_some_iff] at result
  obtain ⟨⟨cm1, output1, entry⟩, expected, rest⟩ := result
  have short1 := short.congr (expectZSet_entries expected)
  cases entry with
  | none => cases rest; exact short1
  | some entry =>
      simp only [Option.bind_eq_some_iff] at rest
      obtain ⟨set, here, ⟨set', node⟩, popped, same⟩ := rest
      cases same
      refine short1.setZSet fun node => ?_
      rw [pop_nodes popped]
      exact (short1 entry).names set here node

theorem zscore_short (short : Short cm) (result : Request.zscore cm around key name output = some (cm', output')) :
    Short cm' := by
  simp only [Request.zscore, Option.bind_eq_bind, Option.bind_eq_some_iff] at result
  obtain ⟨⟨cm1, output1, entry⟩, expected, rest⟩ := result
  have short1 := short.congr (expectZSet_entries expected)
  cases entry with
  | none => cases rest; exact short1
  | some entry =>
      simp only [Option.bind_eq_some_iff] at rest
      obtain ⟨set, here, ⟨set', node⟩, looked, rest⟩ := rest
      have names : ShortNames set' := fun node => by
        rw [lookup_nodes looked]
        exact (short1 entry).names set here node
      cases node <;> cases rest <;> exact short1.setZSet names

theorem zquery_entries {score off limit : Bytes}
    (result : Request.zquery cm around key score name off limit output = some (cm', output')) :
    cm'.entries = cm.entries := by
  unfold Request.zquery at result
  split at result
  · cases result; rfl
  · split at result
    · simp only [Option.bind_eq_bind, Option.bind_eq_some_iff] at result
      obtain ⟨⟨cm1, output1, entry⟩, expected, rest⟩ := result
      have kept := expectZSet_entries expected
      cases entry with
      | none =>
          simp only at rest
          split at rest <;> cases rest <;> exact kept
      | some entry =>
          simp only at rest
          split at rest
          · cases rest; exact kept
          · simp only [Option.bind_eq_some_iff, Option.map_eq_some_iff] at rest
            obtain ⟨set, _, output2, _, same⟩ := rest
            cases same
            exact kept
    · cases result; rfl

def Request.Command.Fits : Request.Command → Prop
  | .set _ val => val.length ≤ MAX_VALUE
  | .zadd _ _ name => name.length ≤ MAX_NAME
  | _ => True

theorem run_short (short : Short cm) {c : Request.Command} (fits : c.Fits)
    (result : c.run cm around output = some (cm', output')) : Short cm' := by
  cases c with
  | keys =>
      simp only [Request.Command.run, Request.keys, Option.bind_eq_bind, Option.bind_eq_some_iff] at result
      obtain ⟨_, _, _, _, same⟩ := result
      cases same
      exact short
  | get key =>
      simp only [Request.Command.run, Request.get, Option.bind_eq_bind, Option.bind_eq_some_iff] at result
      obtain ⟨⟨cm1, node⟩, looked, rest⟩ := result
      cases node <;> cases rest <;> exact short.congr (lookup_entries looked)
  | set key val => exact set_short short fits result
  | del key =>
      simp only [Request.Command.run, Request.del, Option.bind_eq_bind, Option.bind_eq_some_iff] at result
      obtain ⟨⟨s, node⟩, _, same⟩ := result
      cases same
      exact short.congr rfl
  | zadd key score name => exact zadd_short short fits result
  | zrem key name => exact zrem_short short result
  | zscore key name => exact zscore_short short result
  | zquery key score name off limit => exact short.congr (zquery_entries result)
  | unknown =>
      cases result
      exact short

end Entries

/-! ### Requests -/

theorem isCommand_length {word : Bytes} {command : String} (named : Request.isCommand word command = true) :
    (text command).length ≤ word.length := by
  have same := congrArg List.length (beq_iff_eq.mp named)
  rw [List.length_map, List.length_map] at same
  rw [← same]
  exact (List.takeWhile_sublist _).length_le

/-- An accepted request brings no more than the message limit leaves for the value or the name. -/
theorem fits_of_accepted {body : Bytes} {commandList : List Bytes} (small : body.length ≤ MAX_MESSAGE_SIZE)
    (accepted : Request.parse body body.length = some commandList) : (Request.command commandList).Fits := by
  rw [MAX_MESSAGE_SIZE] at small
  rw [(parse_sound (by omega) accepted).2.2, length_encodedCommand] at small
  clear accepted
  unfold Request.command
  split
  · split <;> trivial
  · split
    · trivial
    · split <;> trivial
  · rename_i word key arg
    split
    · rename_i named
      have word := isCommand_length named
      simp only [List.map_cons, List.map_nil, List.sum_cons, List.sum_nil] at small
      have three : (text "set").length = 3 := rfl
      show arg.length ≤ 4077
      omega
    · split
      · trivial
      · split <;> trivial
  · rename_i word key score name
    split
    · rename_i named
      have word := isCommand_length named
      simp only [List.map_cons, List.map_nil, List.sum_cons, List.sum_nil] at small
      have four : (text "zadd").length = 4 := rfl
      show name.length ≤ 4072
      omega
    · trivial
  · split <;> trivial
  · trivial

theorem ByRequests.short {cm : CommandMap} (reached : ByRequests cm) : Short cm := by
  induction reached with
  | init => exact initCommandMap_short
  | request _ small accepted result ih => exact run_short ih (fits_of_accepted small accepted) result

/-! ### Replies -/

section Replies

variable {cm cm' : CommandMap} {around : Surroundings} {key name output output' : Bytes}

def tooBig : Bytes := Out.err [] Error.TOO_BIG.code (text "response is too big")

/-- The reply is sent as it is. -/
structure Readable (output : Bytes) : Prop where
  fits : 4 + output.length ≤ MAX_MESSAGE_SIZE
  plain : output ≠ tooBig

theorem Readable.packed (readable : Readable output) : packed output = output ∧ packed output ≠ tooBig := by
  have same : Common.packed output = output := if_neg (Nat.not_lt.mpr readable.fits)
  exact ⟨same, by rw [same]; exact readable.plain⟩

theorem readable_of_tag {tag : Serialize} {rest : Bytes} (other : tag ≠ .ERR)
    (fits : 4 + (rest.length + 1) ≤ MAX_MESSAGE_SIZE) : Readable (tag.tag :: rest) where
  fits := by simpa using fits
  plain same := by
    have head := (List.cons.inj same).1
    cases tag <;> simp_all [Serialize.tag]

theorem get_readable (short : Short cm) (result : Request.get cm key [] = some (cm', output)) : Readable output := by
  simp only [Request.get, Option.bind_eq_bind, Option.bind_eq_some_iff] at result
  obtain ⟨⟨cm1, node⟩, looked, rest⟩ := result
  have short1 := short.congr (lookup_entries looked)
  cases node with
  | none =>
      cases rest
      exact readable_of_tag (by decide) (by decide)
  | some node =>
      cases rest
      have val := (short1 node).val
      unfold MAX_VALUE at val
      show Readable (Serialize.STR.tag :: (Library.encode 4 _ ++ _))
      refine readable_of_tag (by decide) ?_
      simp only [List.length_append, Library.length_encode, MAX_MESSAGE_SIZE]
      omega

theorem outputMembers_stop {set : ZSet} {limit : Int} {node : Option Addr} {n fuel : Nat} (full : ¬ (n : Int) < limit) :
    Request.outputMembers fuel set limit node n output = some (output, n) := by
  rw [Request.outputMembers.eq_def]
  cases node with
  | none => rfl
  | some node => exact if_neg full

theorem outputMembers_length {set : ZSet} {limit : Int} {node : Option Addr} {n fuel : Nat} (names : ShortNames set)
    (page : limit ≤ 2) (result : Request.outputMembers fuel set limit node 0 output = some (output', n)) :
    output'.length ≤ output.length + (14 + MAX_NAME) := by
  cases node with
  | none =>
      rw [Request.outputMembers.eq_def] at result
      cases result
      exact Nat.le_add_right _ _
  | some node =>
      by_cases more : ((0 : Nat) : Int) < limit
      · rw [Request.outputMembers.eq_def] at result
        simp only [if_pos more] at result
        cases fuel with
        | zero => cases result
        | succ fuel =>
            simp only [Option.bind_eq_bind, Option.bind_eq_some_iff] at result
            obtain ⟨next, _, rest⟩ := result
            rw [outputMembers_stop (by omega)] at rest
            cases rest
            have fits := names node
            simp only [Out.dbl, Out.str, List.length_append, List.length_cons, Library.length_encode]
            omega
      · rw [outputMembers_stop more] at result
        cases result
        exact Nat.le_add_right _ _

theorem end_arr_length {pos n : Nat} (result : Out.end_arr output pos n = some output') :
    output'.length = output.length := by
  unfold Out.end_arr at result
  split at result
  · rename_i inside
    cases result
    simp only [List.length_append, List.length_take, List.length_drop, Library.length_encode]
    omega
  · cases result

theorem queryMembers_readable {set : ZSet} {score : Double} {off limit : Int} (names : ShortNames set)
    (page : limit ≤ 2) (result : Request.queryMembers set around score name off limit [] = some output) :
    Readable output := by
  have value := queryMembers_value result
  simp only [Request.queryMembers, Option.bind_eq_bind, Option.bind_eq_some_iff] at result
  obtain ⟨_, _, node, _, ⟨output1, n⟩, listed, ended⟩ := result
  have grown := outputMembers_length names page listed
  rw [← end_arr_length ended] at grown
  have header : (Out.begin_arr []).1.length = 5 := rfl
  unfold MAX_NAME at grown
  obtain ⟨items, rfl, _⟩ := value
  simp only [Value.encoded, List.cons_append, List.length_cons] at grown
  show Readable (Serialize.ARR.tag :: (Library.encode 4 items.length ++ Value.encodedAll items))
  exact readable_of_tag (by decide) (by unfold MAX_MESSAGE_SIZE; omega)

theorem expectZSet_readable {entry : Option Addr} (result : Request.expectZSet cm key [] = some (cm', output, entry)) :
    output = [] ∧ entry.isSome = true ∨ output = Out.nil [] ∧ entry = none ∨
      output = Out.err [] Error.TYPE.code (text "expect zset") ∧ entry = none := by
  simp only [Request.expectZSet, Option.bind_eq_bind, Option.bind_eq_some_iff] at result
  obtain ⟨⟨cm1, node⟩, _, rest⟩ := result
  cases node with
  | none => cases rest; exact Or.inr (Or.inl ⟨rfl, rfl⟩)
  | some node =>
      simp only at rest
      split at rest
      · cases rest; exact Or.inr (Or.inr ⟨rfl, rfl⟩)
      · cases rest; exact Or.inl ⟨rfl, rfl⟩

theorem expectZSet_error_readable : Readable (Out.err [] Error.TYPE.code (text "expect zset")) := ⟨by decide, by decide⟩

theorem zquery_readable (short : Short cm) {score off limit : Bytes}
    (page : ∀ value, strToInt limit = some value → value ≤ 2)
    (result : Request.zquery cm around key score name off limit [] = some (cm', output)) : Readable output := by
  unfold Request.zquery at result
  split at result
  · cases result
    exact ⟨by decide, by decide⟩
  · split at result
    · rename_i offValue limitValue _ read
      simp only [Option.bind_eq_bind, Option.bind_eq_some_iff] at result
      obtain ⟨⟨cm1, output1, entry⟩, expected, rest⟩ := result
      have short1 := short.congr (expectZSet_entries expected)
      rcases expectZSet_readable expected with ⟨rfl, found⟩ | ⟨rfl, rfl⟩ | ⟨rfl, rfl⟩
      · obtain ⟨entry, rfl⟩ := Option.isSome_iff_exists.mp found
        simp only at rest
        split at rest
        · cases rest
          exact ⟨by decide, by decide⟩
        · simp only [Option.bind_eq_some_iff, Option.map_eq_some_iff] at rest
          obtain ⟨set, here, output2, listed, same⟩ := rest
          cases same
          exact queryMembers_readable ((short1 entry).names set here) (page _ read) listed
      · cases rest
        exact ⟨by decide, by decide⟩
      · cases rest
        exact expectZSet_error_readable
    · cases result
      exact ⟨by decide, by decide⟩

end Replies

/-- The requests that read a value, or one member of a sorted set. -/
def Request.Command.ReadsOne : Request.Command → Prop
  | .get _ => True
  | .zquery _ _ _ _ limit => ∀ value, strToInt limit = some value → value ≤ 2
  | _ => False

/-- Everything stored can be read back within the message limit: in every database that accepted
requests lead to, no `get` and no `zquery` for one member is answered with TOO_BIG. -/
theorem stored_readable {cm cm' : CommandMap} {around : Surroundings} {commandList : List Bytes} {output : Bytes}
    (reached : ByRequests cm) (reads : (Request.command commandList).ReadsOne)
    (result : Request.run cm around commandList [] = some (cm', output)) :
    packed output = output ∧ packed output ≠ tooBig := by
  unfold Request.run at result
  generalize Request.command commandList = c at reads result
  cases c with
  | get key => exact (get_readable reached.short result).packed
  | zquery key score name off limit => exact (zquery_readable reached.short reads result).packed
  | _ => cases reads

/-- A value that was just set is read back. -/
theorem stored_readable_value : ∃ cm cm' output, ByRequests cm ∧
    Request.run cm ⟨.guarded, .guarded⟩ [text "get", text "k"] [] = some (cm', output) ∧
    packed output = output ∧ packed output ≠ tooBig := by
  have accepted : Request.parse (encodedCommand [text "set", text "k", text "v"])
      (encodedCommand [text "set", text "k", text "v"]).length = some [text "set", text "k", text "v"] := by decide
  obtain ⟨⟨cm, reply⟩, stored⟩ : ∃ result, Request.run initCommandMap ⟨.guarded, .guarded⟩
      [text "set", text "k", text "v"] [] = some result := ⟨_, rfl⟩
  have reached : ByRequests cm := .request .init (by decide) accepted stored
  obtain ⟨present, values, sound, view⟩ := (Reachable.init.run stored).sound
  obtain ⟨s, result, _⟩ := get_sound sound view (text "k") []
  have named : Request.command [text "get", text "k"] = .get (text "k") := by rfl
  have reads : (Request.command [text "get", text "k"]).ReadsOne := by rw [named]; trivial
  have ran : Request.run cm ⟨.guarded, .guarded⟩ [text "get", text "k"] [] =
      some ({ cm with db := s }, getAnswer (values (text "k")) []) := by rw [Request.run, named]; exact result
  exact ⟨cm, _, _, reached, ran, stored_readable reached reads ran⟩

end Coxx.Common
