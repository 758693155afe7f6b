import Coxx.Common.Members

/-! `zquery` lists a range of the members in the order of the set. -/

set_option autoImplicit false

namespace Coxx.Common

open Library BinaryTree Zset

abbrev Member := Bytes × Double

def memberOf (set : ZSet) (node : Addr) : Member := ((set.nodes node).name, (set.nodes node).score)

def Member.rank (member : Member) : Rank := rankOf member.2 member.1

/-- The members of a set, as its map holds them, sorted by score and name. -/
structure Ranked (set : ZSet) (members : List Member) : Prop where
  all : ∃ visited, Map.Visits set.map visited ∧ members.Perm (visited.map (memberOf set))
  sorted : members.Pairwise fun a b => a.rank ≤ b.rank

def HasZSet (cm : CommandMap) (key : Bytes) (set : ZSet) : Prop :=
  ∃ cm' node, Request.expectZSet cm key [] = some (cm', [], some node) ∧ (cm'.entries node).set = some set

/-- How many members fit a limit on the values, of which every member takes two. -/
def half (limit : Int) : Nat := ((limit + 1) / 2).toNat

def pairs (members : List Member) : List Value := members.flatMap fun member => [.str member.1, .dbl member.2]

@[simp] theorem length_pairs (members : List Member) : (pairs members).length = 2 * members.length := by
  induction members with
  | nil => rfl
  | cons member members ih =>
      rw [pairs, List.flatMap_cons, List.length_append, ← pairs, ih]
      simp only [List.length_cons, List.length_nil]
      omega

def rankBelow (members : List Member) (score : Double) (name : Bytes) : Nat :=
  members.countP fun member => decide (member.rank < rankOf score name)

/-- What a range query should answer: the members from `off` places behind the first one that is not below the score and
name, as many as there are and as the limit allows. -/
def rangeReply (members : List Member) (score : Double) (name : Bytes) (off limit : Int) : Bytes :=
  let r := rankBelow members score name
  if r = members.length ∨ r + off < 0 ∨ members.length ≤ r + off then Out.arr [] 0
  else
    let first := (r + off).toNat
    let m := min (members.length - first) (half limit)
    Out.arr [] (2 * m) ++ Value.encodedAll (pairs ((members.drop first).take m))

section Range

variable {set : ZSet} {tree : BinaryTree Addr}

/-- The output loop, from the node where `rest` begins on: it lists nodes of `rest` until the limit is reached. -/
theorem outputMembers_eq (sound : Zset.Sound set tree) (few : tree.numNodes < 2 ^ 31) (limit : Int) {fuel : Nat}
    {front rest : List Addr} {k : Nat} (output : Bytes) (split : inorder tree = front ++ rest)
    (enough : rest.length ≤ fuel) (counted : k + rest.length ≤ tree.numNodes) :
    Request.outputMembers fuel set limit rest.head? (2 * k) output =
      some (output ++ Value.encodedAll (pairs ((rest.take (half limit - k)).map (memberOf set))),
        2 * (k + (rest.take (half limit - k)).length)) := by
  induction rest generalizing fuel front k output with
  | nil =>
      rw [Request.outputMembers.eq_def]
      simp [pairs, Value.encodedAll]
  | cons x rest ih =>
      rw [Request.outputMembers.eq_def]
      simp only [List.head?_cons, List.length_cons] at *
      split
      · rename_i more
        obtain ⟨fuel, rfl⟩ : ∃ left, fuel = left + 1 := ⟨fuel - 1, by omega⟩
        obtain ⟨left, more⟩ : ∃ left, half limit - k = left + 1 := ⟨half limit - k - 1, by unfold half; omega⟩
        have size := congrArg List.length split
        rw [length_inorder, List.length_append, List.length_cons] at size
        have high := height_le_numNodes tree
        have next : offset set (some x) 1 = some rest.head? := by
          have here : (inorder tree)[front.length]? = some x := by rw [split]; simp
          rw [offset, Avl.offsetAVL_holds sound.holds (by omega) here (by rw [sound.rounds_eq]; omega), split,
            Avl.nth_append_right (by decide), Avl.nth, if_neg (by decide)]
          simp [List.head?_eq_getElem?]
        have listed := @ih fuel (front ++ [x]) (k + 1)
          (Out.dbl (Out.str output (set.nodes x).name) (set.nodes x).score) (by simpa using split) (by omega) (by omega)
        have counter : (2 * k + 2) % 2 ^ 32 = 2 * (k + 1) := by omega
        have fewer : half limit - (k + 1) = left := by omega
        simp only [next, counter, Option.bind_eq_bind, Option.bind_some]
        rw [listed, fewer, more, List.take_succ_cons]
        simp only [List.map_cons, pairs, List.flatMap_cons, List.length_cons, memberOf]
        refine congrArg some (Prod.ext ?_ (by simp only; omega))
        simp [Out.str, Out.dbl, Value.encodedAll, Value.encoded]
      · rename_i done
        have none : half limit - k = 0 := by unfold half; omega
        simp [none, pairs, Value.encodedAll]

theorem list_range (sound : Zset.Sound set tree) (few : tree.numNodes < 2 ^ 31) (limit : Int) {front rest : List Addr}
    (split : inorder tree = front ++ rest) :
    (do
      let (output, n) ← Request.outputMembers set.rounds set limit rest.head? 0 (Out.begin_arr []).1
      Out.end_arr output (Out.begin_arr []).2 n) =
      some (Out.arr [] (2 * min rest.length (half limit)) ++
        Value.encodedAll (pairs ((rest.map (memberOf set)).take (min rest.length (half limit))))) := by
  have size := congrArg List.length split
  rw [length_inorder, List.length_append] at size
  have listed := @outputMembers_eq set tree sound few limit set.rounds front rest 0 (Out.begin_arr []).1 split
    (by rw [sound.rounds_eq]; omega) (by omega)
  rw [Nat.mul_zero, Nat.sub_zero, Nat.zero_add, List.length_take, List.map_take] at listed
  have same : (rest.map (memberOf set)).take (half limit) =
      (rest.map (memberOf set)).take (min rest.length (half limit)) := by
    rw [List.take_eq_take_iff, List.length_map]
    omega
  have count : 2 * min (half limit) rest.length =
      (pairs ((rest.map (memberOf set)).take (min rest.length (half limit)))).length % 2 ^ 32 := by
    rw [length_pairs, List.length_take, List.length_map]
    omega
  simp only [listed, Option.bind_eq_bind, Option.bind_some]
  rw [same, count, end_arr_encoded, Value.encoded, length_pairs, List.length_take, List.length_map,
    Nat.min_eq_left (Nat.min_le_left _ _)]
  simp [Out.arr]

theorem queryMembers_range (sound : Zset.Sound set tree) (few : tree.numNodes < 2 ^ 31) (around : Surroundings)
    {score : Double} {name : Bytes} (number : score.isNaN = false) (clean : Clean name) (off limit : Int) :
    Request.queryMembers set around score name off limit [] =
      some (rangeReply ((inorder tree).map (memberOf set)) score name off limit) := by
  obtain ⟨front, back, split, found, below, above⟩ := @query_sound set tree sound score ⟨name, around.name⟩ number
  have size := congrArg List.length split
  rw [List.length_append, length_inorder] at size
  have high := height_le_numNodes tree
  have rank : rankBelow ((inorder tree).map (memberOf set)) score name = front.length := by
    rw [rankBelow, split, List.map_append, List.countP_append, List.countP_eq_length.mpr, List.countP_eq_zero.mpr]
    · simp
    · intro member inside
      obtain ⟨x, behind, rfl⟩ := List.mem_map.mp inside
      exact fun less => absurd (of_decide_eq_true less) (above x behind).not_gt
    · intro member inside
      obtain ⟨x, ahead, rfl⟩ := List.mem_map.mp inside
      exact decide_eq_true (below x ahead)
  have nothing := @list_range set tree sound few limit (inorder tree) [] (by simp)
  simp only [List.head?_nil, List.length_nil, Nat.zero_min, List.map_nil, List.take_nil, pairs, List.flatMap_nil,
    Value.encodedAll, List.append_nil, Nat.mul_zero] at nothing
  unfold Request.queryMembers rangeReply
  rw [cString_eq clean, rank, List.length_map, length_inorder]
  simp only [found, Option.bind_eq_bind, Option.bind_some]
  cases back with
  | nil =>
      rw [if_pos (.inl (by simpa using size.symm))]
      exact nothing
  | cons x back =>
      have here : (inorder tree)[front.length]? = some x := by rw [split]; simp
      have moved : offset set (some x) off = some (Avl.nth (inorder tree) (front.length + off)) := by
        rw [offset]
        exact Avl.offsetAVL_holds sound.holds (by omega) here (by rw [sound.rounds_eq]; omega)
      simp only [List.head?_cons, List.length_cons, moved, Option.bind_some] at *
      by_cases outside : (front.length : Int) + off < 0 ∨ tree.numNodes ≤ front.length + off
      · rw [if_pos (.inr outside), Avl.nth_outside (by rw [length_inorder]; exact outside)]
        exact nothing
      · rw [if_neg (by omega)]
        generalize first : ((front.length : Int) + off).toNat = position
        have node : Avl.nth (inorder tree) (front.length + off) = ((inorder tree).drop position).head? := by
          rw [Avl.nth, if_neg (by omega), first, List.head?_drop]
        have listed := @list_range set tree sound few limit _ _ (List.take_append_drop position (inorder tree)).symm
        rw [List.length_drop, length_inorder] at listed
        rw [node]
        rw [List.map_drop] at listed
        exact listed

theorem ranked (sound : Zset.Sound set tree) : Ranked set ((inorder tree).map (memberOf set)) where
  all := by
    obtain ⟨_, visits, _, same⟩ := sound.tracks.visits
    exact ⟨_, visits, (same.map (memberOf set)).symm⟩
  sorted := List.pairwise_map.mpr sound.sorted

theorem Ranked.length_eq (sound : Zset.Sound set tree) {members : List Member} (ranked : Ranked set members) :
    members.length = Map.CMapSize set.map.map := by
  obtain ⟨visited, visits, perm⟩ := ranked.all
  rw [perm.length_eq, List.length_map, (sound.tracks.visited visits).length_eq, sound.tracks.size_eq]

end Range

/-- For every sorted set of a reachable database, `zquery` answers exactly the range of its sorted members. -/
theorem zquery_range {cm : CommandMap} {key : Bytes} {set : ZSet} (reachable : Reachable cm) (zset : HasZSet cm key set) :
    ∃ members, Ranked set members ∧ (members.length < 2 ^ 31 →
      ∀ around score name off limit seek places count, strToDouble score = some seek → Clean name →
        strToInt off = some places → strToInt limit = some count → 0 < count →
        ∃ cm', Request.zquery cm around key score name off limit [] =
          some (cm', rangeReply members seek name places count)) := by
  obtain ⟨present, _, sound, _⟩ := reachable.sound
  obtain ⟨cm', node, expected, here⟩ := zset
  obtain ⟨db, output, entry, result, sound', hit, _⟩ := expectZSet_sound sound key []
  cases expected.symm.trans result
  change (cm.entries node).set = some set at here
  obtain ⟨member, _, typed, _⟩ := hit node rfl
  obtain ⟨tree, setSound, _⟩ := (sound.entries node member).sets set here
  refine ⟨(inorder tree).map (memberOf set), ranked setSound, fun few => ?_⟩
  rw [List.length_map, length_inorder] at few
  intro around score name off limit seek places count parsed clean moved counted positive
  refine ⟨{ cm with db := db }, ?_⟩
  unfold Request.zquery
  simp only [parsed, moved, counted, expected, Option.bind_eq_bind, Option.bind_some]
  rw [if_neg (by omega)]
  simp only [here, queryMembers_range setSound few around (strToDouble_number parsed) clean places count,
    Option.bind_some, Option.map_some]

/-- Two of three members, in order. -/
theorem zquery_range_sample : ∃ cm set members, Reachable cm ∧ HasZSet cm (text "k") set ∧ Ranked set members ∧
    members.length = 3 ∧
    (∃ cm', Request.zquery cm ⟨.guarded, .guarded⟩ (text "k") (text "1") [] (text "0") (text "9") [] =
      some (cm', rangeReply members ⟨0x3FF0000000000000⟩ [] 0 9)) ∧
    rangeReply members ⟨0x3FF0000000000000⟩ [] 0 9 = (Value.arr [.str (text "m"), .dbl ⟨0x3FF0000000000000⟩,
      .str (text "n"), .dbl ⟨0x4000000000000000⟩]).encoded := by
  obtain ⟨cm, trace, present, node, set, tree, scores, made, reachable, holding, three⟩ := sample_holding
  obtain ⟨db, expected, _⟩ := holding.expectZSet []
  have zset : HasZSet cm (text "k") set := ⟨_, _, expected, holding.here⟩
  obtain ⟨members, ranked, replies⟩ := zquery_range reachable zset
  have size : members.length = 3 := (ranked.length_eq holding.setSound).trans three
  obtain ⟨cm', result⟩ := replies (by rw [size]; decide) ⟨.guarded, .guarded⟩ (text "1") [] (text "0") (text "9")
    ⟨0x3FF0000000000000⟩ 0 9 (by decide) (by decide) (by decide) (by decide) (by decide)
  have evaluated : ((runAll initCommandMap sample).bind fun after => Request.zquery after.1 ⟨.guarded, .guarded⟩ (text "k")
      (text "1") [] (text "0") (text "9") []).map Prod.snd = some (Value.arr [.str (text "m"), .dbl ⟨0x3FF0000000000000⟩,
        .str (text "n"), .dbl ⟨0x4000000000000000⟩]).encoded := by decide +kernel
  rw [made, Option.bind_some, result] at evaluated
  exact ⟨cm, set, members, reachable, zset, ranked, size, ⟨cm', result⟩, Option.some.inj evaluated⟩

end Coxx.Common
