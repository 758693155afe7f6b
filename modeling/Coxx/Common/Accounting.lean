import Coxx.Common.Lifetimes

/-! The lifetimes of the objects, over whole runs: none is used after it was freed, none is freed twice, and those that are
lost are the members of the sorted sets that were deleted.
-/

set_option autoImplicit false

namespace Coxx.Common

open Library BinaryTree Zset Request

/-! ### The commands -/

/-- A command that has returned: the objects it has made and freed are those of the account, and it has lost the members
that it dropped. -/
def Accounted (m : Memory) (leaked : List Object) (contents : Contents) (around : Surroundings) (c : Command)
    (cm' : CommandMap) (out : Bytes) : Prop :=
  ∃ live lost, InHeap.run m around c [] = some (⟨cm', live⟩, out) ∧ Ledger ⟨cm', live⟩ (leaked ++ lost) ∧
    lost.length = contents.dropped c

section Commands

variable {m : Memory} {cm' : CommandMap} {leaked : List Object} {present : List Addr} {contents : Contents}
  {around : Surroundings} {key name out : Bytes}

theorem Ledger.accounted {live : List Object} (kept : Ledger ⟨cm', live⟩ leaked) {c : Command}
    (result : InHeap.run m around c [] = some (⟨cm', live⟩, out)) (none : contents.dropped c = 0) :
    Accounted m leaked contents around c cm' out :=
  ⟨live, [], result, by simpa using kept, none.symm⟩

theorem set_accounted (ledger : Ledger m leaked) (refines : Refines m.cm present contents) {val : Bytes}
    (result : Request.set m.cm key val [] = some (cm', out)) :
    Accounted m leaked contents around (.set key val) cm' out := by
  obtain ⟨s, found, looked, refines', miss, hit⟩ := refines.lookup key
  have migrated := ledger.migrated refines.sound refines'.sound
  simp only [Request.set, looked, Option.bind_eq_bind, Option.bind_some] at result
  cases found with
  | none =>
      obtain ⟨cm1, inserted, value⟩ := Option.bind_eq_some_iff.mp result
      cases value
      obtain ⟨⟨s', rfl⟩, refines''⟩ := refines'.insert (miss rfl) (@Stored.str ⟨key, .STR, val, none⟩ rfl rfl) inserted
      refine (migrated.insert refines'.sound refines''.sound (by simp)).accounted ?_ rfl
      simp [InHeap.run, InHeap.set, InHeap.insert, looked, inserted]
  | some n =>
      cases result
      refine (migrated.setVal n val).accounted ?_ rfl
      simp [InHeap.run, InHeap.set, looked]

theorem addMember_accounted {score : Double} {node : Addr} {set : ZSet} {tree : BinaryTree Addr}
    {members : SortedMembers} (ledger : Ledger m leaked) (reached : Leads m.cm (.entry node))
    (here : (m.cm.entries node).set = some set) (shown : Shown set tree members) (number : score.isNaN = false)
    (clean : Clean name) (result : Request.addMember m.cm around node score name [] = some (cm', out)) :
    ∃ live, InHeap.addMember m around node score name [] = some (⟨cm', live⟩, out) ∧ Ledger ⟨cm', live⟩ leaked := by
  simp only [Request.addMember, here, Option.bind_eq_bind, Option.bind_some] at result
  obtain ⟨⟨set', added⟩, new, value⟩ := Option.bind_eq_some_iff.mp result
  cases value
  obtain ⟨⟨tree', shown', perm⟩, _⟩ := shown.add number clean new
  refine ⟨if added then .member node set.fresh :: m.live else m.live, by simp [InHeap.addMember, here, new], ?_⟩
  cases added with
  | false => exact ledger.still (leads_setZSet reached here shown.sound shown'.sound perm) rfl
  | true =>
      have unknown : ¬Leads m.cm (.member node set.fresh) := fun inside =>
        shown.sound.ne_fresh ((leads_member reached here shown.sound _).mp inside) rfl
      refine ledger.allocate le_rfl ?_ (by simp) fun other => ?_
      · rw [ledger.live]
        rintro (inside | member)
        · exact unknown inside
        · obtain ⟨x, n, same, _, gone⟩ := ledger.lost _ member
          cases same
          exact gone reached
      · by_cases own : ∃ n, other = .member node n
        · obtain ⟨n, rfl⟩ := own
          rw [leads_setZSet_own reached shown'.sound, leads_member reached here shown.sound, perm.mem_iff, if_pos rfl,
            List.mem_cons]
          simp
        · rw [leads_setZSet_other (not_exists.mp own), or_iff_right (not_exists.mp own _)]

theorem zadd_accounted (ledger : Ledger m leaked) (refines : Refines m.cm present contents) {score : Bytes}
    (clean : Clean name) (result : Request.zadd m.cm around key score name [] = some (cm', out)) :
    Accounted m leaked contents around (.zadd key score name) cm' out := by
  cases parsed : strToDouble score with
  | none =>
      simp only [Request.zadd, parsed] at result
      cases result
      exact ledger.accounted (by simp [InHeap.run, InHeap.zadd, parsed]) rfl
  | some number =>
      have isNumber := strToDouble_number parsed
      obtain ⟨s, found, looked, refines', miss, hit⟩ := refines.lookup key
      have migrated := ledger.migrated refines.sound refines'.sound
      simp only [Request.zadd, parsed, looked, Option.bind_eq_bind, Option.bind_some] at result
      cases found with
      | none =>
          obtain ⟨cm1, inserted, added⟩ := Option.bind_eq_some_iff.mp result
          obtain ⟨⟨s', rfl⟩, refines''⟩ := refines'.insert (miss rfl)
            (@Stored.zset ⟨key, .ZSET, [], some initZSet⟩ _ _ _ rfl rfl shown_init) inserted
          have made := migrated.insert refines'.sound refines''.sound (by simp)
          obtain ⟨live, again, kept⟩ := addMember_accounted made ((leads_entry refines''.sound.tracks _).mpr
            List.mem_cons_self) (by simp [withEntry]) shown_init isNumber clean added
          refine kept.accounted ?_ rfl
          simp only [InHeap.run, InHeap.zadd, parsed, looked, InHeap.insert, inserted, Option.bind_eq_bind,
            Option.bind_some, Option.map_some]
          exact again
      | some n =>
          obtain ⟨member, _, item, _, stored⟩ := hit n rfl
          cases stored with
          | str type alone =>
              simp only [type, ne_eq, reduceCtorEq, not_false_eq_true, if_true] at result
              cases result
              exact migrated.accounted (by simp [InHeap.run, InHeap.zadd, parsed, looked, type]) rfl
          | zset type set shown =>
              simp only [type, ne_eq, not_true_eq_false, if_false] at result
              obtain ⟨live, again, kept⟩ := addMember_accounted migrated ((leads_entry refines'.sound.tracks _).mpr
                member) set shown isNumber clean result
              refine kept.accounted ?_ rfl
              simp only [InHeap.run, InHeap.zadd, parsed, looked, type, ne_eq, not_true_eq_false, if_false,
                Option.bind_eq_bind, Option.bind_some]
              exact again

theorem zrem_accounted (ledger : Ledger m leaked) (refines : Refines m.cm present contents) (clean : Clean name)
    (result : Request.zrem m.cm around key name [] = some (cm', out)) :
    Accounted m leaked contents around (.zrem key name) cm' out := by
  obtain ⟨s, refines', ⟨missing, expected⟩ | ⟨val, here, expected⟩ |
    ⟨n, member, set, tree, members, named, type, same, shown, here, expected⟩⟩ := refines.expectZSet key []
  all_goals
    have migrated := ledger.migrated refines.sound refines'.sound
    simp only [Request.zrem, expected, Option.bind_eq_bind, Option.bind_some] at result
  · cases result
    exact migrated.accounted (by simp [InHeap.run, InHeap.zrem, expected]) rfl
  · cases result
    exact migrated.accounted (by simp [InHeap.run, InHeap.zrem, expected]) rfl
  · obtain ⟨set', found, tree', popped, shown', _, hit, miss⟩ := @Shown.pop _ _ _ _ around shown clean
    have reached : Leads { m.cm with db := s } (.entry n) := (leads_entry refines'.sound.tracks n).mpr member
    simp only [same, popped, Option.bind_some] at result
    cases result
    cases found with
    | none =>
        have kept := leads_setZSet reached same shown.sound shown'.sound (by rw [miss rfl])
        refine (migrated.still kept rfl).accounted ?_ rfl
        simp [InHeap.run, InHeap.zrem, expected, same, popped]
    | some x =>
        obtain ⟨inside, order⟩ := hit x rfl
        have less (other : Object) : Leads (setZSet { m.cm with db := s } n set') other ↔
            (other ≠ .member n x ∧ other ∉ ([] : List Object)) ∧ Leads { m.cm with db := s } other := by
          by_cases own : ∃ y, other = .member n y
          · obtain ⟨y, rfl⟩ := own
            rw [leads_setZSet_own reached shown'.sound, leads_member reached same shown.sound, order,
              shown.sound.holds.distinct.mem_erase_iff]
            simp
          · rw [leads_setZSet_other (not_exists.mp own)]
            simp [not_exists.mp own]
        obtain ⟨freed, kept⟩ := migrated.free ((leads_member reached same shown.sound x).mpr inside) less rfl (by simp)
          (by simp) List.nodup_nil
        rw [List.append_nil] at kept
        refine kept.accounted ?_ rfl
        simp [InHeap.run, InHeap.zrem, expected, same, popped, freed]

theorem zscore_accounted (ledger : Ledger m leaked) (refines : Refines m.cm present contents) (clean : Clean name)
    (result : Request.zscore m.cm around key name [] = some (cm', out)) :
    Accounted m leaked contents around (.zscore key name) cm' out := by
  have done : InHeap.run m around (.zscore key name) [] = some (⟨cm', m.live⟩, out) := by
    simp [InHeap.run, Command.run, result]
  obtain ⟨s, refines', ⟨missing, expected⟩ | ⟨val, here, expected⟩ |
    ⟨n, member, set, tree, members, named, type, same, shown, here, expected⟩⟩ := refines.expectZSet key []
  all_goals
    have migrated := ledger.migrated refines.sound refines'.sound
    simp only [Request.zscore, expected, Option.bind_eq_bind, Option.bind_some] at result
  · cases result
    exact migrated.accounted done rfl
  · cases result
    exact migrated.accounted done rfl
  · obtain ⟨s', found, looked, shown', _⟩ := @Shown.lookup _ _ _ _ around shown clean
    have reached : Leads { m.cm with db := s } (.entry n) := (leads_entry refines'.sound.tracks n).mpr member
    have kept := leads_setZSet reached same shown.sound shown'.sound (List.Perm.refl _)
    simp only [same, looked, Option.bind_some] at result
    cases found <;> cases result <;> exact (migrated.still kept rfl).accounted done rfl

theorem del_accounted (ledger : Ledger m leaked) (refines : Refines m.cm present contents)
    (result : Request.del m.cm key [] = some (cm', out)) : Accounted m leaked contents around (.del key) cm' out := by
  obtain ⟨s, found, popped, _, hit, miss⟩ :=
    refines.sound.tracks.pop (stringHash key) fun node => entryEquality (m.cm.entries node) key
  simp only [Request.del, popped, Option.bind_eq_bind, Option.bind_some] at result
  cases result
  cases found with
  | none =>
      obtain ⟨different, tracks⟩ := miss rfl
      have missing : contents key = none := refines.absent key fun x member same =>
        different x member ⟨by rw [refines.sound.hashed x member, same], by simpa [entryEquality] using same⟩
      refine (ledger.still (leads_migrated refines.sound.tracks tracks) rfl).accounted ?_ ?_
      · simp [InHeap.run, InHeap.del, popped]
      · simp [Contents.dropped, missing]
  | some n =>
      obtain ⟨member, ⟨_, equal⟩, tracks⟩ := hit n rfl
      obtain rfl : (m.cm.entries n).key = key := by simpa [entryEquality] using equal
      obtain ⟨lost, apart, count, members⟩ := refines.members member
      have gone := leads_erase refines.sound.tracks tracks
      have less (other : Object) : Leads { m.cm with db := s } other ↔
          (other ≠ .entry n ∧ other ∉ lost) ∧ Leads m.cm other := by
        rw [gone, members, and_congr_left_iff]
        intro inside
        simp [inside]
      obtain ⟨freed, kept⟩ := ledger.free ((leads_entry refines.sound.tracks n).mpr member) less rfl (by
          intro other inside
          obtain ⟨reached, k, rfl⟩ := (members other).mp inside
          exact ⟨reached, n, k, rfl, refines.sound.fresh n member, fun away => ((gone _).mp away).1.1 rfl⟩)
        (by simp [members]) apart
      exact ⟨_, lost, by simp [InHeap.run, InHeap.del, popped, freed], kept, count⟩

theorem run_accounted (ledger : Ledger m leaked) (refines : Refines m.cm present contents) (c : Command)
    (clean : ∀ name ∈ c.names, Clean name) (result : c.run m.cm around [] = some (cm', out)) :
    Accounted m leaked contents around c cm' out := by
  cases c with
  | set key val => exact set_accounted ledger refines result
  | del key => exact del_accounted ledger refines result
  | zadd key score name => exact zadd_accounted ledger refines (clean name (by simp [Command.names])) result
  | zrem key name => exact zrem_accounted ledger refines (clean name (by simp [Command.names])) result
  | unknown =>
      cases result
      exact ledger.accounted rfl rfl
  | keys =>
      obtain ⟨_, _, answer⟩ := keys_sound refines.sound []
      obtain ⟨rfl, rfl⟩ := Prod.mk.inj (Option.some.inj (answer.symm.trans result))
      exact ledger.accounted (by simp [InHeap.run, result]) rfl
  | get key =>
      obtain ⟨s, found, looked, refines', _⟩ := refines.lookup key
      have migrated := ledger.migrated refines.sound refines'.sound
      have again := result
      simp only [Command.run, Request.get, looked, Option.bind_eq_bind, Option.bind_some] at again
      cases found <;> cases again <;> exact migrated.accounted (by simp [InHeap.run, result]) rfl
  | zscore key name => exact zscore_accounted ledger refines (clean name (by simp [Command.names])) result
  | zquery key score name off limit =>
      obtain ⟨s, _, sound', rfl, _⟩ := zquery_looked refines.sound result
      exact (ledger.migrated refines.sound sound').accounted (by simp [InHeap.run, result]) rfl

end Commands

/-! ### The objects left out -/

namespace InHeap

variable {m m' : Memory} {around : Surroundings} {object : Object} {key name out output : Bytes}

theorem free_cm (result : free m object = some m') : m'.cm = m.cm := by
  rw [free] at result
  split at result
  · cases result
    rfl
  · cases result

theorem insert_cm {entry : Entry} (result : insert m entry = some m') : Request.insert m.cm entry = some m'.cm := by
  obtain ⟨cm, inserted, rfl⟩ := Option.map_eq_some_iff.mp result
  exact inserted

theorem addMember_cm {node : Addr} {score : Double} (result : addMember m around node score name output = some (m', out)) :
    Request.addMember m.cm around node score name output = some (m'.cm, out) := by
  simp only [addMember, Option.bind_eq_bind] at result
  obtain ⟨set, here, result⟩ := Option.bind_eq_some_iff.mp result
  obtain ⟨⟨set', added⟩, new, value⟩ := Option.bind_eq_some_iff.mp result
  cases value
  simp [Request.addMember, here, new]

theorem set_cm {val : Bytes} (result : set m key val output = some (m', out)) :
    Request.set m.cm key val output = some (m'.cm, out) := by
  simp only [set, Option.bind_eq_bind] at result
  obtain ⟨⟨cm, found⟩, looked, result⟩ := Option.bind_eq_some_iff.mp result
  cases found with
  | some node =>
      cases result
      simp [Request.set, looked]
  | none =>
      obtain ⟨m1, inserted, value⟩ := Option.bind_eq_some_iff.mp result
      cases value
      simp [Request.set, looked, insert_cm inserted]

theorem del_cm (result : del m key output = some (m', out)) : Request.del m.cm key output = some (m'.cm, out) := by
  simp only [del, Option.bind_eq_bind] at result
  obtain ⟨⟨s, found⟩, popped, result⟩ := Option.bind_eq_some_iff.mp result
  cases found with
  | none =>
      cases result
      simp [Request.del, popped]
  | some node =>
      obtain ⟨m1, freed, value⟩ := Option.map_eq_some_iff.mp result
      cases value
      simp [Request.del, popped, free_cm freed]

theorem zrem_cm (result : zrem m around key name output = some (m', out)) :
    Request.zrem m.cm around key name output = some (m'.cm, out) := by
  simp only [zrem, Option.bind_eq_bind] at result
  obtain ⟨⟨cm, output', found⟩, expected, result⟩ := Option.bind_eq_some_iff.mp result
  cases found with
  | none =>
      cases result
      simp [Request.zrem, expected]
  | some entry =>
      obtain ⟨set, here, result⟩ := Option.bind_eq_some_iff.mp result
      obtain ⟨⟨set', node⟩, popped, result⟩ := Option.bind_eq_some_iff.mp result
      simp only at here
      cases node with
      | none =>
          cases result
          simp [Request.zrem, expected, here, popped]
      | some node =>
          obtain ⟨m1, freed, value⟩ := Option.map_eq_some_iff.mp result
          cases value
          simp [Request.zrem, expected, here, popped, free_cm freed]

theorem zadd_cm {score : Bytes} (result : zadd m around key score name output = some (m', out)) :
    Request.zadd m.cm around key score name output = some (m'.cm, out) := by
  cases parsed : strToDouble score with
  | none =>
      simp only [zadd, parsed] at result
      cases result
      simp [Request.zadd, parsed]
  | some number =>
      simp only [zadd, parsed, Option.bind_eq_bind] at result
      obtain ⟨⟨cm, found⟩, looked, result⟩ := Option.bind_eq_some_iff.mp result
      simp only [Request.zadd, parsed, looked, Option.bind_eq_bind, Option.bind_some]
      cases found with
      | none =>
          obtain ⟨m1, inserted, added⟩ := Option.bind_eq_some_iff.mp result
          simp only [insert_cm inserted, Option.bind_some]
          exact addMember_cm added
      | some node =>
          by_cases other : (cm.entries node).type ≠ .ZSET
          · simp only [if_pos other] at result ⊢
            cases result
            rfl
          · simp only [if_neg other] at result ⊢
            exact addMember_cm result

theorem run_cm {c : Command} (result : run m around c [] = some (m', out)) : c.run m.cm around [] = some (m'.cm, out) := by
  cases c with
  | set key val => exact set_cm result
  | del key => exact del_cm result
  | zadd key score name => exact zadd_cm result
  | zrem key name => exact zrem_cm result
  | unknown =>
      cases result
      rfl
  | keys | get | zscore | zquery =>
      obtain ⟨⟨cm, reply⟩, done, value⟩ := Option.map_eq_some_iff.mp result
      cases value
      exact done

end InHeap

/-! ### Memory that is overwritten -/

section Kept

variable {live : List Object} {x : Addr} {set set' : ZSet} {tree : BinaryTree Addr} {members : SortedMembers}
  {cm cm' : CommandMap} {present : List Addr} {contents : Contents}

theorem ZSetKept.shown (kept : ZSetKept live x set set') (shown : Shown set tree members)
    (alive : ∀ n ∈ inorder tree, .member x n ∈ live) : Shown set' tree members := by
  have heap (n : Addr) (inside : n ∈ inorder tree) := (kept.member n (alive n inside)).1
  have map (n : Addr) (inside : n ∈ inorder tree) := (kept.member n (alive n inside)).2.1
  have nodes (n : Addr) (inside : n ∈ inorder tree) := (kept.member n (alive n inside)).2.2
  have tracks : Map.Tracks set'.map (inorder tree) := by
    have same := shown.sound.tracks.congr set'.map.nodes map
    rw [← kept.map] at same
    exact same
  refine ⟨⟨?_, tracks, shown.sound.few, ?_, ?_, ?_⟩, ⟨?_, ?_⟩, ?_⟩
  · rw [kept.tree]
    exact shown.sound.holds.congr heap
  · rw [kept.fresh]
    exact shown.sound.fresh
  · intro n inside
    rw [nodes n inside]
    exact shown.sound.proper n inside
  · refine shown.sound.sorted.imp_of_mem fun {a b} insideA insideB below => ?_
    rw [nodes a insideA, nodes b insideB]
    exact below
  · intro n inside good
    rw [ZSet.code, map n inside, nodes n inside]
    exact shown.keyed.hashed n inside good
  · intro a insideA b insideB good same
    rw [nodes a insideA, nodes b insideB] at same
    exact shown.keyed.unique a insideA b insideB trivial same
  · intro name good score
    rw [shown.maps name good score]
    exact exists_congr fun n => and_congr_right fun inside => by rw [nodes n inside]

theorem LiveKept.alone (kept : LiveKept live cm cm') (inside : .entry x ∈ live) (alone : (cm.entries x).set = none) :
    (cm'.entries x).set = none := by
  have same := kept.set x inside
  rw [alone] at same
  generalize (cm'.entries x).set = left at same ⊢
  cases same
  rfl

theorem LiveKept.zset (kept : LiveKept live cm cm') (inside : .entry x ∈ live) (here : (cm.entries x).set = some set) :
    ∃ set', (cm'.entries x).set = some set' ∧ ZSetKept live x set set' := by
  have same := kept.set x inside
  rw [here] at same
  generalize (cm'.entries x).set = left at same ⊢
  cases same with
  | some same => exact ⟨_, rfl, same⟩

theorem LiveKept.stored (kept : LiveKept live cm cm') {item : Item} (alive : ∀ object, Leads cm object → object ∈ live)
    (reached : Leads cm (.entry x)) (stored : Stored (cm.entries x) item) : Stored (cm'.entries x) item := by
  have inside := alive _ reached
  cases stored with
  | str type alone =>
      rw [← kept.val x inside]
      exact .str ((kept.type x inside).trans type) (kept.alone inside alone)
  | zset type here shown =>
      obtain ⟨set', here', same⟩ := kept.zset inside here
      rw [← kept.val x inside]
      exact .zset ((kept.type x inside).trans type) here'
        (same.shown shown fun n member => alive _ ((leads_member reached here shown.sound n).mpr member))

theorem LiveKept.refines (kept : LiveKept live cm cm') (refines : Refines cm present contents)
    (alive : ∀ object, Leads cm object → object ∈ live) : Refines cm' present contents := by
  have reached (x : Addr) (member : x ∈ present) := (leads_entry refines.sound.tracks x).mpr member
  have inside (x : Addr) (member : x ∈ present) := alive _ (reached x member)
  have keys (x : Addr) (member : x ∈ present) := kept.key x (inside x member)
  have stored (x : Addr) (member : x ∈ present) :
      ∃ item, contents (cm'.entries x).key = some item ∧ Stored (cm'.entries x) item := by
    obtain ⟨item, known, stored⟩ := refines.stored x member
    exact ⟨item, keys x member ▸ known, kept.stored alive (reached x member) stored⟩
  have tracks : Map.Tracks cm'.db present := by
    have same := refines.sound.tracks.congr cm'.db.nodes fun x member => kept.node x (inside x member)
    rw [← kept.map] at same
    exact same
  refine ⟨⟨tracks, refines.sound.few, ?_, ?_, ?_, ?_⟩, stored, ?_⟩
  · rw [kept.fresh]
    exact refines.sound.fresh
  · intro x member
    rw [kept.node x (inside x member), keys x member]
    exact refines.sound.hashed x member
  · intro x memberX y memberY same
    rw [keys x memberX, keys y memberY] at same
    exact refines.sound.unique x memberX y memberY same
  · intro x member
    obtain ⟨_, _, stored⟩ := stored x member
    exact stored.sound
  · intro key missing
    exact refines.absent key fun x member same => missing x member ((keys x member).trans same)

theorem LiveKept.leads (kept : LiveKept live cm cm') (refines : Refines cm present contents)
    (alive : ∀ object, Leads cm object → object ∈ live) (object : Object) : Leads cm' object ↔ Leads cm object := by
  have refines' := kept.refines refines alive
  have entries (x : Addr) : Leads cm' (.entry x) ↔ Leads cm (.entry x) :=
    (leads_entry refines'.sound.tracks x).trans (leads_entry refines.sound.tracks x).symm
  cases object with
  | entry x => exact entries x
  | member x n =>
      by_cases reached : Leads cm (.entry x)
      · obtain ⟨item, _, stored⟩ := refines.stored x ((leads_entry refines.sound.tracks x).mp reached)
        cases stored with
        | str type alone =>
            exact iff_of_false (not_leads_member (kept.alone (alive _ reached) alone)) (not_leads_member alone)
        | zset type here shown =>
            obtain ⟨set', here', same⟩ := kept.zset (alive _ reached) here
            have shown' := same.shown shown fun n member =>
              alive _ ((leads_member reached here shown.sound n).mpr member)
            rw [leads_member reached here shown.sound, leads_member ((entries x).mpr reached) here' shown'.sound]
      · exact iff_of_false (fun inside => reached ((entries x).mp inside.owner)) fun inside => reached inside.owner

end Kept

/-! ### Runs -/

section Runs

variable {m : Memory} {trace : List Done}

theorem MemoryRun.accounted (run : MemoryRun m trace) : ∃ present leaked,
    Contents.Serves trace (Contents.history trace).1 ∧ Refines m.cm present (Contents.history trace).1 ∧
      Ledger m leaked ∧ leaked.length = (Contents.history trace).2 := by
  induction run with
  | start =>
      have unreached : ∀ object, ¬Leads initCommandMap object := by
        have nothing (x : Addr) : ¬Leads initCommandMap (.entry x) := by
          simp [leads_entry initCommandMap_sound.tracks]
        rintro (x | ⟨x, n⟩) reached
        · exact nothing x reached
        · exact nothing x reached.owner
      exact ⟨[], [], .start, refines_init, ⟨by simp [unreached], by simp, by simp, by simp⟩, rfl⟩
  | step before clean result ih =>
      obtain ⟨present, leaked, serves, refines, ledger, count⟩ := ih
      have done := InHeap.run_cm result
      obtain ⟨value, rfl, ranged, answers, present', refines'⟩ := run_simulated refines _ clean done
      obtain ⟨live, lost, again, kept, more⟩ := run_accounted ledger refines _ clean done
      rw [← (Prod.mk.inj (Option.some.inj (result.symm.trans again))).1] at kept
      rw [Contents.history_concat]
      exact ⟨present', _, serves.answer ranged answers, refines', kept, by rw [List.length_append, count, more]; rfl⟩
  | overwritten before kept ih =>
      obtain ⟨present, leaked, serves, refines, ledger, count⟩ := ih
      have alive : ∀ object, Leads _ object → object ∈ _ := fun object reached => (ledger.live object).mpr (.inl reached)
      exact ⟨present, leaked, serves, kept.refines refines alive, ledger.still (kept.leads refines alive) kept.fresh, count⟩

/-- Whatever was requested, and whatever was written to memory that is free: the pointers lead to live objects only, the
requests were answered as the store answers them, and the live objects that nothing leads to are as many as the members of
the sets that were deleted. A further request frees live objects only. -/
theorem objects_accounted (run : MemoryRun m trace) :
    Contents.Serves trace (Contents.history trace).1 ∧ m.live.Nodup ∧
    (∃ leaked : List Object, leaked.Nodup ∧ leaked.length = (Contents.history trace).2 ∧
      (∀ object ∈ leaked, ¬Leads m.cm object) ∧ ∀ object, object ∈ m.live ↔ Leads m.cm object ∨ object ∈ leaked) ∧
    ∀ commandList around, (∀ name ∈ (command commandList).names, Clean name) →
      (¬Full m.cm → ∃ m' reply, InHeap.run m around (command commandList) [] = some (m', reply)) ∧
      ∀ cm' reply, Request.run m.cm around commandList [] = some (cm', reply) →
        ∃ live, InHeap.run m around (command commandList) [] = some (⟨cm', live⟩, reply) := by
  obtain ⟨present, leaked, serves, refines, ledger, count⟩ := run.accounted
  refine ⟨serves, ledger.distinct, ⟨leaked, ledger.apart, count, ?_, ledger.live⟩, fun commandList around clean => ?_⟩
  · exact fun object member reached => ledger.not_lost reached member
  · have runs (cm' : CommandMap) (reply : Bytes) (result : Request.run m.cm around commandList [] = some (cm', reply)) :
        ∃ live, InHeap.run m around (command commandList) [] = some (⟨cm', live⟩, reply) := by
      obtain ⟨live, _, done, _⟩ := run_accounted ledger refines _ clean result
      exact ⟨live, done⟩
    refine ⟨fun space => ?_, runs⟩
    obtain ⟨values, view⟩ := exists_view refines.sound Entry.val
    obtain ⟨⟨cm', reply⟩, result⟩ := run_ends refines.sound view space around (command commandList) clean
    obtain ⟨live, done⟩ := runs cm' reply result
    exact ⟨_, _, done⟩

end Runs

/-- After `zadd k 1 m` and `del k` the member is left. -/
theorem objects_accounted_single : ∃ (m : Memory) (trace : List Done) (leaked : List Object), MemoryRun m trace ∧
    trace.length = 2 ∧ leaked.length = 1 ∧ ∀ object ∈ leaked, object ∈ m.live ∧ ¬Leads m.cm object := by
  have made : ∃ m, InHeap.run ⟨initCommandMap, []⟩ ⟨.guarded, .guarded⟩
      (command [text "zadd", text "k", text "1", text "m"]) [] = some (m, Out.num [] 1) := ⟨_, rfl⟩
  obtain ⟨m, first⟩ := made
  have run := MemoryRun.step .start (by decide) first
  obtain ⟨_, _, _, refines, _⟩ := run.accounted
  obtain ⟨s, _, deleted, _⟩ := refines.del (text "k") []
  obtain ⟨_, _, _, further⟩ := objects_accounted run
  obtain ⟨live, second⟩ := (further [text "del", text "k"] ⟨.guarded, .guarded⟩ (by decide)).2 _ _ deleted
  have run' := MemoryRun.step run (by decide) second
  obtain ⟨_, _, ⟨leaked, _, count, unreached, accounted⟩, _⟩ := objects_accounted run'
  refine ⟨_, _, leaked, run', rfl, count, fun object member => ?_⟩
  exact ⟨(accounted object).mpr (.inr member), unreached object member⟩

end Coxx.Common
