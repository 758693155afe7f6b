import Coxx.Common.Objects

/-! The objects that the pointers of the database lead to, and the account of those that are live. -/

set_option autoImplicit false

namespace Coxx.Common

open Library BinaryTree Zset Request

/-! ### What the pointers lead to -/

section Leads

variable {cm cm' : CommandMap} {present : List Addr} {x node n : Addr} {set set' : ZSet} {tree tree' : BinaryTree Addr}
  {object : Object}

theorem leads_entry (tracks : Map.Tracks cm.db present) (x : Addr) : Leads cm (.entry x) ↔ x ∈ present := by
  constructor
  · rintro ⟨visited, visits, inside⟩
    exact (tracks.visited visits).mem_iff.mp inside
  · intro member
    obtain ⟨visited, visits, _, same⟩ := tracks.visits
    exact ⟨visited, visits, same.mem_iff.mpr member⟩

theorem Leads.owner (reached : Leads cm (.member x n)) : Leads cm (.entry x) := reached.1

theorem leads_member (reached : Leads cm (.entry x)) (here : (cm.entries x).set = some set)
    (setSound : Zset.Sound set tree) (n : Addr) : Leads cm (.member x n) ↔ n ∈ inorder tree := by
  constructor
  · rintro ⟨_, set', visited, here', visits, inside⟩
    cases here.symm.trans here'
    exact (setSound.tracks.visited visits).mem_iff.mp inside
  · intro inside
    obtain ⟨visited, visits, _, same⟩ := setSound.tracks.visits
    exact ⟨reached, set, visited, here, visits, same.mem_iff.mpr inside⟩

theorem not_leads_member (alone : (cm.entries x).set = none) : ¬Leads cm (.member x n) := by
  rintro ⟨_, set, _, here, _⟩
  cases alone.symm.trans here

theorem leads_congr (entries : ∀ x, Leads cm' (.entry x) ↔ Leads cm (.entry x))
    (same : ∀ x, Leads cm (.entry x) → (cm'.entries x).set = (cm.entries x).set) (object : Object) :
    Leads cm' object ↔ Leads cm object := by
  cases object with
  | entry x => exact entries x
  | member x n =>
      constructor
      · rintro ⟨reached, set, visited, here, rest⟩
        have before := (entries x).mp reached
        exact ⟨before, set, visited, same x before ▸ here, rest⟩
      · rintro ⟨reached, set, visited, here, rest⟩
        exact ⟨(entries x).mpr reached, set, visited, (same x reached).symm ▸ here, rest⟩

theorem leads_migrated {s : Map.Store} (tracks : Map.Tracks cm.db present) (tracks' : Map.Tracks s present) :
    ∀ object, Leads { cm with db := s } object ↔ Leads cm object :=
  leads_congr (fun x => (@leads_entry { cm with db := s } _ tracks' x).trans (leads_entry tracks x).symm)
    fun _ _ => rfl

theorem leads_setZSet_own (reached : Leads cm (.entry node)) (setSound : Zset.Sound set tree) (n : Addr) :
    Leads (setZSet cm node set) (.member node n) ↔ n ∈ inorder tree :=
  @leads_member (setZSet cm node set) _ _ _ reached (by simp [setZSet, setEntry]) setSound n

theorem leads_setZSet_other (apart : ∀ n, object ≠ .member node n) :
    Leads (setZSet cm node set) object ↔ Leads cm object := by
  cases object with
  | entry x => exact Iff.rfl
  | member x n =>
      have other : x ≠ node := by
        rintro rfl
        exact apart n rfl
      have same : ((setZSet cm node set).entries x).set = (cm.entries x).set := by simp [setZSet, setEntry, other]
      simp only [Leads, same]
      exact Iff.rfl

theorem leads_setZSet (reached : Leads cm (.entry node)) (here : (cm.entries node).set = some set)
    (setSound : Zset.Sound set tree) (setSound' : Zset.Sound set' tree') (same : (inorder tree').Perm (inorder tree))
    (object : Object) : Leads (setZSet cm node set') object ↔ Leads cm object := by
  by_cases own : ∃ n, object = .member node n
  · obtain ⟨n, rfl⟩ := own
    rw [leads_setZSet_own reached setSound', leads_member reached here setSound, same.mem_iff]
  · exact leads_setZSet_other (not_exists.mp own)

theorem leads_withEntry {s : Map.Store} {entry : Entry} (tracks : Map.Tracks cm.db present)
    (tracks' : Map.Tracks s (cm.fresh :: present)) (new : cm.fresh ∉ present)
    (bare : ∀ set, entry.set = some set → set = initZSet) (object : Object) :
    Leads (withEntry cm s entry) object ↔ object = .entry cm.fresh ∨ Leads cm object := by
  have entries (x : Addr) : Leads (withEntry cm s entry) (.entry x) ↔ x = cm.fresh ∨ Leads cm (.entry x) := by
    rw [@leads_entry (withEntry cm s entry) _ tracks', leads_entry tracks, List.mem_cons]
  cases object with
  | entry x => rw [entries, Object.entry.injEq]
  | member x n =>
      rw [or_iff_right (by simp)]
      by_cases own : x = cm.fresh
      · subst own
        have stored : ((withEntry cm s entry).entries cm.fresh).set = entry.set := by simp [withEntry]
        refine iff_of_false ?_ fun reached => new ((leads_entry tracks _).mp reached.owner)
        rintro ⟨_, set, visited, here, visits, inside⟩
        obtain rfl := bare set (stored.symm.trans here)
        exact absurd ((initZSet_sound.tracks.visited visits).mem_iff.mp inside) (by simp)
      · have stored : ((withEntry cm s entry).entries x).set = (cm.entries x).set := by simp [withEntry, own]
        simp only [Leads, stored]
        exact and_congr_left' ((entries x).trans (or_iff_right own))

theorem leads_erase {s : Map.Store} (tracks : Map.Tracks cm.db present) (tracks' : Map.Tracks s (present.erase x))
    (object : Object) : Leads { cm with db := s } object ↔
      (object ≠ .entry x ∧ ∀ n, object ≠ .member x n) ∧ Leads cm object := by
  have entries (y : Addr) : Leads { cm with db := s } (.entry y) ↔ y ≠ x ∧ Leads cm (.entry y) := by
    rw [@leads_entry { cm with db := s } _ tracks', leads_entry tracks, tracks.nodup.mem_erase_iff]
  cases object with
  | entry y =>
      rw [entries]
      simp
  | member y n =>
      by_cases own : y = x
      · subst own
        refine iff_of_false (fun reached => ((entries y).mp reached.owner).1 rfl) ?_
        rintro ⟨⟨_, apart⟩, _⟩
        exact apart n rfl
      · rw [and_iff_right (by simp [own])]
        exact and_congr_left' ((entries y).trans (and_iff_right own))

theorem Refines.members {contents : Contents} (refines : Refines cm present contents) (member : x ∈ present) :
    ∃ members : List Object, members.Nodup ∧ members.length = contents.dropped (.del (cm.entries x).key) ∧
      ∀ object, object ∈ members ↔ Leads cm object ∧ ∃ n, object = .member x n := by
  obtain ⟨item, known, stored⟩ := refines.stored x member
  have reached := (leads_entry refines.sound.tracks x).mpr member
  cases stored with
  | str type alone =>
      refine ⟨[], List.nodup_nil, by simp [Contents.dropped, known], fun object => ?_⟩
      refine iff_of_false List.not_mem_nil ?_
      rintro ⟨inside, n, rfl⟩
      exact not_leads_member alone inside
  | @zset set tree members type here shown =>
      refine ⟨(inorder tree).map (.member x), shown.sound.holds.distinct.map fun _ _ => by simp, ?_, fun object => ?_⟩
      · simp [Contents.dropped, known, ← shown.length_eq, length_inorder]
      · rw [List.mem_map]
        constructor
        · rintro ⟨n, inside, rfl⟩
          exact ⟨(leads_member reached here shown.sound n).mpr inside, n, rfl⟩
        · rintro ⟨inside, n, rfl⟩
          exact ⟨n, (leads_member reached here shown.sound n).mp inside, rfl⟩

end Leads

/-! ### The account of the live objects -/

/-- The live objects are those that the pointers of the database lead to, and members of sets that were deleted. -/
structure Ledger (m : Memory) (leaked : List Object) : Prop where
  live : ∀ object, object ∈ m.live ↔ Leads m.cm object ∨ object ∈ leaked
  distinct : m.live.Nodup
  apart : leaked.Nodup
  lost : ∀ object ∈ leaked, ∃ x n, object = .member x n ∧ x < m.cm.fresh ∧ ¬Leads m.cm (.entry x)

section Ledger

variable {m : Memory} {cm' : CommandMap} {leaked lost : List Object} {object : Object}

theorem Ledger.not_lost (ledger : Ledger m leaked) (reached : Leads m.cm object) : object ∉ leaked := by
  intro member
  obtain ⟨x, n, rfl, _, gone⟩ := ledger.lost object member
  exact gone reached.owner

theorem Ledger.still (ledger : Ledger m leaked) (same : ∀ object, Leads cm' object ↔ Leads m.cm object)
    (fresh : cm'.fresh = m.cm.fresh) : Ledger ⟨cm', m.live⟩ leaked where
  live object := by rw [same object, ledger.live]
  distinct := ledger.distinct
  apart := ledger.apart
  lost := by
    simp only [same, fresh]
    exact ledger.lost

theorem Ledger.migrated (ledger : Ledger m leaked) {present : List Addr} {s : Map.Store} (sound : Sound m.cm present)
    (sound' : Sound { m.cm with db := s } present) : Ledger ⟨{ m.cm with db := s }, m.live⟩ leaked :=
  ledger.still (leads_migrated sound.tracks sound'.tracks) rfl

theorem Ledger.allocate (ledger : Ledger m leaked) (later : m.cm.fresh ≤ cm'.fresh)
    (new : object ∉ m.live) (old : ∀ x < m.cm.fresh, object ≠ .entry x)
    (more : ∀ other, Leads cm' other ↔ other = object ∨ Leads m.cm other) : Ledger ⟨cm', object :: m.live⟩ leaked where
  live other := by rw [more other, List.mem_cons, ledger.live, or_assoc]
  distinct := List.nodup_cons.mpr ⟨new, ledger.distinct⟩
  apart := ledger.apart
  lost := by
    intro other member
    obtain ⟨x, n, rfl, below, gone⟩ := ledger.lost other member
    exact ⟨x, n, rfl, lt_of_lt_of_le below later, fun reached =>
      ((more _).mp reached).elim (fun same => old x below same.symm) gone⟩

theorem Ledger.free (ledger : Ledger m leaked) (reached : Leads m.cm object)
    (less : ∀ other, Leads cm' other ↔ (other ≠ object ∧ other ∉ lost) ∧ Leads m.cm other)
    (fresh : cm'.fresh = m.cm.fresh)
    (members : ∀ other ∈ lost, Leads m.cm other ∧ ∃ x n, other = .member x n ∧ x < m.cm.fresh ∧ ¬Leads cm' (.entry x))
    (kept : object ∉ lost) (apart : lost.Nodup) :
    InHeap.free ⟨cm', m.live⟩ object = some ⟨cm', m.live.erase object⟩ ∧
      Ledger ⟨cm', m.live.erase object⟩ (leaked ++ lost) := by
  refine ⟨if_pos ((ledger.live object).mpr (.inl reached)), ?_, ledger.distinct.erase _, ?_, ?_⟩
  · intro other
    rw [ledger.distinct.mem_erase_iff, ledger.live, less, List.mem_append]
    constructor
    · rintro ⟨away, inside | member⟩
      · by_cases gone : other ∈ lost
        · exact .inr (.inr gone)
        · exact .inl ⟨⟨away, gone⟩, inside⟩
      · exact .inr (.inl member)
    · rintro (⟨⟨away, _⟩, inside⟩ | member | gone)
      · exact ⟨away, .inl inside⟩
      · exact ⟨fun same => ledger.not_lost reached (same ▸ member), .inr member⟩
      · exact ⟨fun same => kept (same ▸ gone), .inl (members other gone).1⟩
  · exact ledger.apart.append apart fun other member gone => ledger.not_lost (members other gone).1 member
  · intro other member
    rcases List.mem_append.mp member with member | gone
    · obtain ⟨x, n, rfl, below, away⟩ := ledger.lost other member
      exact ⟨x, n, rfl, fresh.symm ▸ below, fun inside => away ((less _).mp inside).2⟩
    · obtain ⟨_, x, n, rfl, below, away⟩ := members other gone
      exact ⟨x, n, rfl, fresh.symm ▸ below, away⟩

theorem Ledger.setVal (ledger : Ledger m leaked) (node : Addr) (val : Bytes) :
    Ledger ⟨setEntry m.cm node { m.cm.entries node with val := val }, m.live⟩ leaked := by
  refine ledger.still (leads_congr (fun x => Iff.rfl) fun x _ => ?_) rfl
  by_cases here : x = node
  · subst here
    simp [setEntry]
  · simp [setEntry, here]

theorem Ledger.insert (ledger : Ledger m leaked) {present : List Addr} {s : Map.Store} {entry : Entry}
    (sound : Sound m.cm present) (sound' : Sound (withEntry m.cm s entry) (m.cm.fresh :: present))
    (bare : ∀ set, entry.set = some set → set = initZSet) :
    Ledger ⟨withEntry m.cm s entry, .entry m.cm.fresh :: m.live⟩ leaked := by
  have new : m.cm.fresh ∉ present := fun member => sound.ne_fresh member rfl
  refine ledger.allocate (Nat.le_succ _) ?_ (by rintro x below ⟨⟩; exact lt_irrefl _ below)
    (leads_withEntry sound.tracks sound'.tracks new bare)
  rw [ledger.live, leads_entry sound.tracks]
  rintro (member | member)
  · exact new member
  · obtain ⟨x, n, wrong, _⟩ := ledger.lost _ member
    cases wrong

end Ledger

end Coxx.Common
