import Mathlib.Data.List.Sort

/-! Finite maps whose entries are listed by a rank. A key occurs once, and entries of equal rank have equal keys. -/

set_option autoImplicit false

namespace Coxx.Library

variable {κ σ ρ : Type} [LinearOrder ρ]

structure Ranking (rank : κ × σ → ρ) where
  list : List (κ × σ)
  sorted : list.Pairwise fun a b => rank a ≤ rank b
  once : (list.map Prod.fst).Nodup

namespace Ranking

variable {rank : κ × σ → ρ}

def empty : Ranking rank := ⟨[], .nil, .nil⟩

instance : Inhabited (Ranking rank) := ⟨empty⟩

theorem eq_of_key (ranking : Ranking rank) {a b : κ × σ} (left : a ∈ ranking.list) (right : b ∈ ranking.list)
    (same : a.1 = b.1) : a = b :=
  List.inj_on_of_nodup_map ranking.once left right same

theorem ext_mem (distinct : ∀ a b, rank a = rank b → a.1 = b.1) {left right : Ranking rank}
    (same : ∀ entry, entry ∈ left.list ↔ entry ∈ right.list) : left = right := by
  have lists : left.list = right.list := by
    have perm := (List.perm_ext_iff_of_nodup left.once.of_map right.once.of_map).mpr same
    apply List.Perm.eq_of_pairwise _ left.sorted right.sorted perm
    intro a b memberA memberB before after
    exact left.eq_of_key memberA ((same b).mpr memberB) (distinct a b (le_antisymm before after))
  cases left
  cases right
  simpa using lists

section Find

variable [DecidableEq κ]

def find (ranking : Ranking rank) (key : κ) : Option σ :=
  (ranking.list.find? fun entry => entry.1 = key).map Prod.snd

theorem find_eq_some (ranking : Ranking rank) {key : κ} {value : σ} :
    ranking.find key = some value ↔ (key, value) ∈ ranking.list := by
  rw [find, Option.map_eq_some_iff]
  constructor
  · rintro ⟨entry, found, rfl⟩
    have named : entry.1 = key := by simpa using List.find?_some found
    rw [← named]
    exact List.mem_of_find?_eq_some found
  · intro member
    cases found : ranking.list.find? fun entry => entry.1 = key with
    | none => simpa using List.find?_eq_none.mp found _ member
    | some entry =>
        have named : entry.1 = key := by simpa using List.find?_some found
        exact ⟨entry, rfl, congrArg Prod.snd (ranking.eq_of_key (List.mem_of_find?_eq_some found) member named)⟩

@[simp] theorem find_empty (key : κ) : (empty : Ranking rank).find key = none := rfl

/-! ### Changes -/

def erase (ranking : Ranking rank) (key : κ) : Ranking rank where
  list := ranking.list.filter fun entry => entry.1 ≠ key
  sorted := ranking.sorted.filter _
  once := ranking.once.sublist (List.filter_sublist.map _)

theorem mem_erase (ranking : Ranking rank) {key : κ} {entry : κ × σ} :
    entry ∈ (ranking.erase key).list ↔ entry ∈ ranking.list ∧ entry.1 ≠ key := by
  simp [erase]

/-- The entry of the key is replaced, and moves to the place of its new rank. -/
def put (ranking : Ranking rank) (key : κ) (value : σ) : Ranking rank where
  list := (ranking.erase key).list.orderedInsert (fun a b => rank a ≤ rank b) (key, value)
  sorted := by
    have total : Std.Total fun a b : κ × σ => rank a ≤ rank b := ⟨fun a b => le_total (rank a) (rank b)⟩
    have trans : IsTrans (κ × σ) fun a b => rank a ≤ rank b := ⟨fun _ _ _ => le_trans⟩
    exact (ranking.erase key).sorted.orderedInsert _ _
  once := by
    have perm := (List.perm_orderedInsert (fun a b => rank a ≤ rank b) (key, value) (ranking.erase key).list).map Prod.fst
    rw [perm.nodup_iff, List.map_cons, List.nodup_cons]
    refine ⟨?_, (ranking.erase key).once⟩
    intro member
    obtain ⟨entry, inside, same⟩ := List.mem_map.mp member
    exact (ranking.mem_erase.mp inside).2 same

theorem mem_put (ranking : Ranking rank) {key : κ} {value : σ} {entry : κ × σ} :
    entry ∈ (ranking.put key value).list ↔ entry = (key, value) ∨ entry ∈ ranking.list ∧ entry.1 ≠ key := by
  rw [put, List.mem_orderedInsert, mem_erase]

theorem find_erase (ranking : Ranking rank) (key : κ) :
    (ranking.erase key).find = Function.update ranking.find key none := by
  funext other
  apply Option.ext
  intro value
  rw [find_eq_some, mem_erase, ← find_eq_some]
  by_cases same : other = key
  · subst same; simp
  · simp [same]

theorem find_put (ranking : Ranking rank) (key : κ) (value : σ) :
    (ranking.put key value).find = Function.update ranking.find key (some value) := by
  funext other
  apply Option.ext
  intro found
  rw [find_eq_some, mem_put, ← find_eq_some]
  by_cases same : other = key
  · subst same; simp [eq_comm]
  · simp [same]

end Find

/-! ### Ranges -/

def below (ranking : Ranking rank) (bound : ρ) : Nat := ranking.list.countP fun entry => rank entry < bound

/-- At most `count` entries, from `off` places behind the first one that is not below the bound; none where there is no
such one, or where the place is in front of the list. -/
def range (ranking : Ranking rank) (bound : ρ) (off : Int) (count : Nat) : List (κ × σ) :=
  if ranking.below bound = ranking.list.length ∨ ranking.below bound + off < 0 then []
  else (ranking.list.drop (ranking.below bound + off).toNat).take count

theorem drop_below (ranking : Ranking rank) (bound : ρ) :
    ranking.list.drop (ranking.below bound) = ranking.list.filter fun entry => bound ≤ rank entry := by
  unfold below
  have sorted := ranking.sorted
  generalize ranking.list = entries at sorted
  induction entries with
  | nil => rfl
  | cons first rest ih =>
      obtain ⟨least, sorted⟩ := List.pairwise_cons.mp sorted
      by_cases under : rank first < bound
      · simp only [List.countP_cons, under, decide_true, if_true, List.drop_succ_cons, ih sorted,
          List.filter_cons, decide_eq_true_eq, not_le.mpr under, if_false]
      · have all : ∀ entry ∈ rest, bound ≤ rank entry := fun entry member => le_trans (not_lt.mp under) (least entry member)
        have none : rest.countP (fun entry => decide (rank entry < bound)) = 0 := by
          rw [List.countP_eq_zero]
          intro entry member
          simpa using all entry member
        rw [List.countP_cons, none, if_neg (by simpa using under)]
        symm
        rw [Nat.zero_add, List.drop_zero, List.filter_eq_self]
        intro entry member
        rcases List.mem_cons.mp member with rfl | inside
        · simpa using under
        · simpa using all entry inside

theorem range_forward (ranking : Ranking rank) (bound : ρ) (off count : Nat) :
    ranking.range bound off count =
      ((ranking.list.filter fun entry => bound ≤ rank entry).drop off).take count := by
  rw [← drop_below, List.drop_drop, range]
  by_cases none : ranking.below bound = ranking.list.length
  · rw [if_pos (.inl none), none, List.drop_of_length_le (by omega), List.take_nil]
  · have place : ((ranking.below bound : Int) + off).toNat = ranking.below bound + off := by omega
    rw [if_neg (by omega), place]

/-- Pages of one size, one after the other, list the entries that are not below the bound. -/
theorem range_pages (ranking : Ranking rank) (bound : ρ) (size pages : Nat) :
    (List.range pages).flatMap (fun page => ranking.range bound ((page * size : Nat) : Int) size) =
      (ranking.list.filter fun entry => bound ≤ rank entry).take (pages * size) := by
  simp only [range_forward]
  induction pages with
  | zero => simp
  | succ pages ih =>
      rw [List.range_succ, List.flatMap_append, ih, List.flatMap_singleton, Nat.succ_mul, List.take_add]

end Ranking

end Coxx.Library
