import Mathlib.Data.List.Basic

/-! Decoders that take one item at a time from the front of a stream.

How the stream is cut into pieces does not matter to them: more input changes neither
an item that was read nor the reason for which the decoding has stopped.
-/

set_option autoImplicit false

namespace Coxx.Library

/-- What the front of a stream holds: no complete item yet, none at all from here on, or an item before the rest. -/
inductive Next (β α ε : Type) where
  | wait
  | stop (reason : ε)
  | item (value : α) (rest : List β)

structure Decoder (β α ε : Type) where
  next : List β → Next β α ε
  item_shorter : ∀ {s : List β} {value : α} {rest : List β}, next s = .item value rest → rest.length < s.length
  item_append : ∀ {s : List β} {value : α} {rest : List β} (more : List β),
    next s = .item value rest → next (s ++ more) = .item value (rest ++ more)
  stop_append : ∀ {s : List β} {reason : ε} (more : List β), next s = .stop reason → next (s ++ more) = .stop reason

namespace Decoder

variable {β α ε : Type} (d : Decoder β α ε)

/-- The stream starts with these items, and the rest follows them. -/
inductive Reads : List β → List α → List β → Prop where
  | nil (s : List β) : Reads s [] s
  | cons {s s' rest : List β} {value : α} {items : List α} :
      d.next s = .item value s' → Reads s' items rest → Reads s (value :: items) rest

def all (s : List β) : List α :=
  match found : d.next s with
  | .item value rest =>
    have : rest.length < s.length := d.item_shorter found
    value :: all rest
  | _ => []
termination_by s.length

def reason (s : List β) : Option ε :=
  match found : d.next s with
  | .item _ rest =>
    have : rest.length < s.length := d.item_shorter found
    reason rest
  | .stop reason => some reason
  | .wait => none
termination_by s.length

variable {d}

theorem all_item {s rest : List β} {value : α} (found : d.next s = .item value rest) :
    d.all s = value :: d.all rest := by
  rw [all]
  split
  · rename_i same
    cases found.symm.trans same
    rfl
  · rename_i other
    exact absurd found (other value rest)

theorem all_none {s : List β} (blocked : ∀ value rest, d.next s ≠ .item value rest) : d.all s = [] := by
  rw [all]
  split
  · rename_i same
    exact absurd same (blocked _ _)
  · rfl

theorem all_wait {s : List β} (found : d.next s = .wait) : d.all s = [] := by
  apply all_none
  intro value rest same
  cases found.symm.trans same

theorem all_stop {s : List β} {reason : ε} (found : d.next s = .stop reason) : d.all s = [] := by
  apply all_none
  intro value rest same
  cases found.symm.trans same

theorem reason_item {s rest : List β} {value : α} (found : d.next s = .item value rest) :
    d.reason s = d.reason rest := by
  rw [reason]
  split
  · rename_i same
    cases found.symm.trans same
    rfl
  · rename_i same
    cases found.symm.trans same
  · rename_i same
    cases found.symm.trans same

theorem reason_wait {s : List β} (found : d.next s = .wait) : d.reason s = none := by
  rw [reason]
  split
  · rename_i same
    cases found.symm.trans same
  · rename_i same
    cases found.symm.trans same
  · rfl

theorem reason_stop {s : List β} {why : ε} (found : d.next s = .stop why) : d.reason s = some why := by
  rw [reason]
  split
  · rename_i same
    cases found.symm.trans same
  · rename_i same
    cases found.symm.trans same
    rfl
  · rename_i same
    cases found.symm.trans same

theorem reads_all (s : List β) : ∃ rest, d.Reads s (d.all s) rest := by
  cases found : d.next s with
  | wait => exact ⟨s, all_wait found ▸ .nil s⟩
  | stop why => exact ⟨s, all_stop found ▸ .nil s⟩
  | item value rest =>
      have : rest.length < s.length := d.item_shorter found
      obtain ⟨final, reads⟩ := reads_all rest
      exact ⟨final, all_item found ▸ .cons found reads⟩
termination_by s.length

namespace Reads

theorem trans {s s' rest : List β} {left right : List α} (first : d.Reads s left s') (second : d.Reads s' right rest) :
    d.Reads s (left ++ right) rest := by
  induction first with
  | nil => exact second
  | cons found _ ih => exact .cons found (ih second)

theorem concat {s s' rest : List β} {items : List α} {value : α} (reads : d.Reads s items s')
    (found : d.next s' = .item value rest) : d.Reads s (items ++ [value]) rest :=
  reads.trans (.cons found (.nil rest))

theorem append {s rest : List β} {items : List α} (reads : d.Reads s items rest) (more : List β) :
    d.Reads (s ++ more) items (rest ++ more) := by
  induction reads with
  | nil => exact .nil _
  | cons found _ ih => exact .cons (d.item_append more found) ih

theorem all_eq {s rest : List β} {items : List α} (reads : d.Reads s items rest) : d.all s = items ++ d.all rest := by
  induction reads with
  | nil => rfl
  | cons found _ ih => rw [all_item found, ih, List.cons_append]

theorem reason_eq {s rest : List β} {items : List α} (reads : d.Reads s items rest) : d.reason s = d.reason rest := by
  induction reads with
  | nil => rfl
  | cons found _ ih => rw [reason_item found, ih]

/-- What was read stays the start of all there is to read, however much input follows. -/
theorem isPrefix {s rest : List β} {items : List α} (reads : d.Reads s items rest) (more : List β) :
    items <+: d.all (s ++ more) :=
  ⟨d.all (rest ++ more), (reads.append more).all_eq.symm⟩

end Reads

theorem reason_append {s : List β} {why : ε} (more : List β) (stopped : d.reason s = some why) :
    d.reason (s ++ more) = some why := by
  cases found : d.next s with
  | wait =>
      rw [reason_wait found] at stopped
      cases stopped
  | stop first =>
      rw [reason_stop found] at stopped
      cases stopped
      exact reason_stop (d.stop_append more found)
  | item value rest =>
      have : rest.length < s.length := d.item_shorter found
      rw [reason_item found] at stopped
      rw [reason_item (d.item_append more found)]
      exact reason_append more stopped
termination_by s.length

theorem all_append (s more : List β) : d.all s <+: d.all (s ++ more) := by
  obtain ⟨rest, reads⟩ := d.reads_all s
  exact reads.isPrefix more

end Decoder

end Coxx.Library
