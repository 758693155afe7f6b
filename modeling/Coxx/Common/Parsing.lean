import Coxx.Common.Request
import Mathlib.Algebra.Order.BigOperators.Group.List
import Mathlib.Algebra.Order.Group.Nat

/-! The format of a request body, and that the parser reads it. -/

set_option autoImplicit false

namespace Coxx.Common

open Library

def encodedArgs (commands : List Bytes) : Bytes := (commands.map fun s => encode 4 s.length ++ s).flatten

/-- The body of a request: the number of strings, and the strings. -/
def encodedCommand (commands : List Bytes) : Bytes := encode 4 commands.length ++ encodedArgs commands

@[simp] theorem encodedArgs_cons (s : Bytes) (commands : List Bytes) :
    encodedArgs (s :: commands) = encode 4 s.length ++ (s ++ encodedArgs commands) := by
  simp [encodedArgs]

theorem length_encodedArgs (commands : List Bytes) :
    (encodedArgs commands).length = (commands.map fun s => 4 + s.length).sum := by
  induction commands with
  | nil => rfl
  | cons s commands ih =>
      rw [encodedArgs_cons, List.length_append, List.length_append, length_encode, ih, List.map_cons, List.sum_cons]
      omega

theorem length_encodedCommand (commands : List Bytes) :
    (encodedCommand commands).length = 4 + (commands.map fun s => 4 + s.length).sum := by
  rw [encodedCommand, List.length_append, length_encode, length_encodedArgs]

theorem length_le_encodedArgs (commands : List Bytes) : 4 * commands.length ≤ (encodedArgs commands).length := by
  induction commands with
  | nil => simp
  | cons s commands ih =>
      rw [encodedArgs_cons, List.length_append, List.length_append, length_encode, List.length_cons]
      omega

theorem length_arg {commands : List Bytes} {s : Bytes} (member : s ∈ commands) :
    4 + s.length ≤ (encodedArgs commands).length := by
  have part := (List.sublist_flatten_of_mem (List.mem_map_of_mem member :
    encode 4 s.length ++ s ∈ commands.map fun s => encode 4 s.length ++ s)).length_le
  rw [List.length_append, length_encode] at part
  exact part

/-! ### What lies in a body -/

/-- Strings that lie in the body from a position on, each behind its length, and end where the body ends. A string
advances the position by what `advance` makes of its length. -/
def Laid (advance : Nat → Nat) (body : Bytes) (position : Nat) : List Bytes → Prop
  | [] => position = body.length
  | s :: rest => s.length < 2 ^ 32 ∧ (body.drop position).take (4 + s.length) = encode 4 s.length ++ s ∧
      Laid advance body (position + advance s.length) rest

/-- How the format advances. -/
def summed (sizeOfData : Nat) : Nat := 4 + sizeOfData

/-- How the parser advances. -/
def wrapped (sizeOfData : Nat) : Nat := (4 + sizeOfData) % 2 ^ 32

/-- Too long for the parser. -/
def Wraps (s : Bytes) : Prop := 2 ^ 32 - 4 ≤ s.length

section Laid

variable {advance : Nat → Nat} {body : Bytes} {position : Nat} {commands : List Bytes} {s : Bytes}

theorem wrapped_le (size : Nat) : wrapped size ≤ summed size := Nat.mod_le _ _

theorem wrapped_lt (wraps : Wraps s) : wrapped s.length < summed s.length := by
  unfold Wraps at wraps
  unfold wrapped summed
  omega

theorem wrapped_eq (short : ¬Wraps s) : wrapped s.length = summed s.length := by
  unfold Wraps at short
  exact Nat.mod_eq_of_lt (by omega)

theorem Laid.short (laid : Laid advance body position commands) : ∀ s ∈ commands, s.length < 2 ^ 32 := by
  induction commands generalizing position with
  | nil => simp
  | cons s commands ih =>
      obtain ⟨short, _, rest⟩ := laid
      exact List.forall_mem_cons.mpr ⟨short, ih rest⟩

theorem Laid.final (laid : Laid advance body position commands) :
    position + (commands.map fun s => advance s.length).sum = body.length := by
  induction commands generalizing position with
  | nil => exact laid
  | cons s commands ih =>
      rw [List.map_cons, List.sum_cons, ← Nat.add_assoc]
      exact ih laid.2.2

theorem Laid.inside (laid : Laid advance body position (s :: commands)) : position + summed s.length ≤ body.length := by
  have size := congrArg List.length laid.2.1
  rw [List.length_take, List.length_drop, List.length_append, length_encode] at size
  unfold summed
  omega

theorem laid_wrapped_iff (short : ∀ s ∈ commands, ¬Wraps s) :
    Laid wrapped body position commands ↔ Laid summed body position commands := by
  induction commands generalizing position with
  | nil => exact Iff.rfl
  | cons s commands ih =>
      obtain ⟨first, rest⟩ := List.forall_mem_cons.mp short
      rw [Laid, Laid, wrapped_eq first, ih rest]

/-- Strings one of which is too long are not where the parser and the format would both have them. -/
theorem not_laid_both (left : Laid summed body position commands) (right : Laid wrapped body position commands) :
    ∀ s ∈ commands, ¬Wraps s := by
  intro s member wraps
  have less : (commands.map fun s => wrapped s.length).sum < (commands.map fun s => summed s.length).sum :=
    List.sum_lt_sum _ _ (fun s _ => wrapped_le s.length) ⟨s, member, wrapped_lt wraps⟩
  have first := left.final
  have second := right.final
  omega

theorem laid_summed_iff (inside : position ≤ body.length) : Laid summed body position commands ↔
    (∀ s ∈ commands, s.length < 2 ^ 32) ∧ body.drop position = encodedArgs commands := by
  induction commands generalizing position with
  | nil =>
      have size := @List.drop_eq_nil_iff _ body position
      simp only [Laid, List.not_mem_nil, false_imp_iff, implies_true, true_and, encodedArgs, List.map_nil,
        List.flatten_nil, size]
      omega
  | cons s commands ih =>
      rw [List.forall_mem_cons, encodedArgs_cons, ← List.append_assoc]
      constructor
      · intro laid
        have behind := laid.inside
        obtain ⟨short, here, rest⟩ := laid
        obtain ⟨shorts, later⟩ := (ih behind).mp rest
        refine ⟨⟨short, shorts⟩, ?_⟩
        rw [← here, ← later, summed, ← List.drop_drop, List.take_append_drop]
      · rintro ⟨⟨short, shorts⟩, here⟩
        have size : (encode 4 s.length ++ s).length = 4 + s.length := by rw [List.length_append, length_encode]
        have total := congrArg List.length here
        rw [List.length_drop, List.length_append, size] at total
        refine ⟨short, by rw [here, List.take_left' size], (ih (by unfold summed; omega)).mpr ⟨shorts, ?_⟩⟩
        rw [summed, ← List.drop_drop, here, List.drop_left' size]

end Laid

/-! ### What the parser reads -/

/-- A field of four bytes inside the body is the encoding of what the parser reads there. -/
theorem take_field {body : Bytes} {position : Nat} (inside : position + 4 ≤ body.length) :
    (body.drop position).take 4 = encode 4 (decode ((body.drop position).take 4)) := by
  have size : ((body.drop position).take 4).length = 4 := by
    rw [List.length_take, List.length_drop]
    omega
  have field := encode_decode ((body.drop position).take 4)
  rw [size] at field
  exact field.symm

theorem drop_field {body : Bytes} {position : Nat} (inside : position + 4 ≤ body.length) :
    body.drop position = encode 4 (decode ((body.drop position).take 4)) ++ body.drop (position + 4) := by
  rw [← take_field inside, ← List.drop_drop, List.take_append_drop]

theorem decode_field_lt (body : Bytes) (position : Nat) : decode ((body.drop position).take 4) < 2 ^ 32 := by
  have bound := decode_lt ((body.drop position).take 4)
  have size : ((body.drop position).take 4).length ≤ 4 := List.length_take_le _ _
  calc decode ((body.drop position).take 4) < 256 ^ ((body.drop position).take 4).length := bound
    _ ≤ 256 ^ 4 := Nat.pow_le_pow_right (by decide) size

theorem parseArgs_eq_some {body : Bytes} {count position : Nat} {outputData result : List Bytes} :
    Request.parseArgs body body.length count position outputData = some (result, body.length) ↔
      ∃ commands, result = outputData ++ commands ∧ commands.length = count ∧ Laid wrapped body position commands := by
  induction count generalizing position outputData with
  | zero =>
      simp only [Request.parseArgs, Option.some.injEq, Prod.mk.injEq]
      constructor
      · rintro ⟨rfl, final⟩
        exact ⟨[], (List.append_nil _).symm, rfl, final⟩
      · rintro ⟨commands, rfl, none, laid⟩
        obtain rfl := List.length_eq_zero_iff.mp none
        exact ⟨(List.append_nil _).symm, laid⟩
  | succ count ih =>
      rw [Request.parseArgs]
      generalize width : decode ((body.drop position).take 4) = size
      constructor
      · intro accepted
        simp only [gt_iff_lt] at accepted
        split at accepted
        · cases accepted
        · rename_i header
          split at accepted
          · cases accepted
          · rename_i fits
            obtain ⟨commands, rfl, counted, rest⟩ := ih.mp accepted
            have length : ((body.drop (position + 4)).take size).length = size := by
              rw [List.length_take, List.length_drop]
              omega
            refine ⟨_ :: commands, by rw [List.append_assoc]; rfl, by rw [List.length_cons, counted], ?_, ?_, ?_⟩
            · rw [length, ← width]
              exact decode_field_lt body position
            · rw [length, ← width, ← take_field (by omega), width, List.take_add, List.drop_drop]
            · rw [length]
              exact rest
      · rintro ⟨_ | ⟨s, commands⟩, rfl, counted, laid⟩
        · cases counted
        · have inside := laid.inside
          obtain ⟨short, here, rest⟩ := laid
          unfold summed at inside
          rw [List.take_add, List.drop_drop] at here
          obtain ⟨field, data⟩ := List.append_inj here (by
            rw [List.length_take, List.length_drop, length_encode]
            omega)
          obtain rfl : size = s.length := by
            rw [← width, field]
            exact decode_encode short
          simp only [gt_iff_lt]
          rw [if_neg (by omega), if_neg (by omega), data]
          exact ih.mpr ⟨commands, List.append_cons _ _ _, Nat.succ_inj.mp counted, rest⟩

theorem parse_eq_some {body : Bytes} {commands : List Bytes} : Request.parse body body.length = some commands ↔
    commands.length ≤ MAX_NUM_ARGS ∧ body.take 4 = encode 4 commands.length ∧ Laid wrapped body 4 commands := by
  unfold Request.parse
  constructor
  · intro accepted
    simp only [gt_iff_lt] at accepted
    split at accepted
    · cases accepted
    · rename_i header
      split at accepted
      · cases accepted
      · rename_i few
        split at accepted
        · cases accepted
        · rename_i result final loop
          split at accepted
          · cases accepted
          · rename_i whole
            cases accepted
            rw [Decidable.not_not.mp whole] at loop
            obtain ⟨_, rfl, counted, laid⟩ := parseArgs_eq_some.mp loop
            rw [counted]
            exact ⟨by omega, @take_field body 0 (by omega), laid⟩
  · rintro ⟨few, field, laid⟩
    have long := congrArg List.length field
    rw [List.length_take, length_encode] at long
    have count : decode (body.take 4) = commands.length := by
      rw [field]
      exact decode_encode (by unfold MAX_NUM_ARGS at few; omega)
    have loop : Request.parseArgs body body.length commands.length 4 [] = some (commands, body.length) :=
      parseArgs_eq_some.mpr ⟨commands, rfl, rfl, laid⟩
    simp only [count, loop]
    rw [if_neg (by omega), if_neg (by omega), if_neg (not_not.mpr rfl)]

theorem format_iff {body : Bytes} {commands : List Bytes} :
    (∀ s ∈ commands, s.length < 2 ^ 32) ∧ body = encodedCommand commands ↔
      body.take 4 = encode 4 commands.length ∧ Laid summed body 4 commands := by
  constructor
  · rintro ⟨short, rfl⟩
    have long : 4 ≤ (encodedCommand commands).length := by
      rw [length_encodedCommand]
      omega
    exact ⟨List.take_left' (length_encode _ _), (laid_summed_iff long).mpr ⟨short, List.drop_left' (length_encode _ _)⟩⟩
  · rintro ⟨field, laid⟩
    have long := congrArg List.length field
    rw [List.length_take, length_encode] at long
    obtain ⟨short, args⟩ := (laid_summed_iff (by omega)).mp laid
    exact ⟨short, by rw [encodedCommand, ← field, ← args, List.take_append_drop]⟩

theorem parse_complete {commands : List Bytes} (few : commands.length ≤ MAX_NUM_ARGS)
    (short : ∀ s ∈ commands, ¬Wraps s) :
    Request.parse (encodedCommand commands) (encodedCommand commands).length = some commands := by
  have narrow : ∀ s ∈ commands, s.length < 2 ^ 32 := by
    intro s member
    have small := short s member
    unfold Wraps at small
    omega
  obtain ⟨field, laid⟩ := format_iff.mp ⟨narrow, rfl⟩
  exact parse_eq_some.mpr ⟨few, field, (laid_wrapped_iff short).mpr laid⟩

theorem Laid.not_wraps {advance : Nat → Nat} {body : Bytes} {position : Nat} {commands : List Bytes}
    (laid : Laid advance body position commands) (narrow : body.length < position + 2 ^ 32) :
    ∀ s ∈ commands, ¬Wraps s := by
  induction commands generalizing position with
  | nil => simp
  | cons s commands ih =>
      have inside := laid.inside
      refine List.forall_mem_cons.mpr ⟨?_, ih laid.2.2 (by omega)⟩
      unfold Wraps
      unfold summed at inside
      omega

theorem parse_sound {body : Bytes} {commands : List Bytes} (narrow : body.length < 2 ^ 32)
    (accepted : Request.parse body body.length = some commands) :
    commands.length ≤ MAX_NUM_ARGS ∧ (∀ s ∈ commands, s.length < 2 ^ 32) ∧ body = encodedCommand commands := by
  obtain ⟨few, field, laid⟩ := parse_eq_some.mp accepted
  exact ⟨few, format_iff.mpr ⟨field, (laid_wrapped_iff (laid.not_wraps (by omega))).mp laid⟩⟩

/-! ### Only the body is read -/

/-- A memcpy out of the request: none when it leaves the first `length` bytes. -/
def readRequest (requestData : Bytes) (length start size : Nat) : Option Bytes :=
  if start + size ≤ length then some ((requestData.drop start).take size) else none

/-- `parseArgs` with its reads; the outer none is a read outside the request. -/
def guardedArgs (requestData : Bytes) (length : Nat) (count currentPosition : Nat) (outputData : List Bytes) :
    Option (Option (List Bytes × Nat)) :=
  match count with
  | 0 => some (some (outputData, currentPosition))
  | count + 1 =>
    if currentPosition + 4 > length then some none
    else do
      let sizeOfData := decode (← readRequest requestData length currentPosition 4)
      if currentPosition + 4 + sizeOfData > length then some none
      else do
        let data ← readRequest requestData length (currentPosition + 4) sizeOfData
        guardedArgs requestData length count (currentPosition + (4 + sizeOfData) % 2 ^ 32) (outputData ++ [data])

def guardedParse (requestData : Bytes) (length : Nat) : Option (Option (List Bytes)) :=
  if length < 4 then some none
  else do
    let count := decode (← readRequest requestData length 0 4)
    if count > MAX_NUM_ARGS then some none
    else
      match ← guardedArgs requestData length count 4 [] with
      | none => some none
      | some (outputData, currentPosition) => some (if currentPosition ≠ length then none else some outputData)

theorem readRequest_inside {requestData : Bytes} {length start size : Nat} (inside : start + size ≤ length) :
    readRequest requestData length start size = some ((requestData.drop start).take size) := if_pos inside

theorem guardedArgs_eq (requestData : Bytes) (length count currentPosition : Nat) (outputData : List Bytes) :
    guardedArgs requestData length count currentPosition outputData =
      some (Request.parseArgs requestData length count currentPosition outputData) := by
  induction count generalizing currentPosition outputData with
  | zero => rfl
  | succ count ih =>
      rw [guardedArgs, Request.parseArgs]
      by_cases header : currentPosition + 4 > length
      · rw [if_pos header, if_pos header]
      · rw [if_neg header, if_neg header, readRequest_inside (by omega)]
        simp only [Option.bind_eq_bind, Option.bind_some]
        by_cases long : currentPosition + 4 + decode ((requestData.drop currentPosition).take 4) > length
        · rw [if_pos long, if_pos long]
        · rw [if_neg long, if_neg long, readRequest_inside (by omega), Option.bind_some]
          exact ih _ _

theorem guardedParse_eq (requestData : Bytes) (length : Nat) :
    guardedParse requestData length = some (Request.parse requestData length) := by
  unfold guardedParse Request.parse
  by_cases header : length < 4
  · rw [if_pos header, if_pos header]
  · rw [if_neg header, if_neg header, readRequest_inside (by omega)]
    simp only [List.drop_zero, Option.bind_eq_bind, Option.bind_some]
    by_cases many : decode (requestData.take 4) > MAX_NUM_ARGS
    · rw [if_pos many, if_pos many]
    · rw [if_neg many, if_neg many, guardedArgs_eq, Option.bind_some]
      split <;> simp_all

/-! ### The format -/

/-- The parser accepts the body as exactly the lists that have it as their format. A list has a 32-bit format when its
strings have 32-bit lengths. -/
def ParsesExactly (body : Bytes) : Prop :=
  ∀ commands, Request.parse body body.length = some commands ↔
    commands.length ≤ MAX_NUM_ARGS ∧ (∀ s ∈ commands, s.length < 2 ^ 32) ∧ body = encodedCommand commands

/-- No strings lie in the body, where the format or where the parser has them, one of which is too long. -/
def Unwrapped (body : Bytes) : Prop :=
  ∀ commands, commands.length ≤ MAX_NUM_ARGS → body.take 4 = encode 4 commands.length →
    Laid summed body 4 commands ∨ Laid wrapped body 4 commands → ∀ s ∈ commands, ¬Wraps s

/-- The parser reads only the body, and it accepts exactly its format if no string of 2 ^ 32 - 4 bytes or more is in the
way: none in a body of less than 2 ^ 32 + 4 bytes. Then no two bodies are accepted as one list, and an accepted list
encodes to its body. -/
theorem parse_exact_iff (body : Bytes) :
    guardedParse body body.length = some (Request.parse body body.length) ∧
    (ParsesExactly body ↔ Unwrapped body) ∧ (body.length < 2 ^ 32 + 4 → Unwrapped body) ∧
    (Unwrapped body → ∀ commands, Request.parse body body.length = some commands → encodedCommand commands = body ∧
      ∀ other, Unwrapped other → Request.parse other other.length = some commands → body = other) := by
  have exact_of_unwrapped {body : Bytes} (unwrapped : Unwrapped body) : ParsesExactly body := by
    intro commands
    rw [parse_eq_some]
    refine and_congr_right fun few => ?_
    rw [format_iff]
    refine and_congr_right fun field => ⟨fun laid => ?_, fun laid => ?_⟩
    · exact (laid_wrapped_iff (unwrapped commands few field (.inr laid))).mp laid
    · exact (laid_wrapped_iff (unwrapped commands few field (.inl laid))).mpr laid
  refine ⟨guardedParse_eq body body.length, ⟨?_, exact_of_unwrapped⟩, ?_, ?_⟩
  · rintro parsed commands few field (laid | laid)
    · obtain ⟨_, _, other⟩ := parse_eq_some.mp ((parsed commands).mpr ⟨few, format_iff.mpr ⟨field, laid⟩⟩)
      exact not_laid_both laid other
    · obtain ⟨_, format⟩ := (parsed commands).mp (parse_eq_some.mpr ⟨few, field, laid⟩)
      exact not_laid_both (format_iff.mp format).2 laid
  · rintro narrow commands _ _ (laid | laid)
    · exact laid.not_wraps (by omega)
    · exact laid.not_wraps (by omega)
  · intro unwrapped commands accepted
    obtain ⟨_, _, same⟩ := (exact_of_unwrapped unwrapped commands).mp accepted
    refine ⟨same.symm, fun other unwrapped' accepted' => ?_⟩
    rw [same, ((exact_of_unwrapped unwrapped' commands).mp accepted').2.2]

/-- One string of 2 ^ 32 - 4 bytes: the parser stays in front of it, and refuses the body. -/
theorem long_string_refused : ¬ParsesExactly (encodedCommand [List.replicate (2 ^ 32 - 4) 0]) := by
  have size : (List.replicate (2 ^ 32 - 4) (0 : UInt8)).length = 2 ^ 32 - 4 := List.length_replicate
  generalize List.replicate (2 ^ 32 - 4) (0 : UInt8) = long at size
  have wraps : Wraps long := by rw [Wraps, size]
  have narrow : ∀ s ∈ [long], s.length < 2 ^ 32 := by
    rw [List.forall_mem_singleton, size]
    decide
  intro parsed
  have few : [long].length ≤ MAX_NUM_ARGS := by
    rw [List.length_singleton]
    decide
  have accepted := (parsed [long]).mpr ⟨few, narrow, rfl⟩
  have laid := (format_iff.mp ⟨narrow, rfl⟩).2
  exact not_laid_both laid (parse_eq_some.mp accepted).2.2 long List.mem_cons_self wraps

end Coxx.Common
