import Coxx.Client.Requests

/-! The size check of a request, and the copies that assemble it. -/

set_option autoImplicit false

namespace Coxx.Client

open Library Common

/-! ### The size check -/

/-- The size of the encoded command, with no bound on the sum. -/
def trueLength (commands : List Bytes) : Nat := 4 + (commands.map fun s => 4 + s.length).sum

theorem totalLength_mod (commands : List Bytes) : totalLength commands = trueLength commands % 2 ^ 32 := by
  have sum (commands : List Bytes) (start : Nat) :
      commands.foldl (fun messageLength s => (messageLength + (4 + s.length)) % 2 ^ 32) (start % 2 ^ 32) =
        (start + (commands.map fun s => 4 + s.length).sum) % 2 ^ 32 := by
    induction commands generalizing start with
    | nil => simp
    | cons s commands ih =>
        rw [List.foldl_cons, Nat.mod_add_mod, ih, List.map_cons, List.sum_cons, Nat.add_assoc]
  exact sum commands 4

theorem trueLength_eq (commands : List Bytes) : trueLength commands = 4 + (encodedArgs commands).length := by
  rw [trueLength, length_encodedArgs]

/-- What the check is for: it lets no command pass that the buffer has no room for, so every
length field holds the true length and every copy stays inside the buffer. -/
structure ExactCheck (commands : List Bytes) : Prop where
  refuses : MAX_MESSAGE_SIZE < trueLength commands → ∀ chan behind, sendRequest chan behind commands = .ok (-1, chan)
  message : totalLength commands ≤ MAX_MESSAGE_SIZE → decode (encode 4 (totalLength commands)) = trueLength commands
  strings : totalLength commands ≤ MAX_MESSAGE_SIZE → ∀ s ∈ commands, decode (encode 4 s.length) = s.length
  inside : totalLength commands ≤ MAX_MESSAGE_SIZE →
    ∀ chan behind, ∃ code chan', sendRequest chan behind commands = .ok (code, chan')

/-- The check is exact but for the commands whose size wraps around to a small one. -/
theorem size_check_exact_iff (commands : List Bytes) :
    ExactCheck commands ↔
      trueLength commands ≤ MAX_MESSAGE_SIZE ∨ MAX_MESSAGE_SIZE < trueLength commands % 2 ^ 32 := by
  rw [← totalLength_mod]
  constructor
  · intro exact
    by_contra wrapped
    obtain ⟨long, passed⟩ := not_or.mp wrapped
    have field := exact.message (by omega)
    rw [decode_encode (by unfold MAX_MESSAGE_SIZE at passed; omega)] at field
    omega
  · rintro (small | refused)
    · have narrow : (encodedCommand commands).length < 2 ^ 32 := by
        rw [length_encodedCommand]
        unfold trueLength MAX_MESSAGE_SIZE at small
        omega
      have total : totalLength commands = trueLength commands := by
        rw [totalLength_mod, Nat.mod_eq_of_lt (by unfold MAX_MESSAGE_SIZE at small; omega)]
      refine ⟨fun long => by omega, fun _ => ?_, fun _ s member => ?_, fun passed chan behind => ?_⟩
      · rw [decode_encode (by unfold MAX_MESSAGE_SIZE at small; omega), total]
      · have part := length_arg member
        rw [trueLength_eq] at small
        unfold MAX_MESSAGE_SIZE at small
        exact decode_encode (by omega)
      · exact ⟨_, _, sendRequest_eq narrow passed⟩
    · refine ⟨fun _ chan behind => ?_, fun passed => by omega, fun passed => by omega, fun passed => by omega⟩
      exact if_pos refused

theorem copyStrings_overruns {commands : List Bytes} {writeBuffer : Buffer} {current : Nat}
    (inside : current ≤ 4 + MAX_MESSAGE_SIZE) (long : 4 + MAX_MESSAGE_SIZE < current + (encodedArgs commands).length) :
    copyStrings writeBuffer current commands = .error .bounds := by
  induction commands generalizing writeBuffer current with
  | nil => simp [encodedArgs] at long; omega
  | cons s commands ih =>
      simp only [encodedArgs_cons, List.length_append, length_encode] at long
      unfold copyStrings
      by_cases header : current + 4 ≤ 4 + MAX_MESSAGE_SIZE
      · obtain ⟨buffer1, stored1, _⟩ := @Buffer.store_front writeBuffer current (encode 4 s.length)
          (by rwa [length_encode])
        by_cases text : current + 4 + s.length ≤ 4 + MAX_MESSAGE_SIZE
        · obtain ⟨buffer2, stored2, _⟩ := @Buffer.store_front buffer1 (current + 4) s text
          simp only [stored1, stored2, bind, Except.bind]
          exact ih text (by omega)
        · have fault : buffer1.store (current + 4) s = .error .bounds := dif_neg text
          simp only [stored1, fault, bind, Except.bind]
      · have fault : writeBuffer.store current (encode 4 s.length) = .error .bounds :=
          dif_neg (by rwa [length_encode])
        simp only [fault, bind, Except.bind]

theorem sendRequest_overruns {commands : List Bytes} (long : MAX_MESSAGE_SIZE < trueLength commands)
    (wrapped : trueLength commands % 2 ^ 32 ≤ MAX_MESSAGE_SIZE) (chan : Channel) (behind : Nat → UInt8) :
    sendRequest chan behind commands = .error .bounds := by
  rw [← totalLength_mod] at wrapped
  rw [trueLength_eq] at long
  have copiedLength : (copied commands.length behind (totalLength commands)).length = totalLength commands := by
    rw [copied, List.length_take, List.length_append, length_encode, List.length_map, List.length_range]
    omega
  obtain ⟨buffer1, stored1, _⟩ := @Buffer.store_front Buffer.zeros 0 (encode 4 (totalLength commands))
    (by rw [length_encode]; decide)
  obtain ⟨buffer2, stored2, _⟩ := @Buffer.store_front buffer1 4 (copied commands.length behind (totalLength commands))
    (by omega)
  have overrun := @copyStrings_overruns commands buffer2 8 (by decide) (by omega)
  unfold sendRequest
  simp only
  rw [if_neg (by omega)]
  simp only [stored1, stored2, overrun, bind, Except.bind]

/-- One string of `2 ^ 32 - 8` bytes is taken for an empty message. -/
theorem size_check_wraps : ¬ ∀ commands : List Bytes, ExactCheck commands := by
  intro claim
  obtain ⟨s, size⟩ : ∃ s : Bytes, s.length = 2 ^ 32 - 8 := ⟨List.replicate (2 ^ 32 - 8) 0, List.length_replicate⟩
  have long : trueLength [s] = 2 ^ 32 := by
    simp only [trueLength, List.map_cons, List.map_nil, List.sum_cons, List.sum_nil, size]
    omega
  have field := (claim [s]).message (by rw [totalLength_mod, long]; decide)
  rw [totalLength_mod, long] at field
  exact absurd field (by decide)

/-! ### The copies -/

/-- A memcpy into the write buffer. -/
structure Copy where
  source : Bytes
  position : Nat
  size : Nat

def copiesOfStrings (current : Nat) : List Bytes → List Copy
  | [] => []
  | s :: rest =>
      ⟨encode 4 s.length, current, 4⟩ :: ⟨s, current + 4, s.length⟩ :: copiesOfStrings (current + 4 + s.length) rest

/-- All copies of `sendRequest`, in their order. The second one takes the size of the message. -/
def copies (commands : List Bytes) : List Copy :=
  ⟨encode 4 (totalLength commands), 0, 4⟩ :: ⟨encode 4 commands.length, 4, totalLength commands⟩ ::
    copiesOfStrings 8 commands

/-- The bytes that are copied: those of the source object, and then what lies behind it. -/
def Copy.block (behind : Nat → UInt8) (copy : Copy) : Bytes :=
  (copy.source ++ (List.range (copy.size - copy.source.length)).map behind).take copy.size

def perform (behind : Nat → UInt8) (writeBuffer : Buffer) (copies : List Copy) : Except Fault Buffer :=
  copies.foldlM (fun writeBuffer copy => writeBuffer.store copy.position (copy.block behind)) writeBuffer

theorem Copy.block_exact {behind : Nat → UInt8} {source : Bytes} {position : Nat} :
    (Copy.mk source position source.length).block behind = source := by
  simp [Copy.block]

theorem copyStrings_performs (behind : Nat → UInt8) (commands : List Bytes) (writeBuffer : Buffer) (current : Nat) :
    copyStrings writeBuffer current commands = perform behind writeBuffer (copiesOfStrings current commands) := by
  induction commands generalizing writeBuffer current with
  | nil => rfl
  | cons s commands ih =>
      have header := @Copy.block_exact behind (encode 4 s.length) current
      have text := @Copy.block_exact behind s (current + 4)
      rw [length_encode] at header
      unfold copyStrings copiesOfStrings perform
      simp only [List.foldlM_cons, header, text, ih]
      rfl

theorem sendRequest_performs (chan : Channel) (behind : Nat → UInt8) (commands : List Bytes) :
    sendRequest chan behind commands =
      if totalLength commands > MAX_MESSAGE_SIZE then .ok (-1, chan)
      else (do
        let writeBuffer ← perform behind Buffer.zeros (copies commands)
        .ok (Socket.writeAll chan writeBuffer.bytes (4 + totalLength commands))) := by
  have header := @Copy.block_exact behind (encode 4 (totalLength commands)) 0
  rw [length_encode] at header
  have count : (Copy.mk (encode 4 commands.length) 4 (totalLength commands)).block behind =
      copied commands.length behind (totalLength commands) := by
    simp only [Copy.block, copied, length_encode]
  unfold sendRequest
  simp only [copies, perform, List.foldlM_cons, header, count, copyStrings_performs behind]
  split
  · rfl
  · simp only [bind_assoc]

def Copy.covers (i : Nat) (copy : Copy) : Bool := decide (copy.position ≤ i ∧ i < copy.position + copy.size)

theorem Copy.covers_iff {i : Nat} {copy : Copy} :
    copy.covers i = true ↔ copy.position ≤ i ∧ i < copy.position + copy.size := decide_eq_true_iff

/-- Every copy reads its own source and writes inside the buffer, and no byte of the frame is left out or
written twice. -/
structure Owned (commands : List Bytes) : Prop where
  reads : ∀ copy ∈ copies commands, copy.size ≤ copy.source.length
  writes : ∀ copy ∈ copies commands, copy.position + copy.size ≤ 4 + MAX_MESSAGE_SIZE
  once : ∀ i < 4 + totalLength commands, (copies commands).countP (Copy.covers i) = 1

theorem countP_copiesOfStrings (commands : List Bytes) (current i : Nat) :
    (copiesOfStrings current commands).countP (Copy.covers i) =
      if current ≤ i ∧ i < current + (encodedArgs commands).length then 1 else 0 := by
  induction commands generalizing current with
  | nil =>
      have nowhere : ¬ (current ≤ i ∧ i < current + (encodedArgs []).length) := by simp [encodedArgs]
      rw [if_neg nowhere, copiesOfStrings, List.countP_nil]
  | cons s commands ih =>
      rw [copiesOfStrings, List.countP_cons, List.countP_cons, ih, encodedArgs_cons]
      simp only [Copy.covers_iff, List.length_append, length_encode]
      split <;> split <;> split <;> split <;> omega

/-- The copy of the count goes over every byte behind it, which the loop writes again. -/
theorem countP_copies {commands : List Bytes} (narrow : trueLength commands < 2 ^ 32) {i : Nat}
    (inside : i < 4 + totalLength commands) :
    (copies commands).countP (Copy.covers i) = if i < 8 then 1 else 2 := by
  have total : totalLength commands = trueLength commands := by rw [totalLength_mod, Nat.mod_eq_of_lt narrow]
  rw [copies, List.countP_cons, List.countP_cons, countP_copiesOfStrings]
  rw [total, trueLength_eq] at inside ⊢
  simp only [Copy.covers_iff]
  split <;> split <;> split <;> split <;> omega

/-- A command that is sent is assembled by these copies, and when it has a string they are not
sound: the copy of the count reads past the count, and all behind the count is written twice. -/
theorem copies_never_owned {commands : List Bytes} (some : commands ≠ []) (narrow : trueLength commands < 2 ^ 32)
    (accepted : totalLength commands ≤ MAX_MESSAGE_SIZE) :
    (∀ chan behind, sendRequest chan behind commands = do
      let writeBuffer ← perform behind Buffer.zeros (copies commands)
      .ok (Socket.writeAll chan writeBuffer.bytes (4 + totalLength commands))) ∧
    ¬ Owned commands ∧
    ∀ i < 4 + totalLength commands, (copies commands).countP (Copy.covers i) = if i < 8 then 1 else 2 := by
  refine ⟨?_, ?_, fun i inside => countP_copies narrow inside⟩
  · intro chan behind
    rw [sendRequest_performs, if_neg (Nat.not_lt.mpr accepted)]
  · intro owned
    have second : totalLength commands ≤ (encode 4 commands.length).length :=
      owned.reads ⟨encode 4 commands.length, 4, totalLength commands⟩ (by simp [copies])
    rw [length_encode, totalLength_mod, Nat.mod_eq_of_lt narrow, trueLength_eq] at second
    have args := length_le_encodedArgs commands
    have one := List.length_pos_iff.mpr some
    omega

theorem copies_never_owned_keys : ¬ Owned [[107, 101, 121, 115]] :=
  (copies_never_owned (by decide) (by decide) (by decide)).2.1

/-- A command of one empty string: the copy of the count takes eight bytes out of four. -/
theorem copies_overread : ¬ ∀ commands : List Bytes, commands ≠ [] → trueLength commands < 2 ^ 32 →
    totalLength commands ≤ MAX_MESSAGE_SIZE → Owned commands := by
  intro claim
  have owned := claim [[]] (by decide) (by decide) (by decide)
  have second : 8 ≤ (encode 4 1).length := owned.reads ⟨encode 4 1, 4, 8⟩ (by simp [copies, totalLength])
  exact absurd second (by decide)

end Coxx.Client
