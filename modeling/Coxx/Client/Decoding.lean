import Coxx.Client.Replies
import Coxx.Common.Parsing

/-! The decoder on untrusted bytes. It refuses them, or reads one value from their front,
or it meets a length that wraps around in its 32-bit sums and leaves the data. -/

set_option autoImplicit false

namespace Coxx.Client

open Library Common

/-! ### The format -/

/-- A string or an error whose length and header together do not fit 32 bits. -/
inductive Wraps : Bytes → Prop where
  | str {len : Nat} (tail : Bytes) : len < 2 ^ 32 → 2 ^ 32 ≤ 1 + 4 + len →
      Wraps (Serialize.STR.tag :: (encode 4 len ++ tail))
  | err {len : Nat} (code tail : Bytes) : code.length = 4 → len < 2 ^ 32 → 2 ^ 32 ≤ 1 + 8 + len →
      Wraps (Serialize.ERR.tag :: (code ++ (encode 4 len ++ tail)))

/-- Where a decoder of these bytes comes to: their start, and in an array whose count asks for
more values, what follows the values that are there. -/
inductive Meets : Bytes → Bytes → Prop where
  | here (data : Bytes) : Meets data data
  | item {n : Nat} {items : List Value} {rest suffix : Bytes} : n < 2 ^ 32 → Value.FitsAll items → items.length < n →
      Meets rest suffix → Meets (Serialize.ARR.tag :: (encode 4 n ++ (Value.encodedAll items ++ rest))) suffix

inductive Outcome (data : Bytes) : Option (Int × List Line) → Prop where
  | bad (lines : List Line) : Outcome data (some (-1, lines))
  | value {value : Value} (rest : Bytes) : value.Fits → data = value.encoded ++ rest →
      Outcome data (some ((value.encoded.length : Int), printed value))
  | outside {suffix : Bytes} : Meets data suffix → Wraps suffix → Outcome data none

/-! ### Fields -/

theorem signedOf_range (bytes : Bytes) :
    -(256 ^ bytes.length : Nat) ≤ 2 * signedOf bytes ∧ 2 * signedOf bytes < (256 ^ bytes.length : Nat) := by
  have bound := decode_lt bytes
  unfold signedOf
  simp only
  split <;> omega

theorem signed_signedOf (bytes : Bytes) : signed bytes.length (signedOf bytes) = bytes := by
  have bound := decode_lt bytes
  have cast : (256 : Int) ^ bytes.length = (256 ^ bytes.length : Nat) := by push_cast; rfl
  have value : (signedOf bytes % (256 ^ bytes.length : Nat)).toNat = decode bytes := by
    unfold signedOf
    simp only
    split
    · rw [Int.emod_eq_of_lt (by omega) (by omega)]
      omega
    · rw [Int.sub_emod_right, Int.emod_eq_of_lt (by omega) (by omega)]
      omega
  rw [signed, cast, value, encode_decode]

theorem signed_four {code : Bytes} (size : code.length = 4) :
    signed 4 (signedOf code) = code ∧ -2 ^ 31 ≤ signedOf code ∧ signedOf code < 2 ^ 31 := by
  have range := signedOf_range code
  have same := signed_signedOf code
  rw [size] at range same
  exact ⟨same, by omega, by omega⟩

theorem signed_eight {val : Bytes} (size : val.length = 8) :
    signed 8 (signedOf val) = val ∧ -2 ^ 63 ≤ signedOf val ∧ signedOf val < 2 ^ 63 := by
  have range := signedOf_range val
  have same := signed_signedOf val
  rw [size] at range same
  exact ⟨same, by omega, by omega⟩

theorem split_field {body : Bytes} (header : 4 ≤ body.length) :
    body = encode 4 (decode (body.take 4)) ++ body.drop 4 := by
  have field := @drop_field body 0 (by omega)
  rwa [List.drop_zero, Nat.zero_add] at field

theorem split_text {body : Bytes} {len : Nat} (inside : len ≤ body.length) :
    body = body.take len ++ body.drop len ∧ (body.take len).length = len :=
  ⟨(List.take_append_drop len body).symm, by rw [List.length_take]; omega⟩

/-! ### One call -/

section Scalars

variable {fuel : Nat} {body : Bytes}

/-- The text behind a header: refused, or read, or past the end of the data when the sum wraps around. -/
theorem text_outcome {header tail : Bytes} {len : Nat} {make : Bytes → Value} {line : Bytes → Line}
    (small : (header ++ tail).length ≤ MAX_MESSAGE_SIZE) (width : len < 2 ^ 32)
    (wide : 2 ^ 32 ≤ header.length + len → Wraps (header ++ tail))
    (made : ∀ text : Bytes, text.length = len →
      (make text).Fits ∧ (make text).encoded = header ++ text ∧ printed (make text) = [line text]) :
    Outcome (header ++ tail)
      (if header.length + tail.length < (header.length + len) % 2 ^ 32 then some (-1, [.badResponse])
        else (view (header ++ tail) header.length len).map fun text => (int32 (header.length + len), [line text])) := by
  rw [List.length_append, MAX_MESSAGE_SIZE] at small
  by_cases wraps : 2 ^ 32 ≤ header.length + len
  · have fault : view (header ++ tail) header.length len = none := if_neg (by rw [List.length_append]; omega)
    rw [if_neg (by omega), fault]
    exact .outside (.here _) (wide wraps)
  · by_cases long : header.length + tail.length < (header.length + len) % 2 ^ 32
    · rw [if_pos long]
      exact .bad _
    · have inside : len ≤ tail.length := by omega
      have read : view (header ++ tail) header.length len = some (tail.take len) := by
        rw [view, if_pos (by rw [List.length_append]; omega), List.drop_left]
      have exactly : (tail.take len).length = len := by rw [List.length_take]; omega
      obtain ⟨fits, encoded, shown⟩ := made (tail.take len) exactly
      have outcome := @Outcome.value (header ++ tail) (make (tail.take len)) (tail.drop len) fits
        (by rw [encoded, List.append_assoc, List.take_append_drop])
      rw [if_neg long, read, int32_eq (by omega)]
      rwa [encoded, shown, List.length_append, exactly] at outcome

theorem str_outcome (small : (Serialize.STR.tag :: body).length ≤ MAX_MESSAGE_SIZE) :
    Outcome (Serialize.STR.tag :: body) (deserialize (fuel + 1) (Serialize.STR.tag :: body)) := by
  by_cases short : (Serialize.STR.tag :: body).length < 1 + 4
  · unfold deserialize
    simp only
    rw [if_neg (by decide), if_neg (by decide), if_pos trivial, if_pos short]
    exact .bad _
  · simp only [List.length_cons] at short
    have width := decode_field_lt body 0
    have fields := @split_field body (by omega)
    rw [List.drop_zero] at width
    generalize decode (body.take 4) = len at width fields
    rw [fields] at small ⊢
    have size : (Serialize.STR.tag :: encode 4 len).length = 1 + 4 := by simp
    have outcome := @text_outcome (Serialize.STR.tag :: encode 4 len) (body.drop 4) len .str .str small width
      (fun wraps => .str _ width (by rwa [size] at wraps))
      (fun text exactly => ⟨by rwa [Value.Fits, exactly], by rw [Value.encoded, exactly], rfl⟩)
    rwa [size, List.cons_append, ← deserialize_str_field width] at outcome

theorem err_outcome (small : (Serialize.ERR.tag :: body).length ≤ MAX_MESSAGE_SIZE) :
    Outcome (Serialize.ERR.tag :: body) (deserialize (fuel + 1) (Serialize.ERR.tag :: body)) := by
  by_cases short : (Serialize.ERR.tag :: body).length < 1 + 8
  · unfold deserialize
    simp only
    rw [if_neg (by decide), if_pos trivial, if_pos short]
    exact .bad _
  · simp only [List.length_cons] at short
    obtain ⟨codes, four⟩ := @split_text body 4 (by omega)
    obtain ⟨code, low, high⟩ := signed_four four
    have width := decode_field_lt (body.drop 4) 0
    have fields := @split_field (body.drop 4) (by rw [List.length_drop]; omega)
    rw [List.drop_zero] at width
    generalize decode ((body.drop 4).take 4) = len at width fields
    rw [codes, fields] at small ⊢
    have size : (Serialize.ERR.tag :: (body.take 4 ++ encode 4 len)).length = 1 + 8 := by
      rw [List.length_cons, List.length_append, four, length_encode]
    have outcome := @text_outcome (Serialize.ERR.tag :: (body.take 4 ++ encode 4 len)) ((body.drop 4).drop 4) len
      (.err (signedOf (body.take 4))) (.err (signedOf (body.take 4))) (by simpa using small) width
      (fun wraps => by
        rw [List.cons_append, List.append_assoc]
        exact .err _ _ four width (by rwa [size] at wraps))
      (fun text exactly => ⟨by rw [Value.Fits, exactly]; exact ⟨low, high, width⟩,
        by rw [Value.encoded, exactly, code, List.cons_append], rfl⟩)
    rwa [size, List.cons_append, List.append_assoc, ← deserialize_err_field four width] at outcome

theorem word_outcome {type : UInt8} {make : Bytes → Value} {line : Bytes → Line}
    (made : ∀ word : Bytes, word.length = 8 →
      (make word).Fits ∧ (make word).encoded = type :: word ∧ printed (make word) = [line word]) :
    Outcome (type :: body)
      (if (type :: body).length < 1 + 8 then some (-1, [.badResponse]) else some (1 + 8, [line (body.take 8)])) := by
  by_cases short : (type :: body).length < 1 + 8
  · rw [if_pos short]
    exact .bad _
  · simp only [List.length_cons] at short
    obtain ⟨parts, size⟩ := @split_text body 8 (by omega)
    obtain ⟨fits, encoded, shown⟩ := made (body.take 8) size
    have outcome := @Outcome.value (type :: body) (make (body.take 8)) (body.drop 8) fits
      (by rw [encoded, List.cons_append, ← parts])
    rw [if_neg (by rw [List.length_cons]; omega)]
    rwa [encoded, shown, List.length_cons, size] at outcome

theorem int_outcome :
    Outcome (Serialize.INT.tag :: body) (deserialize (fuel + 1) (Serialize.INT.tag :: body)) := by
  unfold deserialize
  simp only
  rw [if_neg (by decide), if_neg (by decide), if_neg (by decide), if_pos trivial]
  refine @word_outcome body _ (fun word => .int (signedOf word)) (fun word => .int (signedOf word)) fun word size => ?_
  obtain ⟨val, low, high⟩ := signed_eight size
  exact ⟨⟨low, high⟩, by rw [Value.encoded, val], rfl⟩

theorem dbl_outcome :
    Outcome (Serialize.DBL.tag :: body) (deserialize (fuel + 1) (Serialize.DBL.tag :: body)) := by
  unfold deserialize
  simp only
  rw [if_neg (by decide), if_neg (by decide), if_neg (by decide), if_neg (by decide), if_pos trivial]
  refine @word_outcome body _ (fun word => .dbl ⟨BitVec.ofNat 64 (decode word)⟩)
    (fun word => .double ⟨BitVec.ofNat 64 (decode word)⟩) fun word size => ⟨trivial, ?_, rfl⟩
  have bound := decode_lt word
  have same := encode_decode word
  rw [size] at bound same
  rw [Value.encoded, BitVec.toNat_ofNat, Nat.mod_eq_of_lt (by omega), same]

end Scalars

theorem encodedAll_concat (items : List Value) (item : Value) :
    Value.encodedAll (items ++ [item]) = Value.encodedAll items ++ item.encoded := by
  induction items with
  | nil => simp [Value.encodedAll]
  | cons first items ih => rw [List.cons_append, Value.encodedAll, Value.encodedAll, ih, List.append_assoc]

theorem printedAll_concat (items : List Value) (item : Value) :
    printedAll (items ++ [item]) = printedAll items ++ printed item := by
  induction items with
  | nil => simp [printedAll]
  | cons first items ih => rw [List.cons_append, printedAll, printedAll, ih, List.append_assoc]

theorem drop_items (n : Nat) (items : List Value) (rest : Bytes) :
    (Serialize.ARR.tag :: (encode 4 n ++ (Value.encodedAll items ++ rest))).drop (5 + (Value.encodedAll items).length) =
      rest := by
  rw [← List.append_assoc, ← List.cons_append]
  apply List.drop_left'
  simp only [List.length_cons, List.length_append, length_encode]
  omega

/-- The loop over the items, after some of them have been read. Every round reads a value from
the front of the rest, so it starts inside the data and takes a byte at least. -/
theorem readItems_outcome {fuel : Nat}
    (read : ∀ data : Bytes, data.length < fuel → data.length ≤ MAX_MESSAGE_SIZE → Outcome data (deserialize fuel data))
    {n left : Nat} {items : List Value} {rest : Bytes} (width : n < 2 ^ 32) (fits : Value.FitsAll items)
    (count : items.length + left = n)
    (enough : (Serialize.ARR.tag :: (encode 4 n ++ (Value.encodedAll items ++ rest))).length ≤ fuel)
    (small : (Serialize.ARR.tag :: (encode 4 n ++ (Value.encodedAll items ++ rest))).length ≤ MAX_MESSAGE_SIZE) :
    Outcome (Serialize.ARR.tag :: (encode 4 n ++ (Value.encodedAll items ++ rest)))
      (readItems (deserialize fuel) (Serialize.ARR.tag :: (encode 4 n ++ (Value.encodedAll items ++ rest))) left
        (5 + (Value.encodedAll items).length) (.arr n :: printedAll items)) := by
  have sizes := small
  simp only [List.length_cons, List.length_append, length_encode, MAX_MESSAGE_SIZE] at sizes enough
  induction left generalizing items rest with
  | zero =>
      rw [readItems, int32_eq (by omega)]
      have counted : items.length = n := by omega
      have outcome := @Outcome.value (Serialize.ARR.tag :: (encode 4 n ++ (Value.encodedAll items ++ rest)))
        (.arr items) rest ⟨by omega, fits⟩ (by rw [Value.encoded, counted, List.append_assoc, List.cons_append])
      have size : (Value.arr items).encoded.length = 5 + (Value.encodedAll items).length := by
        simp only [Value.encoded, List.cons_append, List.length_cons, List.length_append, length_encode]
        omega
      rwa [size, printed, counted] at outcome
  | succ left ih =>
      have inside : ¬ (Serialize.ARR.tag :: (encode 4 n ++ (Value.encodedAll items ++ rest))).length <
          5 + (Value.encodedAll items).length := by
        simp only [List.length_cons, List.length_append, length_encode]
        omega
      have outcome := read rest (by omega) (by rw [MAX_MESSAGE_SIZE]; omega)
      rw [readItems, if_neg inside, drop_items]
      generalize deserialize fuel rest = result at outcome ⊢
      cases outcome with
      | bad lines => exact .bad _
      | @value item tail good same =>
          subst same
          simp only [Option.bind_eq_bind, Option.bind_some, Int.toNat_natCast]
          rw [if_neg (by omega)]
          have grown : Value.encodedAll items ++ (item.encoded ++ tail) = Value.encodedAll (items ++ [item]) ++ tail := by
            rw [encodedAll_concat, List.append_assoc]
          have fits' : Value.FitsAll (items ++ [item]) := by
            rw [Value.fitsAll_iff] at fits ⊢
            intro other member
            rcases List.mem_append.mp member with earlier | last
            · exact fits other earlier
            · rw [List.mem_singleton.mp last]; exact good
          have size : 5 + (Value.encodedAll items).length + item.encoded.length =
              5 + (Value.encodedAll (items ++ [item])).length := by
            rw [encodedAll_concat, List.length_append]
            omega
          rw [grown] at small ⊢
          rw [size, List.cons_append, ← printedAll_concat]
          simp only [List.length_append] at sizes enough
          refine ih fits' (by rw [List.length_append, List.length_singleton]; omega) small ?_ ?_
          all_goals rw [encodedAll_concat, List.length_append]; omega
      | outside meets wraps => exact .outside (.item width fits (by omega) meets) wraps

theorem arr_outcome {fuel : Nat} {body : Bytes}
    (read : ∀ data : Bytes, data.length < fuel → data.length ≤ MAX_MESSAGE_SIZE → Outcome data (deserialize fuel data))
    (enough : (Serialize.ARR.tag :: body).length ≤ fuel) (small : (Serialize.ARR.tag :: body).length ≤ MAX_MESSAGE_SIZE) :
    Outcome (Serialize.ARR.tag :: body) (deserialize (fuel + 1) (Serialize.ARR.tag :: body)) := by
  by_cases short : (Serialize.ARR.tag :: body).length < 1 + 4
  · unfold deserialize
    simp only
    rw [if_neg (by decide), if_neg (by decide), if_neg (by decide), if_neg (by decide), if_neg (by decide), if_pos trivial,
      if_pos short]
    exact .bad _
  · simp only [List.length_cons] at short
    have width := decode_field_lt body 0
    have fields := @split_field body (by omega)
    rw [List.drop_zero] at width
    generalize decode (body.take 4) = n at width fields
    rw [fields] at small enough ⊢
    rw [deserialize_arr_field width]
    exact @readItems_outcome fuel read n n [] (body.drop 4) width trivial (by simp) enough small

/-- The decoder refuses its data, or reads one value from their front, or meets a length that wraps around. -/
theorem deserialize_outcome {fuel : Nat} {data : Bytes} (enough : data.length < fuel)
    (small : data.length ≤ MAX_MESSAGE_SIZE) : Outcome data (deserialize fuel data) := by
  induction fuel generalizing data with
  | zero => omega
  | succ fuel ih =>
      cases data with
      | nil => exact .bad _
      | cons type body =>
          by_cases nil : type = Serialize.NIL.tag
          · subst nil
            exact @Outcome.value _ .nil body trivial rfl
          by_cases err : type = Serialize.ERR.tag
          · subst err
            exact err_outcome small
          by_cases str : type = Serialize.STR.tag
          · subst str
            exact str_outcome small
          by_cases int : type = Serialize.INT.tag
          · subst int
            exact int_outcome
          by_cases dbl : type = Serialize.DBL.tag
          · subst dbl
            exact dbl_outcome
          by_cases arr : type = Serialize.ARR.tag
          · subst arr
            exact arr_outcome (fun data => @ih data) (Nat.le_of_lt_succ enough) small
          unfold deserialize
          simp only
          rw [if_neg nil, if_neg err, if_neg str, if_neg int, if_neg dbl, if_neg arr]
          exact .bad _

/-! ### Where it is safe -/

theorem Wraps.fault {data : Bytes} (wraps : Wraps data) (small : data.length ≤ MAX_MESSAGE_SIZE) (fuel : Nat) :
    deserialize fuel data = none := by
  unfold MAX_MESSAGE_SIZE at small
  cases fuel with
  | zero => rfl
  | succ fuel =>
      cases wraps with
      | @str len tail width wide =>
          have outside : view (Serialize.STR.tag :: (encode 4 len ++ tail)) (1 + 4) len = none := if_neg (by omega)
          simp only [List.length_cons, List.length_append, length_encode] at small
          rw [deserialize_str_field width, if_neg (by omega), outside, Option.map_none]
      | @err len code tail four width wide =>
          have outside : view (Serialize.ERR.tag :: (code ++ (encode 4 len ++ tail))) (1 + 8) len = none := if_neg (by omega)
          simp only [List.length_cons, List.length_append, length_encode, four] at small
          rw [deserialize_err_field four width, if_neg (by omega), outside, Option.map_none]

theorem Meets.fault {data suffix : Bytes} (meets : Meets data suffix) (wraps : Wraps suffix)
    (small : data.length ≤ MAX_MESSAGE_SIZE) {fuel : Nat} (enough : data.length < fuel) :
    deserialize fuel data = none := by
  induction meets generalizing fuel with
  | here data => exact wraps.fault small fuel
  | @item n items rest suffix width fits more _ ih =>
      obtain ⟨fuel, rfl⟩ : ∃ less, fuel = less + 1 := ⟨fuel - 1, by omega⟩
      simp only [List.length_cons, List.length_append, length_encode] at small enough
      have inner := @ih wraps (by omega) fuel (by omega)
      obtain ⟨left, rfl⟩ : ∃ left, n = items.length + (left + 1) := ⟨n - items.length - 1, by omega⟩
      have front : (Serialize.ARR.tag :: encode 4 (items.length + (left + 1))).length = 1 + 4 := by simp
      have loop := @readItems_front items fits (Serialize.ARR.tag :: encode 4 (items.length + (left + 1))) rest fuel
        (left + 1) [.arr (items.length + (left + 1))] (by rw [front]; unfold MAX_MESSAGE_SIZE at small; omega) (by omega)
      rw [front, List.cons_append] at loop
      rw [deserialize_arr_field width, loop, readItems, drop_items, inner]
      simp

/-- The decoder returns, with an error or with a number of bytes that it has read. -/
def DecodesSafely (data : Bytes) : Prop :=
  ∃ result lines, deserialize (data.length + 1) data = some (result, lines) ∧
    (result < 0 ∨ (1 ≤ result ∧ result ≤ data.length))

/-- The decoder is safe on exactly the data in which it comes to no length that wraps around.
On the others it leaves the data, however deep its calls may go. -/
theorem decodes_safely_iff {data : Bytes} (small : data.length ≤ MAX_MESSAGE_SIZE) :
    (DecodesSafely data ↔ ∀ suffix, Meets data suffix → ¬ Wraps suffix) ∧
    (¬ DecodesSafely data → ∀ fuel, data.length < fuel → deserialize fuel data = none) := by
  have safe : (∀ suffix, Meets data suffix → ¬ Wraps suffix) → DecodesSafely data := by
    intro clean
    have outcome := @deserialize_outcome (data.length + 1) data (by omega) small
    unfold DecodesSafely
    generalize deserialize (data.length + 1) data = result at outcome ⊢
    cases outcome with
    | bad lines => exact ⟨-1, lines, rfl, Or.inl (by decide)⟩
    | @value value rest _ same =>
        have filled := Value.length_encoded_pos value
        refine ⟨_, _, rfl, Or.inr ⟨by omega, ?_⟩⟩
        rw [same, List.length_append]
        omega
    | outside meets wraps => exact absurd wraps (clean _ meets)
  constructor
  · refine ⟨?_, safe⟩
    rintro ⟨result, lines, decoded, _⟩ suffix meets wraps
    rw [meets.fault wraps small (by omega)] at decoded
    cases decoded
  · intro unsafely fuel enough
    by_contra returned
    apply unsafely (safe _)
    intro suffix meets wraps
    exact returned (meets.fault wraps small enough)

/-- A string whose length is the greatest there is, with nothing behind it. -/
def greatest : Bytes := Serialize.STR.tag :: (encode 4 (2 ^ 32 - 1) ++ [])

theorem greatest_wraps : Wraps greatest := .str [] (by decide) (by decide)

theorem decodes_safely_greatest : ¬ DecodesSafely greatest := by
  intro safe
  exact (decodes_safely_iff (by decide)).1.mp safe greatest (.here _) greatest_wraps

/-- The decoder takes a string of `2 ^ 32 - 1` bytes out of a reply of five. -/
theorem decodes_unsafely : ¬ ∀ data : Bytes, data.length ≤ MAX_MESSAGE_SIZE → DecodesSafely data := by
  intro claim
  obtain ⟨result, lines, decoded, _⟩ := claim greatest (by decide)
  rw [greatest_wraps.fault (by decide)] at decoded
  cases decoded

end Coxx.Client
