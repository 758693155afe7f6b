import Coxx.Client.Client
import Coxx.Common.Frames
import Coxx.Common.Replies
import Coxx.Common.Transfers
import Coxx.Server.Connections

/-! The client decodes what the server encodes: every reply is one value, printed item by item. -/

set_option autoImplicit false

namespace Coxx.Client

open Library Common Server

/-! ### Values -/

mutual

def printed : Value → List Line
  | .nil => [.nil]
  | .err code msg => [.err code msg]
  | .str val => [.str val]
  | .int val => [.int val]
  | .dbl val => [.double val]
  | .arr items => .arr items.length :: (printedAll items ++ [.arrEnd])

def printedAll : List Value → List Line
  | [] => []
  | item :: items => printed item ++ printedAll items

end

theorem signedOf_signed {width : Nat} {value : Int} (low : -(256 ^ width : Nat) ≤ 2 * value)
    (high : 2 * value < (256 ^ width : Nat)) : signedOf (signed width value) = value := by
  have cast : (256 : Int) ^ width = (256 ^ width : Nat) := by push_cast; rfl
  have bound : (value % (256 ^ width : Nat)).toNat < 256 ^ width := by
    have := Int.emod_lt_of_pos value (show (0 : Int) < (256 ^ width : Nat) by omega)
    omega
  unfold signedOf signed
  rw [cast, decode_encode bound, length_encode]
  rcases Int.lt_or_le value 0 with negative | positive
  · have wrapped : value % (256 ^ width : Nat) = value + (256 ^ width : Nat) := by
      rw [← Int.add_emod_right, Int.emod_eq_of_lt (by omega) (by omega)]
    simp only [wrapped]
    rw [if_neg (by omega)]
    omega
  · have same : value % (256 ^ width : Nat) = value := Int.emod_eq_of_lt positive (by omega)
    simp only [same]
    rw [if_pos (by omega)]
    omega

theorem int32_eq {value : Nat} (small : value < 2 ^ 31) : int32 value = value := by
  unfold int32 signedOf
  rw [decode_encode (by omega), length_encode]
  exact if_pos (by omega)

theorem view_behind {header body rest : Bytes} {start : Nat} (size : header.length = start) :
    view (header ++ (body ++ rest)) start body.length = some body := by
  unfold view
  rw [if_pos (by simp only [List.length_append]; omega), List.drop_left' size, List.take_left]

section Scalars

variable {fuel : Nat} {rest : Bytes}

theorem deserialize_err_field {code tail : Bytes} {len : Nat} (four : code.length = 4) (width : len < 2 ^ 32) :
    deserialize (fuel + 1) (Serialize.ERR.tag :: (code ++ (encode 4 len ++ tail))) =
      if 1 + 8 + tail.length < (1 + 8 + len) % 2 ^ 32 then some (-1, [.badResponse])
      else (view (Serialize.ERR.tag :: (code ++ (encode 4 len ++ tail))) (1 + 8) len).map fun msg =>
        (int32 (1 + 8 + len), [Line.err (signedOf code) msg]) := by
  have first : (code ++ (encode 4 len ++ tail)).take 4 = code := List.take_left' four
  have second : ((code ++ (encode 4 len ++ tail)).drop 4).take 4 = encode 4 len := by
    rw [List.drop_left' four, List.take_left' (length_encode _ _)]
  have size : (Serialize.ERR.tag :: (code ++ (encode 4 len ++ tail))).length = 1 + 8 + tail.length := by
    simp only [List.length_cons, List.length_append, length_encode, four]
    omega
  unfold deserialize
  simp only
  rw [if_neg (by decide), if_pos trivial, size]
  simp only [Nat.add_comm 1 4, List.drop_succ_cons, List.drop_zero, first, second,
    decode_encode (show len < 256 ^ 4 by omega)]
  rw [if_neg (by omega)]

theorem deserialize_str_field {tail : Bytes} {len : Nat} (width : len < 2 ^ 32) :
    deserialize (fuel + 1) (Serialize.STR.tag :: (encode 4 len ++ tail)) =
      if 1 + 4 + tail.length < (1 + 4 + len) % 2 ^ 32 then some (-1, [.badResponse])
      else (view (Serialize.STR.tag :: (encode 4 len ++ tail)) (1 + 4) len).map fun val =>
        (int32 (1 + 4 + len), [Line.str val]) := by
  have first : (encode 4 len ++ tail).take 4 = encode 4 len := List.take_left' (length_encode _ _)
  have size : (Serialize.STR.tag :: (encode 4 len ++ tail)).length = 1 + 4 + tail.length := by
    simp only [List.length_cons, List.length_append, length_encode]
    omega
  unfold deserialize
  simp only
  rw [if_neg (by decide), if_neg (by decide), if_pos trivial, size]
  simp only [List.drop_succ_cons, List.drop_zero, first, decode_encode (show len < 256 ^ 4 by omega)]
  rw [if_neg (by omega)]

/-- The branch of an array: its header, and then whatever the loop over the items makes of the rest. -/
theorem deserialize_arr_field {tail : Bytes} {len : Nat} (width : len < 2 ^ 32) :
    deserialize (fuel + 1) (Serialize.ARR.tag :: (encode 4 len ++ tail)) =
      readItems (deserialize fuel) (Serialize.ARR.tag :: (encode 4 len ++ tail)) len (1 + 4) [.arr len] := by
  have first : (encode 4 len ++ tail).take 4 = encode 4 len := List.take_left' (length_encode _ _)
  unfold deserialize
  simp only
  rw [if_neg (by decide), if_neg (by decide), if_neg (by decide), if_neg (by decide), if_neg (by decide), if_pos trivial]
  simp only [List.drop_succ_cons, List.drop_zero, first, List.length_cons, List.length_append, length_encode,
    decode_encode (show len < 256 ^ 4 by omega)]
  rw [if_neg (by omega)]

theorem deserialize_err {code : Int} {msg : Bytes} (low : -2 ^ 31 ≤ code) (high : code < 2 ^ 31)
    (short : (Value.err code msg).encoded.length < 2 ^ 31) :
    deserialize (fuel + 1) ((Value.err code msg).encoded ++ rest) =
      some (((Value.err code msg).encoded.length : Int), [Line.err code msg]) := by
  have size : (signed 4 code).length = 4 := length_encode _ _
  have text := @view_behind (Serialize.ERR.tag :: (signed 4 code ++ encode 4 msg.length)) msg rest (1 + 8)
    (by simp [size])
  simp only [Value.encoded, List.cons_append, List.append_assoc, List.length_cons, List.length_append, length_encode,
    size] at short text ⊢
  rw [deserialize_err_field size (by omega), List.length_append, if_neg (by omega), text,
    signedOf_signed (by omega) (by omega), int32_eq (by omega), Option.map_some]
  congr 2
  omega

theorem deserialize_str {val : Bytes} (short : (Value.str val).encoded.length < 2 ^ 31) :
    deserialize (fuel + 1) ((Value.str val).encoded ++ rest) =
      some (((Value.str val).encoded.length : Int), [Line.str val]) := by
  have text := @view_behind (Serialize.STR.tag :: encode 4 val.length) val rest (1 + 4) (by simp)
  simp only [Value.encoded, List.cons_append, List.append_assoc, List.length_cons, List.length_append,
    length_encode] at short text ⊢
  rw [deserialize_str_field (by omega), List.length_append, if_neg (by omega), text, int32_eq (by omega), Option.map_some]
  congr 2
  omega

theorem deserialize_int {val : Int} (low : -2 ^ 63 ≤ val) (high : val < 2 ^ 63) :
    deserialize (fuel + 1) ((Value.int val).encoded ++ rest) = some (9, [Line.int val]) := by
  have size : (signed 8 val).length = 8 := length_encode _ _
  have first : (signed 8 val ++ rest).take 8 = signed 8 val := List.take_left' size
  simp only [Value.encoded, List.cons_append]
  unfold deserialize
  simp only
  rw [if_neg (by decide), if_neg (by decide), if_neg (by decide), if_pos trivial]
  simp only [List.drop_succ_cons, List.drop_zero, first, List.length_cons, List.length_append, size]
  rw [if_neg (by omega), signedOf_signed (by omega) (by omega)]
  rfl

theorem deserialize_dbl {val : Double} :
    deserialize (fuel + 1) ((Value.dbl val).encoded ++ rest) = some (9, [Line.double val]) := by
  have first : (encode 8 val.bits.toNat ++ rest).take 8 = encode 8 val.bits.toNat := List.take_left' (length_encode _ _)
  simp only [Value.encoded, List.cons_append]
  unfold deserialize
  simp only
  rw [if_neg (by decide), if_neg (by decide), if_neg (by decide), if_neg (by decide), if_pos trivial]
  simp only [List.drop_succ_cons, List.drop_zero, first, List.length_cons, List.length_append, length_encode,
    decode_encode (show val.bits.toNat < 256 ^ 8 by omega), BitVec.ofNat_toNat, BitVec.setWidth_eq]
  rw [if_neg (by omega)]
  rfl

end Scalars

mutual

theorem deserialize_encoded {value : Value} (fits : value.Fits) {rest : Bytes} {fuel : Nat}
    (short : value.encoded.length < 2 ^ 31) (enough : value.encoded.length ≤ fuel) :
    deserialize fuel (value.encoded ++ rest) = some ((value.encoded.length : Int), printed value) := by
  have filled := Value.length_encoded_pos value
  rw [show fuel = fuel - 1 + 1 by omega]
  cases value with
  | nil => rfl
  | err code msg => exact deserialize_err fits.1 fits.2.1 short
  | str val => exact deserialize_str short
  | int val => exact deserialize_int fits.1 fits.2
  | dbl val => exact deserialize_dbl
  | arr items =>
      have size : (Value.arr items).encoded.length = 5 + (Value.encodedAll items).length := by
        simp only [Value.encoded, List.cons_append, List.length_cons, List.length_append, length_encode]
        omega
      rw [size] at short enough
      have loop := @readItems_front items fits.2 (Serialize.ARR.tag :: encode 4 items.length) rest (fuel - 1) 0
        [.arr items.length] (by simpa using short) (by omega)
      have header : (Serialize.ARR.tag :: encode 4 items.length).length = 1 + 4 := by simp
      rw [header, List.cons_append, Nat.add_zero] at loop
      rw [size, Value.encoded, List.append_assoc, List.cons_append, deserialize_arr_field fits.1, loop, readItems,
        int32_eq (by omega)]
      simp [printed]

theorem readItems_front {items : List Value} (fits : Value.FitsAll items) {front rest : Bytes} {fuel left : Nat}
    {lines : List Line} (short : front.length + (Value.encodedAll items).length < 2 ^ 31)
    (enough : (Value.encodedAll items).length ≤ fuel) :
    readItems (deserialize fuel) (front ++ (Value.encodedAll items ++ rest)) (items.length + left) front.length lines =
      readItems (deserialize fuel) (front ++ (Value.encodedAll items ++ rest)) left
        (front.length + (Value.encodedAll items).length) (lines ++ printedAll items) := by
  cases items with
  | nil => simp [Value.encodedAll, printedAll]
  | cons item items =>
      simp only [Value.encodedAll, List.length_append] at short enough ⊢
      have first := @deserialize_encoded item fits.1 (Value.encodedAll items ++ rest) fuel (by omega) (by omega)
      have later := @readItems_front items fits.2 (front ++ item.encoded) rest fuel left (lines ++ printed item)
        (by rw [List.length_append]; omega) (by omega)
      rw [List.length_cons, Nat.add_right_comm, readItems, if_neg (by rw [List.length_append]; omega), List.drop_left,
        List.append_assoc item.encoded, first]
      simp only [Option.bind_eq_bind, Option.bind_some, Int.toNat_natCast]
      rw [if_neg (by omega)]
      simpa [printedAll, Nat.add_assoc] using later

end

/-! ### Uniqueness -/

theorem signed_inj {width : Nat} {left right : Int} (lowL : -(256 ^ width : Nat) ≤ 2 * left)
    (highL : 2 * left < (256 ^ width : Nat)) (lowR : -(256 ^ width : Nat) ≤ 2 * right)
    (highR : 2 * right < (256 ^ width : Nat)) (same : signed width left = signed width right) : left = right := by
  rw [← signedOf_signed lowL highL, same, signedOf_signed lowR highR]

theorem sized_inj {left right r s : Bytes} (shortL : left.length < 2 ^ 32) (shortR : right.length < 2 ^ 32)
    (same : encode 4 left.length ++ (left ++ r) = encode 4 right.length ++ (right ++ s)) : left = right ∧ r = s := by
  obtain ⟨sizes, bodies⟩ := List.append_inj same (by rw [length_encode, length_encode])
  exact List.append_inj bodies (encode_injective shortL shortR sizes)

mutual

theorem encoded_inj {left right : Value} (fitsL : left.Fits) (fitsR : right.Fits) {r s : Bytes}
    (same : left.encoded ++ r = right.encoded ++ s) : left = right ∧ r = s := by
  cases left with
  | nil =>
      cases right with
      | nil => exact ⟨rfl, by simpa [Value.encoded] using same⟩
      | _ => simp [Value.encoded, Serialize.tag] at same
  | err code msg =>
      cases right with
      | err code' msg' =>
          simp only [Value.encoded, List.cons_append, List.append_assoc, List.cons.injEq, true_and] at same
          obtain ⟨codes, bodies⟩ := List.append_inj same (by simp [signed])
          obtain ⟨lowL, highL, sizeL⟩ := fitsL
          obtain ⟨lowR, highR, sizeR⟩ := fitsR
          obtain ⟨rfl, rest⟩ := sized_inj sizeL sizeR bodies
          obtain rfl := signed_inj (by omega) (by omega) (by omega) (by omega) codes
          exact ⟨rfl, rest⟩
      | _ => simp [Value.encoded, Serialize.tag] at same
  | str val =>
      cases right with
      | str val' =>
          simp only [Value.encoded, List.cons_append, List.append_assoc, List.cons.injEq, true_and] at same
          obtain ⟨rfl, rest⟩ := sized_inj fitsL fitsR same
          exact ⟨rfl, rest⟩
      | _ => simp [Value.encoded, Serialize.tag] at same
  | int val =>
      cases right with
      | int val' =>
          simp only [Value.encoded, List.cons_append, List.cons.injEq, true_and] at same
          obtain ⟨vals, rest⟩ := List.append_inj same (by simp [signed])
          obtain ⟨lowL, highL⟩ := fitsL
          obtain ⟨lowR, highR⟩ := fitsR
          obtain rfl := signed_inj (by omega) (by omega) (by omega) (by omega) vals
          exact ⟨rfl, rest⟩
      | _ => simp [Value.encoded, Serialize.tag] at same
  | dbl val =>
      cases right with
      | dbl val' =>
          simp only [Value.encoded, List.cons_append, List.cons.injEq, true_and] at same
          obtain ⟨bits, rest⟩ := List.append_inj same (by simp)
          obtain ⟨val⟩ := val
          obtain ⟨val'⟩ := val'
          obtain rfl := BitVec.toNat_injective (encode_injective (by omega) (by omega) bits)
          exact ⟨rfl, rest⟩
      | _ => simp [Value.encoded, Serialize.tag] at same
  | arr items =>
      cases right with
      | arr items' =>
          simp only [Value.encoded, List.cons_append, List.append_assoc, List.cons.injEq, true_and] at same
          obtain ⟨sizes, bodies⟩ := List.append_inj same (by simp)
          obtain ⟨rfl, rest⟩ := encodedAll_inj (encode_injective fitsL.1 fitsR.1 sizes) fitsL.2 fitsR.2 bodies
          exact ⟨rfl, rest⟩
      | _ => simp [Value.encoded, Serialize.tag] at same

theorem encodedAll_inj {left right : List Value} (sizes : left.length = right.length) (fitsL : Value.FitsAll left)
    (fitsR : Value.FitsAll right) {r s : Bytes} (same : Value.encodedAll left ++ r = Value.encodedAll right ++ s) :
    left = right ∧ r = s := by
  cases left with
  | nil =>
      obtain rfl := List.length_eq_zero_iff.mp sizes.symm
      exact ⟨rfl, same⟩
  | cons item left =>
      cases right with
      | nil => simp at sizes
      | cons other right =>
          simp only [Value.encodedAll, List.append_assoc] at same
          obtain ⟨rfl, later⟩ := encoded_inj fitsL.1 fitsR.1 same
          obtain ⟨rfl, rest⟩ := encodedAll_inj (by simpa using sizes) fitsL.2 fitsR.2 later
          exact ⟨rfl, rest⟩

end

/-! ### Replies -/

theorem awaitFull_arrived {chan : Channel} {data rest : Bytes} (arrived : chan.incoming = data ++ rest)
    (steady : Steady chan.reads) :
    ∃ chan', awaitFull chan data.length = .ok (some data, chan') ∧ chan'.incoming = rest ∧ Steady chan'.reads ∧
      chan'.closed = chan.closed := by
  obtain ⟨chan', read, left, _, later⟩ := readFull_arrived arrived steady
  have closed := (readFrom_kept data.length chan [] data.length).1
  rw [Socket.readFull] at read
  rw [read] at closed
  refine ⟨chan', ?_, left, later, closed⟩
  simp only [awaitFull, Socket.readFull, read]

theorem readResponse_frame {value : Value} (fits : value.Fits) (small : value.encoded.length ≤ MAX_MESSAGE_SIZE)
    {chan : Channel} {rest : Bytes} (arrived : chan.incoming = frame value.encoded ++ rest)
    (steady : Steady chan.reads) :
    ∃ chan', readResponse chan = .ok ⟨value.encoded.length, printed value, chan'⟩ ∧ chan'.incoming = rest := by
  unfold MAX_MESSAGE_SIZE at small
  rw [frame, List.append_assoc] at arrived
  obtain ⟨chan1, header, behind, steady1, _⟩ := awaitFull_arrived arrived steady
  obtain ⟨chan2, body, left, _, _⟩ := awaitFull_arrived behind steady1
  have decoded := @deserialize_encoded value fits [] (value.encoded.length + 1) (by omega) (by omega)
  rw [List.append_nil] at decoded
  rw [length_encode] at header
  refine ⟨chan2, ?_, left⟩
  unfold readResponse
  simp only [header, bind, Except.bind, decode_encode (show value.encoded.length < 256 ^ 4 by omega)]
  rw [if_neg (by unfold MAX_MESSAGE_SIZE; omega)]
  simp only [body, decoded]
  rw [if_neg]
  rintro ⟨_, different⟩
  exact different (by omega)

/-- The packed reply is the encoding of one value, and the client reads back that value. -/
structure Decodes (reply : Bytes) (value : Value) : Prop where
  encoded : packed reply = value.encoded
  fits : value.Fits
  only : ∀ other : Value, other.Fits → packed reply = other.encoded → other = value
  accepted : (packed reply).length ≤ MAX_MESSAGE_SIZE
  decoded : ∀ fuel, (packed reply).length ≤ fuel →
    deserialize fuel (packed reply) = some (((packed reply).length : Int), printed value)
  response : ∀ (chan : Channel) (rest : Bytes), chan.incoming = frame (packed reply) ++ rest → Steady chan.reads →
    ∃ chan', readResponse chan = .ok ⟨(packed reply).length, printed value, chan'⟩ ∧ chan'.incoming = rest

theorem packed_value {value : Value} (ranged : value.Ranged) :
    ∃ sent : Value, packed value.encoded = sent.encoded ∧ sent.Ranged := by
  unfold packed
  split
  · exact ⟨.err Error.TOO_BIG.code (text "response is too big"), rfl, ranged_error _ _⟩
  · exact ⟨value, rfl, ranged⟩

theorem decodes_of_ranged {reply : Bytes} {value : Value} (same : reply = value.encoded) (ranged : value.Ranged) :
    ∃ sent, Decodes reply sent := by
  obtain ⟨sent, encoded, ranged⟩ := packed_value ranged
  rw [← same] at encoded
  have small := length_packed reply
  rw [encoded] at small
  have fits := Value.fits_of_short ranged (by unfold MAX_MESSAGE_SIZE at small; omega)
  refine ⟨sent, encoded, fits, ?_, ?_, ?_, ?_⟩
  · intro other fitsOther equal
    have equal' : other.encoded ++ [] = sent.encoded ++ [] := by rw [← equal, encoded]
    exact (encoded_inj fitsOther fits equal').1
  · rw [encoded]
    omega
  · intro fuel enough
    rw [encoded] at enough ⊢
    have decoded := @deserialize_encoded sent fits [] fuel (by unfold MAX_MESSAGE_SIZE at small; omega) enough
    rwa [List.append_nil] at decoded
  · intro chan rest arrived steady
    rw [encoded] at arrived ⊢
    exact readResponse_frame fits (by omega) arrived steady

/-- Unless the memory is full, a command has a reply; it is the encoding of one value, the connection puts the frame
of that encoding in its write buffer, and the client decodes it. -/
theorem replies_decoded {cm : CommandMap} (reachable : Reachable cm) (around : Surroundings) (commandList : List Bytes)
    (clean : ∀ name ∈ (Request.command commandList).names, Zset.Clean name) :
    (Full cm ∨ ∃ cm' reply, Request.run cm around commandList [] = some (cm', reply)) ∧
      ∀ cm' reply, Request.run cm around commandList [] = some (cm', reply) →
        (∃ value, Decodes reply value) ∧
          ∀ (s : Session Database) (rest : Bytes), s.conn.Sound → s.conn.state = .REQ →
            s.db.commandMap = cm → s.db.around 0 = around → nextFrame s.conn.pending = .item commandList rest →
            ∃ s', s.tryOneRequest execute = .ok (s'.conn.state == .REQ, s') ∧ s'.db.commandMap = cm' ∧
              s'.chan.written ++ s'.conn.unsent = s.chan.written ++ frame (packed reply) := by
  obtain ⟨present, values, sound, view⟩ := reachable.sound
  constructor
  · by_cases full : Full cm
    · exact .inl full
    · obtain ⟨⟨cm', reply⟩, result⟩ := run_ends sound view full around (Request.command commandList) clean
      exact .inr ⟨cm', reply, result⟩
  · intro cm' reply result
    obtain ⟨value, same, ranged⟩ := (run_kept sound view _ result).reply
    refine ⟨decodes_of_ranged same ranged, ?_⟩
    rintro s rest soundConn idle rfl rfl found
    have executed : execute s.db commandList = some (⟨cm', fun n => s.db.around (n + 1)⟩, reply) := by
      unfold execute
      rw [result]
      rfl
    have step := @Session.tryOneRequest_eq _ execute s soundConn idle
    simp only [found, executed] at step
    obtain ⟨s', done, served, _⟩ := step
    refine ⟨s', done, ?_, served.replies⟩
    have same := served.result.symm.trans executed
    simp only [Option.some.injEq, Prod.mk.injEq, and_true] at same
    rw [same]

/-- In a database with a string and a sorted set, the listing of the set is decoded. -/
theorem replies_decoded_sample : ∃ cm trace cm' reply value, runAll initCommandMap sample = some (cm, trace) ∧
    Request.run cm ⟨.guarded, .guarded⟩ [text "zquery", text "k", text "1", [], text "0", text "9"] [] =
      some (cm', reply) ∧
    Decodes reply value ∧ value = .arr [.str (text "m"), .dbl ⟨0x3FF0000000000000⟩, .str (text "n"),
      .dbl ⟨0x4000000000000000⟩] := by
  obtain ⟨cm, trace, made, reachable⟩ := sample_reachable
  have evaluated : ((runAll initCommandMap sample).bind fun after => Request.run after.1 ⟨.guarded, .guarded⟩
      [text "zquery", text "k", text "1", [], text "0", text "9"] []).map Prod.snd =
        some (Value.arr [.str (text "m"), .dbl ⟨0x3FF0000000000000⟩, .str (text "n"),
          .dbl ⟨0x4000000000000000⟩]).encoded := by decide +kernel
  rw [made, Option.bind_some] at evaluated
  obtain ⟨⟨cm', reply⟩, result, rfl⟩ := Option.map_eq_some_iff.mp evaluated
  obtain ⟨_, decodes⟩ := replies_decoded reachable ⟨.guarded, .guarded⟩
    [text "zquery", text "k", text "1", [], text "0", text "9"] (by decide)
  obtain ⟨value, decoded⟩ := (decodes cm' _ result).1
  refine ⟨cm, trace, cm', _, value, made, result, decoded, (decoded.only _ ?_ (by decide +kernel)).symm⟩
  simp only [Value.Fits, Value.FitsAll]
  decide

end Coxx.Client
