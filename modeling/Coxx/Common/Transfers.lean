import Coxx.Common.Socket

/-! What one repeated read can take, and what the repeated writes of a flush deliver. -/

set_option autoImplicit false

namespace Coxx.Common

namespace Channel

/-- The outcomes of a read that is repeated while it is interrupted. -/
inductive Taken (chan : Channel) (size : Nat) : Answer × Bytes × Channel → Prop where
  | data {data incoming : Bytes} {reads : List Answer} (split : chan.incoming = data ++ incoming) (some : data ≠ [])
      (fits : data.length ≤ size) (later : reads <:+ chan.reads) :
      Taken chan size (.ok data.length, data, { chan with
        incoming := incoming, received := chan.received ++ data, reads := reads, lastRead := .some (.ok data.length) })
  | eof {reads : List Answer} (empty : chan.incoming = []) (closed : chan.closed = true) (later : reads <:+ chan.reads) :
      Taken chan size (.ok 0, [], { chan with reads := reads, lastRead := .some (.ok 0) })
  | again {reads : List Answer} (cause : .EAGAIN ∈ chan.reads ∨ chan.incoming = [] ∧ chan.closed = false)
      (later : reads <:+ chan.reads) :
      Taken chan size (.EAGAIN, [], { chan with reads := reads, lastRead := .some .EAGAIN })
  | error {reads : List Answer} (cause : .error ∈ chan.reads) (later : reads <:+ chan.reads) :
      Taken chan size (.error, [], { chan with reads := reads, lastRead := .some .error })

/-- Answers that were passed over, and the answer to the last of them, do not matter. -/
theorem Taken.skip {chan : Channel} {size : Nat} {rest : List Answer} {last : Option Answer}
    {result : Answer × Bytes × Channel} (taken : Taken { chan with reads := rest, lastRead := last } size result)
    (later : rest <:+ chan.reads) : Taken chan size result := by
  cases taken with
  | data split some fits after => exact .data split some fits (after.trans later)
  | eof empty closed after => exact .eof empty closed (after.trans later)
  | again cause after => exact .again (cause.imp_left fun member => later.mem member) (after.trans later)
  | error cause after => exact .error (later.mem cause) (after.trans later)

theorem take_taken {chan : Channel} {size count : Nat} {rest : List Answer} (room : 0 < count) (fits : count ≤ size)
    (later : rest <:+ chan.reads) : Taken chan size ({ chan with reads := rest }.take count) := by
  obtain ⟨incoming, closed, reads, writes, received, written, lastRead⟩ := chan
  unfold take
  cases incoming with
  | nil =>
      cases closed with
      | true => exact .eof rfl rfl later
      | false => exact .again (.inr ⟨rfl, rfl⟩) later
  | cons byte incoming =>
      apply Taken.data
      · exact (List.take_append_drop count _).symm
      · obtain ⟨count, rfl⟩ : ∃ n, count = n + 1 := ⟨count - 1, by omega⟩
        simp
      · exact (List.length_take_le _ _).trans fits
      · exact later

theorem read_taken {chan : Channel} {size : Nat} (room : 0 < size) :
    (∃ rest, chan.reads = .EINTR :: rest ∧
      chan.read size = (.EINTR, [], { chan with reads := rest, lastRead := some .EINTR })) ∨
    Taken chan size (chan.read size) := by
  obtain ⟨incoming, closed, reads, writes, received, written, lastRead⟩ := chan
  unfold read
  cases reads with
  | nil =>
      right
      exact @take_taken ⟨incoming, closed, [], writes, received, written, lastRead⟩ size size [] room (le_refl _)
        (List.suffix_refl _)
  | cons answer rest =>
      have later : rest <:+ answer :: rest := List.suffix_cons _ _
      cases answer with
      | ok count =>
          right
          exact @take_taken ⟨incoming, closed, .ok count :: rest, writes, received, written, lastRead⟩ size
            (min size (max 1 count)) rest (by omega) (by omega) later
      | EAGAIN => exact .inr (.again (.inl List.mem_cons_self) later)
      | EINTR => exact .inl ⟨rest, rfl, rfl⟩
      | error => exact .inr (.error List.mem_cons_self later)

/-- The answers are enough for all repetitions, so the call is never left interrupted. -/
theorem readAgain_taken {fuel size : Nat} {chan : Channel} (enough : chan.reads.length ≤ fuel) (room : 0 < size) :
    Taken chan size (chan.readAgain fuel size) := by
  induction fuel generalizing chan with
  | zero =>
      rcases read_taken room with ⟨rest, more, _⟩ | taken
      · rw [more] at enough
        simp at enough
      · exact taken
  | succ fuel ih =>
      unfold readAgain
      rcases read_taken room with ⟨rest, more, interrupted⟩ | taken
      · rw [interrupted]
        have shorter : ({ chan with reads := rest, lastRead := some .EINTR } : Channel).reads.length ≤ fuel := by
          rw [more] at enough
          simpa using enough
        apply (ih shorter).skip
        rw [more]
        exact List.suffix_cons _ _
      · generalize chan.read size = result at taken
        cases taken with
        | data split some fits later => exact .data split some fits later
        | eof empty closed later => exact .eof empty closed later
        | again cause later => exact .again cause later
        | error cause later => exact .error cause later

end Channel

/-! ### Flushing -/

/-- How the writes of a flush end: with everything written, with EAGAIN, or with an error. -/
inductive FlushEnd where
  | drained
  | blocked
  | failed
  deriving DecidableEq, Repr

/-- How many of the unsent bytes the kernel accepts, how that ends, and the answers that are left. -/
def flush (unsent : Nat) : List Answer → Nat × FlushEnd × List Answer
  | [] => (unsent, .drained, [])
  | .ok count :: rest =>
    if unsent ≤ count then (unsent, .drained, rest)
    else
      let (accepted, ending, rest) := flush (unsent - count) rest
      (count + accepted, ending, rest)
  | .EINTR :: rest => flush unsent rest
  | .EAGAIN :: rest => (0, .blocked, rest)
  | .error :: rest => (0, .failed, rest)

/-- The outcomes of a write that is repeated while it is interrupted, as steps of the flush. -/
inductive Channel.Put (chan : Channel) (data : Bytes) : Answer × Channel → Prop where
  | all {writes : List Answer} (step : flush data.length chan.writes = (data.length, .drained, writes)) :
      Put chan data (.ok data.length, { chan with writes := writes, written := chan.written ++ data })
  | some {count : Nat} {writes : List Answer} (less : count < data.length) (shorter : writes.length < chan.writes.length)
      (step : flush data.length chan.writes =
        (count + (flush (data.length - count) writes).1, (flush (data.length - count) writes).2)) :
      Put chan data (.ok count, { chan with writes := writes, written := chan.written ++ data.take count })
  | again {writes : List Answer} (step : flush data.length chan.writes = (0, .blocked, writes)) :
      Put chan data (.EAGAIN, { chan with writes := writes })
  | error {writes : List Answer} (step : flush data.length chan.writes = (0, .failed, writes)) :
      Put chan data (.error, { chan with writes := writes })

namespace Channel

theorem Put.skip {chan : Channel} {data : Bytes} {rest : List Answer} {result : Answer × Channel}
    (put : Put { chan with writes := rest } data result) (next : chan.writes = .EINTR :: rest) :
    Put chan data result := by
  have same : flush data.length chan.writes = flush data.length rest := by rw [next, flush]
  cases put with
  | all step => exact .all (same.trans step)
  | some less shorter step =>
      apply Put.some less _ (same.trans step)
      rw [next]
      exact Nat.lt_succ_of_lt shorter
  | again step => exact .again (same.trans step)
  | error step => exact .error (same.trans step)

theorem write_put (chan : Channel) (data : Bytes) :
    (∃ rest, chan.writes = .EINTR :: rest ∧ chan.write data = (.EINTR, { chan with writes := rest })) ∨
    Put chan data (chan.write data) := by
  obtain ⟨incoming, closed, reads, writes, received, written, lastRead⟩ := chan
  unfold write
  cases writes with
  | nil => exact .inr (.all rfl)
  | cons answer rest =>
      cases answer with
      | ok count =>
          right
          by_cases whole : data.length ≤ count
          · simp only [Nat.min_eq_right whole, List.take_of_length_le whole]
            apply Put.all
            simp only [flush, if_pos whole]
          · simp only [Nat.min_eq_left (Nat.le_of_not_le whole)]
            apply Put.some (by omega) (by simp)
            simp only [flush, if_neg whole]
      | EAGAIN => exact .inr (.again rfl)
      | EINTR => exact .inl ⟨rest, rfl, rfl⟩
      | error => exact .inr (.error rfl)

theorem writeAgain_put {fuel : Nat} {chan : Channel} (enough : chan.writes.length ≤ fuel) (data : Bytes) :
    Put chan data (chan.writeAgain fuel data) := by
  induction fuel generalizing chan with
  | zero =>
      rcases write_put chan data with ⟨rest, more, _⟩ | put
      · rw [more] at enough
        simp at enough
      · exact put
  | succ fuel ih =>
      unfold writeAgain
      rcases write_put chan data with ⟨rest, more, interrupted⟩ | put
      · rw [interrupted]
        have shorter : ({ chan with writes := rest } : Channel).writes.length ≤ fuel := by
          rw [more] at enough
          simpa using enough
        exact (ih shorter).skip more
      · generalize chan.write data = result at put
        cases put with
        | all step => exact .all step
        | some less shorter step => exact .some less shorter step
        | again step => exact .again step
        | error step => exact .error step

end Channel

theorem flush_le (unsent : Nat) (answers : List Answer) : (flush unsent answers).1 ≤ unsent := by
  induction answers generalizing unsent with
  | nil => exact le_refl _
  | cons answer rest ih =>
      cases answer with
      | ok count =>
          unfold flush
          split
          · exact le_refl _
          · have := ih (unsent - count)
            simp only
            omega
      | EINTR => exact ih unsent
      | EAGAIN => exact Nat.zero_le _
      | error => exact Nat.zero_le _

theorem flush_drained {unsent : Nat} (some : 0 < unsent) (answers : List Answer) :
    (flush unsent answers).2.1 = .drained ↔ (flush unsent answers).1 = unsent := by
  induction answers generalizing unsent with
  | nil => simp [flush]
  | cons answer rest ih =>
      cases answer with
      | ok count =>
          unfold flush
          split
          · simp
          · rename_i more
            simp only [ih (by omega : 0 < unsent - count)]
            omega
      | EINTR => exact ih some
      | EAGAIN => simp [flush]; omega
      | error => simp [flush]; omega

/-- Answers that accept at least one byte each. -/
def Willing (answers : List Answer) : Prop := ∀ answer ∈ answers, answer = .EINTR ∨ ∃ count, answer = .ok (count + 1)

theorem flush_willing {answers : List Answer} (willing : Willing answers) (unsent : Nat) :
    (flush unsent answers).2.1 = .drained ∧ Willing (flush unsent answers).2.2 := by
  induction answers generalizing unsent with
  | nil => exact ⟨rfl, willing⟩
  | cons answer rest ih =>
      have later : Willing rest := fun answer member => willing answer (List.mem_cons_of_mem _ member)
      rcases willing answer List.mem_cons_self with rfl | ⟨count, rfl⟩
      · exact ih later unsent
      · unfold flush
        split
        · exact ⟨rfl, later⟩
        · exact ih later _

/-! ### Whole messages -/

/-- Answers that transfer something each time. -/
def Steady (answers : List Answer) : Prop := ∀ answer ∈ answers, ∃ count, answer = .ok (count + 1)

/-- One call of `write` takes the start of the data, and some of it for a steady answer. -/
theorem Channel.write_steady (chan : Channel) {data : Bytes} (some : data ≠ []) :
    ∃ answer chan' sent, chan.write data = (answer, chan') ∧ chan'.written = chan.written ++ sent ∧
      (sent = [] ∧ (∀ count, answer ≠ .ok (count + 1)) ∧ ¬Steady chan.writes ∨
        ∃ count, answer = .ok (count + 1) ∧ sent = data.take (count + 1) ∧ count + 1 ≤ data.length ∧
          (Steady chan.writes → Steady chan'.writes)) := by
  obtain ⟨size, long⟩ : ∃ size, data.length = size + 1 :=
    ⟨data.length - 1, by have := List.length_pos_iff.mpr some; omega⟩
  unfold write
  cases answers : chan.writes with
  | nil =>
      refine ⟨_, _, data, rfl, rfl, .inr ⟨size, by rw [long], ?_, by omega, fun _ => ?_⟩⟩
      · rw [← long, List.take_length]
      · simp [Steady]
  | cons answer rest =>
      have first : Steady (answer :: rest) → ∃ count, answer = .ok (count + 1) := fun steady => steady _ List.mem_cons_self
      cases answer with
      | ok count =>
          cases count with
          | zero =>
              refine ⟨_, _, [], rfl, by simp, .inl ⟨rfl, by simp, fun steady => ?_⟩⟩
              obtain ⟨count, wrong⟩ := first steady
              cases wrong
          | succ count =>
              have least : min (count + 1) data.length = min count size + 1 := by omega
              refine ⟨_, _, _, rfl, rfl, .inr ⟨min count size, by rw [least], ?_, by omega, ?_⟩⟩
              · rw [← least]
                apply List.take_eq_take_min
              · exact fun steady answer member => steady answer (List.mem_cons_of_mem _ member)
      | EAGAIN => exact ⟨_, _, [], rfl, by simp, .inl ⟨rfl, by simp, fun steady => by cases (first steady).choose_spec⟩⟩
      | EINTR => exact ⟨_, _, [], rfl, by simp, .inl ⟨rfl, by simp, fun steady => by cases (first steady).choose_spec⟩⟩
      | error => exact ⟨_, _, [], rfl, by simp, .inl ⟨rfl, by simp, fun steady => by cases (first steady).choose_spec⟩⟩

theorem writeFrom_failed {fuel : Nat} {chan chan1 : Channel} {buffer : Bytes} {answer : Answer} (more : buffer ≠ [])
    (wrote : chan.write buffer = (answer, chan1)) (failed : ∀ count, answer ≠ .ok (count + 1)) :
    Socket.writeFrom fuel chan buffer = (-1, chan1) := by
  obtain ⟨byte, buffer, rfl⟩ := List.exists_cons_of_ne_nil more
  unfold Socket.writeFrom
  simp only [wrote]
  split
  · rename_i called
    cases called
    exact absurd rfl (failed _)
  · rename_i called
    cases called
    rfl

theorem writeFrom_taken {fuel count : Nat} {chan chan1 : Channel} {buffer : Bytes} (more : buffer ≠ [])
    (wrote : chan.write buffer = (.ok (count + 1), chan1)) :
    Socket.writeFrom (fuel + 1) chan buffer = Socket.writeFrom fuel chan1 (buffer.drop (count + 1)) := by
  obtain ⟨byte, buffer, rfl⟩ := List.exists_cons_of_ne_nil more
  conv_lhs => unfold Socket.writeFrom
  simp only [wrote]

/-- What `writeAll` has written is the start of the buffer, and all of it for the result 0. -/
theorem writeFrom_spec {fuel : Nat} {chan : Channel} {buffer : Bytes} (enough : buffer.length ≤ fuel) :
    ∃ code chan' sent, Socket.writeFrom fuel chan buffer = (code, chan') ∧ chan'.written = chan.written ++ sent ∧
      sent <+: buffer ∧ (Steady chan.writes → Steady chan'.writes) ∧
      (code = 0 ∧ sent = buffer ∨ code = -1 ∧ ¬Steady chan.writes) := by
  induction fuel generalizing chan buffer with
  | zero =>
      have none : buffer = [] := List.length_eq_zero_iff.mp (by omega)
      subst none
      exact ⟨0, chan, [], by unfold Socket.writeFrom; rfl, by simp, List.prefix_refl _, id, .inl ⟨rfl, rfl⟩⟩
  | succ fuel ih =>
      by_cases none : buffer = []
      · subst none
        exact ⟨0, chan, [], by unfold Socket.writeFrom; rfl, by simp, List.prefix_refl _, id, .inl ⟨rfl, rfl⟩⟩
      · obtain ⟨answer, chan1, sent, wrote, written, failed | taken⟩ := chan.write_steady none
        · obtain ⟨rfl, failed, short⟩ := failed
          exact ⟨-1, chan1, [], writeFrom_failed none wrote failed, written, List.nil_prefix,
            fun all => absurd all short, .inr ⟨rfl, short⟩⟩
        · obtain ⟨count, rfl, rfl, inside, steady⟩ := taken
          obtain ⟨code, chan2, sent, rest, written2, start, steady2, outcome⟩ :=
            @ih chan1 (buffer.drop (count + 1)) (by rw [List.length_drop]; omega)
          refine ⟨code, chan2, buffer.take (count + 1) ++ sent, ?_, ?_, ?_, fun all => steady2 (steady all), ?_⟩
          · rw [writeFrom_taken none wrote, rest]
          · rw [written2, written, List.append_assoc]
          · obtain ⟨more, same⟩ := start
            exact ⟨more, by rw [List.append_assoc, same, List.take_append_drop]⟩
          · rcases outcome with ⟨done, all⟩ | ⟨failed, short⟩
            · exact .inl ⟨done, by rw [all, List.take_append_drop]⟩
            · exact .inr ⟨failed, fun all => short (steady all)⟩

theorem Steady.later {answers rest : List Answer} (steady : Steady answers) (later : rest <:+ answers) : Steady rest :=
  fun answer member => steady answer (later.mem member)

/-- One call of `read` takes the start of the input, or fails; steady answers fail at the end of the input only. -/
theorem Channel.read_steady {chan : Channel} {size : Nat} (room : 0 < size) :
    ∃ answer got chan', chan.read size = (answer, got, chan') ∧ chan.incoming = got ++ chan'.incoming ∧
      chan'.received = chan.received ++ got ∧ (Steady chan.reads → Steady chan'.reads) ∧
      (got = [] ∧ (∀ count, answer ≠ .ok (count + 1)) ∧ (Steady chan.reads → chan'.incoming = []) ∨
        ∃ count, answer = .ok (count + 1) ∧ got.length = count + 1 ∧ count + 1 ≤ size) := by
  rcases read_taken room with ⟨rest, more, interrupted⟩ | taken
  · refine ⟨_, _, _, interrupted, rfl, by simp, ?_, .inl ⟨rfl, by simp, ?_⟩⟩
    · exact fun steady => steady.later (more ▸ List.suffix_cons _ _)
    · intro steady
      obtain ⟨count, wrong⟩ := steady .EINTR (more ▸ List.mem_cons_self)
      cases wrong
  · generalize chan.read size = result at taken
    cases taken with
    | @data data incoming reads split some fits later =>
        have size := List.length_pos_iff.mpr some
        refine ⟨_, _, _, rfl, split, rfl, fun steady => steady.later later, .inr ⟨data.length - 1, ?_, ?_, ?_⟩⟩
        · rw [Nat.sub_add_cancel size]
        · rw [Nat.sub_add_cancel size]
        · rw [Nat.sub_add_cancel size]
          exact fits
    | eof empty closed later =>
        exact ⟨_, _, _, rfl, rfl, by simp, fun steady => steady.later later, .inl ⟨rfl, by simp, fun _ => empty⟩⟩
    | again cause later =>
        refine ⟨_, _, _, rfl, rfl, by simp, fun steady => steady.later later, .inl ⟨rfl, by simp, fun steady => ?_⟩⟩
        rcases cause with member | nothing
        · obtain ⟨count, wrong⟩ := steady _ member
          cases wrong
        · exact nothing.1
    | error cause later =>
        refine ⟨_, _, _, rfl, rfl, by simp, fun steady => steady.later later, .inl ⟨rfl, by simp, fun steady => ?_⟩⟩
        obtain ⟨count, wrong⟩ := steady _ cause
        cases wrong

theorem readFrom_done (fuel : Nat) (chan : Channel) (buffer : Bytes) :
    Socket.readFrom fuel chan buffer buffer.length = (some buffer, chan) := by
  unfold Socket.readFrom
  rw [if_neg (lt_irrefl _)]

theorem readFrom_failed {fuel : Nat} {chan chan1 : Channel} {buffer got : Bytes} {numberOfBytes : Nat} {answer : Answer}
    (more : buffer.length < numberOfBytes) (called : chan.read (numberOfBytes - buffer.length) = (answer, got, chan1))
    (failed : ∀ count, answer ≠ .ok (count + 1)) :
    Socket.readFrom fuel chan buffer numberOfBytes = (none, chan1) := by
  unfold Socket.readFrom
  rw [if_pos more, called]
  split
  · rename_i result
    cases result
    exact absurd rfl (failed _)
  · rename_i result
    cases result
    rfl

theorem readFrom_taken {fuel count : Nat} {chan chan1 : Channel} {buffer got : Bytes} {numberOfBytes : Nat}
    (more : buffer.length < numberOfBytes)
    (called : chan.read (numberOfBytes - buffer.length) = (.ok (count + 1), got, chan1)) :
    Socket.readFrom (fuel + 1) chan buffer numberOfBytes = Socket.readFrom fuel chan1 (buffer ++ got) numberOfBytes := by
  conv_lhs => unfold Socket.readFrom
  rw [if_pos more, called]

/-- What `readFull` has read is the start of the input, and as much of it as it was asked for unless it fails. -/
theorem readFrom_spec {fuel : Nat} {chan : Channel} {buffer : Bytes} {numberOfBytes : Nat}
    (inside : buffer.length ≤ numberOfBytes) (enough : numberOfBytes ≤ buffer.length + fuel) :
    ∃ result chan' got, Socket.readFrom fuel chan buffer numberOfBytes = (result, chan') ∧
      chan.incoming = got ++ chan'.incoming ∧ chan'.received = chan.received ++ got ∧
      (Steady chan.reads → Steady chan'.reads) ∧
      (result = some (buffer ++ got) ∧ (buffer ++ got).length = numberOfBytes ∨
        result = none ∧ (buffer ++ got).length < numberOfBytes ∧ (Steady chan.reads → chan'.incoming = [])) := by
  induction fuel generalizing chan buffer with
  | zero =>
      obtain rfl : buffer.length = numberOfBytes := by omega
      exact ⟨_, _, [], readFrom_done _ _ _, rfl, by simp, id, .inl ⟨by simp, by simp⟩⟩
  | succ fuel ih =>
      rcases inside.lt_or_eq with more | rfl
      · obtain ⟨answer, got, chan1, called, split, received, steady, failed | taken⟩ :=
          @Channel.read_steady chan (numberOfBytes - buffer.length) (by omega)
        · obtain ⟨rfl, failed, stuck⟩ := failed
          exact ⟨none, chan1, [], readFrom_failed more called failed, split, received, steady,
            .inr ⟨rfl, by simpa using more, stuck⟩⟩
        · obtain ⟨count, rfl, size, fits⟩ := taken
          obtain ⟨result, chan2, later, rest, split2, received2, steady2, outcome⟩ := @ih chan1 (buffer ++ got)
            (by rw [List.length_append]; omega) (by rw [List.length_append]; omega)
          refine ⟨result, chan2, got ++ later, ?_, ?_, ?_, fun start => steady2 (steady start), ?_⟩
          · rw [readFrom_taken more called, rest]
          · rw [split, split2, List.append_assoc]
          · rw [received2, received, List.append_assoc]
          · rw [← List.append_assoc]
            exact outcome.imp_right fun ⟨failed, less, stuck⟩ => ⟨failed, less, fun start => stuck (steady start)⟩
      · exact ⟨_, _, [], readFrom_done _ _ _, rfl, by simp, id, .inl ⟨by simp, by simp⟩⟩

theorem Channel.read_end {chan chan' : Channel} {size : Nat} {answer : Answer} {got : Bytes} (room : 0 < size)
    (steady : Steady chan.reads) (called : chan.read size = (answer, got, chan'))
    (failed : ∀ count, answer ≠ .ok (count + 1)) : chan'.lastRead = some (if chan.closed then .ok 0 else .EAGAIN) := by
  rcases read_taken room with ⟨rest, more, _⟩ | taken
  · obtain ⟨count, wrong⟩ := steady .EINTR (more ▸ List.mem_cons_self)
    cases wrong
  · rw [called] at taken
    cases taken with
    | @data data incoming reads split some fits later =>
        have size := List.length_pos_iff.mpr some
        exact absurd (by rw [Nat.sub_add_cancel size]) (failed (got.length - 1))
    | eof empty closed later => rw [closed, if_pos rfl]
    | again cause later =>
        rcases cause with member | ⟨_, opened⟩
        · obtain ⟨count, wrong⟩ := steady _ member
          cases wrong
        · rw [opened, if_neg Bool.false_ne_true]
    | error cause later =>
        obtain ⟨count, wrong⟩ := steady _ cause
        cases wrong

theorem Channel.read_kept (chan : Channel) (size : Nat) :
    (chan.read size).2.2.closed = chan.closed ∧ (chan.read size).2.2.written = chan.written := by
  have take (chan : Channel) (size : Nat) :
      (chan.take size).2.2.closed = chan.closed ∧ (chan.take size).2.2.written = chan.written := by
    unfold Channel.take
    split <;> exact ⟨rfl, rfl⟩
  unfold Channel.read
  split
  · exact take chan size
  · exact take _ _
  · exact ⟨rfl, rfl⟩

theorem readFrom_kept (fuel : Nat) (chan : Channel) (buffer : Bytes) (numberOfBytes : Nat) :
    (Socket.readFrom fuel chan buffer numberOfBytes).2.closed = chan.closed ∧
      (Socket.readFrom fuel chan buffer numberOfBytes).2.written = chan.written := by
  induction fuel generalizing chan buffer with
  | zero =>
      unfold Socket.readFrom
      split
      · exact chan.read_kept _
      · exact ⟨rfl, rfl⟩
  | succ fuel ih =>
      by_cases more : buffer.length < numberOfBytes
      · have kept := chan.read_kept (numberOfBytes - buffer.length)
        obtain ⟨answer, got, chan1, called, _, _, _, ⟨_, failed, _⟩ | ⟨count, rfl, _⟩⟩ :=
          @Channel.read_steady chan (numberOfBytes - buffer.length) (by omega)
        all_goals rw [called] at kept
        · rw [readFrom_failed more called failed]
          exact kept
        · rw [readFrom_taken more called]
          exact ⟨(ih _ _).1.trans kept.1, (ih _ _).2.trans kept.2⟩
      · unfold Socket.readFrom
        rw [if_neg more]
        exact ⟨rfl, rfl⟩

theorem readFrom_end {fuel : Nat} {chan chan' : Channel} {buffer : Bytes} {numberOfBytes : Nat}
    (enough : numberOfBytes ≤ buffer.length + fuel) (steady : Steady chan.reads)
    (failed : Socket.readFrom fuel chan buffer numberOfBytes = (none, chan')) :
    chan'.lastRead = some (if chan.closed then .ok 0 else .EAGAIN) := by
  induction fuel generalizing chan buffer with
  | zero =>
      unfold Socket.readFrom at failed
      rw [if_neg (by omega)] at failed
      cases failed
  | succ fuel ih =>
      by_cases more : buffer.length < numberOfBytes
      · have closed := (chan.read_kept (numberOfBytes - buffer.length)).1
        obtain ⟨answer, got, chan1, called, _, _, later, ⟨_, stopped, _⟩ | ⟨count, rfl, size, _⟩⟩ :=
          @Channel.read_steady chan (numberOfBytes - buffer.length) (by omega)
        · rw [readFrom_failed more called stopped] at failed
          cases failed
          exact Channel.read_end (by omega) steady called stopped
        · rw [readFrom_taken more called] at failed
          rw [called] at closed
          rw [← closed]
          exact ih (by rw [List.length_append]; omega) (later steady) failed
      · unfold Socket.readFrom at failed
        rw [if_neg more] at failed
        cases failed

theorem readFull_arrived {chan : Channel} {data rest : Bytes} (arrived : chan.incoming = data ++ rest)
    (steady : Steady chan.reads) :
    ∃ chan', Socket.readFull chan data.length = (some data, chan') ∧ chan'.incoming = rest ∧
      chan'.received = chan.received ++ data ∧ Steady chan'.reads := by
  obtain ⟨result, chan', got, done, split, received, later, outcome⟩ :=
    @readFrom_spec data.length chan [] data.length (Nat.zero_le _) (by simp)
  rw [arrived] at split
  simp only [List.nil_append] at outcome
  rcases outcome with ⟨rfl, size⟩ | ⟨rfl, short, stuck⟩
  · obtain ⟨rfl, same⟩ := List.append_inj split size.symm
    exact ⟨chan', done, same.symm, received, later steady⟩
  · have sizes := congrArg List.length split
    rw [stuck steady, List.length_append, List.append_nil] at sizes
    omega

end Coxx.Common
