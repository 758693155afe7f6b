import Coxx.Common.Replies
import Mathlib.Data.List.DropRight

/-! The checks of the numeric arguments, against numerals that take the whole string. -/

set_option autoImplicit false

namespace Coxx.Common

/-! ### Numerals -/

def isDigit (c : UInt8) : Bool := 48 ≤ c && c ≤ 57

def IsNumeral (s : Bytes) : Prop := (sign s).2 ≠ [] ∧ ∀ c ∈ (sign s).2, isDigit c = true

instance : DecidablePred IsNumeral := fun s =>
  inferInstanceAs (Decidable ((sign s).2 ≠ [] ∧ ∀ c ∈ (sign s).2, isDigit c = true))

def numeralValue (s : Bytes) : Int :=
  let value := ofDigits 10 ((sign s).2.map fun c => c.toNat - 48)
  if (sign s).1 then -value else value

def Fits64 (value : Int) : Prop := -2 ^ 63 ≤ value ∧ value < 2 ^ 63

instance (value : Int) : Decidable (Fits64 value) := inferInstanceAs (Decidable (_ ∧ _))

def intOf (s : Bytes) : Option Int :=
  if IsNumeral s ∧ Fits64 (numeralValue s) then some (numeralValue s) else none

/-- A string that strtod converts from its first byte to its last. -/
def IsScore (s : Bytes) : Prop :=
  s ≠ [] ∧ s.dropWhile isSpace = s ∧ 0 ∉ s ∧ (strtod s).2 = s.length ∧ (strtod s).1.isNaN = false

instance : DecidablePred IsScore := fun _ => inferInstanceAs (Decidable (_ ∧ _ ∧ _ ∧ _ ∧ _))

def scoreOf (s : Bytes) : Option Double := if IsScore s then some (strtod s).1 else none

theorem isDigit_iff (c : UInt8) : isDigit c = true ↔ 48 ≤ c.toNat ∧ c.toNat ≤ 57 := by
  simp only [isDigit, Bool.and_eq_true, decide_eq_true_eq, UInt8.le_iff_toNat_le]
  exact Iff.rfl

theorem isSpace_iff (c : UInt8) : isSpace c = true ↔ c.toNat = 32 ∨ (9 ≤ c.toNat ∧ c.toNat ≤ 13) := by
  simp only [isSpace, Bool.or_eq_true, Bool.and_eq_true, decide_eq_true_eq, UInt8.le_iff_toNat_le, ← UInt8.toNat_inj]
  exact Iff.rfl

theorem toNat_toLower (c : UInt8) :
    (toLower c).toNat = if 65 ≤ c.toNat ∧ c.toNat ≤ 90 then c.toNat + 32 else c.toNat := by
  have upper : (65 ≤ c && c ≤ 90) = true ↔ 65 ≤ c.toNat ∧ c.toNat ≤ 90 := by
    simp only [Bool.and_eq_true, decide_eq_true_eq, UInt8.le_iff_toNat_le]
    exact Iff.rfl
  unfold toLower
  by_cases letter : 65 ≤ c.toNat ∧ c.toNat ≤ 90
  · rw [if_pos (upper.mpr letter), if_pos letter, UInt8.toNat_add]
    show (c.toNat + 32) % 256 = _
    omega
  · rw [if_neg (fun wrong => letter (upper.mp wrong)), if_neg letter]

theorem digit_ten (c : UInt8) : digit 10 c = if isDigit c = true then some (c.toNat - 48) else none := by
  have lower := toNat_toLower c
  have decimal := isDigit_iff c
  unfold digit
  simp only
  generalize (toLower c).toNat = n at lower ⊢
  by_cases here : 48 ≤ c.toNat ∧ c.toNat ≤ 57
  · rw [if_neg (by omega)] at lower
    subst lower
    rw [if_pos (decimal.mpr here), if_pos here, if_pos (by omega)]
  · rw [if_neg (fun wrong => here (decimal.mp wrong))]
    have other : ¬ (48 ≤ n ∧ n ≤ 57) := by
      split at lower <;> omega
    rw [if_neg other]
    split <;> rw [if_neg (by omega)]

theorem digits_ten (text : Bytes) :
    digits 10 text = ((text.takeWhile isDigit).map fun c => c.toNat - 48, text.dropWhile isDigit) := by
  induction text with
  | nil => rfl
  | cons c rest ih =>
      rw [digits, digit_ten]
      by_cases decimal : isDigit c = true
      · simp [decimal, ih]
      · simp [decimal]

/-! ### What the C library accepts -/

section Library

variable {s : Bytes}

/-- The conversion reaches the end of a string when a numeral follows the white space. -/
theorem strtol_whole (filled : s ≠ []) : (strtol s).2 = s.length ↔ IsNumeral (s.dropWhile isSpace) := by
  have size := List.length_pos_iff.mpr filled
  unfold strtol IsNumeral
  generalize (s.dropWhile isSpace) = rest
  obtain ⟨minus, rest⟩ := sign rest
  simp only [digits_ten]
  cases run : rest.takeWhile isDigit with
  | nil =>
      simp only [List.map_nil]
      constructor
      · intro same; omega
      · rintro ⟨some, all⟩
        rw [List.takeWhile_eq_self_iff.mpr all] at run
        exact absurd run some
  | cons c cs =>
      simp only [List.map_cons]
      constructor
      · intro whole
        have ended : rest.dropWhile isDigit = [] := by
          apply List.eq_nil_of_length_eq_zero
          omega
        refine ⟨?_, List.dropWhile_eq_nil_iff.mp ended⟩
        rintro rfl
        simp at run
      · rintro ⟨_, all⟩
        rw [List.dropWhile_eq_nil_iff.mpr all, List.length_nil, Nat.sub_zero]

theorem strtol_value (numeral : IsNumeral (s.dropWhile isSpace)) :
    (strtol s).1 = max (-2 ^ 63) (min (2 ^ 63 - 1) (numeralValue (s.dropWhile isSpace))) := by
  unfold IsNumeral at numeral
  unfold strtol numeralValue
  generalize sign (s.dropWhile isSpace) = signed at numeral ⊢
  obtain ⟨minus, rest⟩ := signed
  obtain ⟨some, all⟩ := numeral
  simp only at some all ⊢
  rw [digits_ten, List.takeWhile_eq_self_iff.mpr all]
  cases rest with
  | nil => exact absurd rfl some
  | cons c cs => rfl

/-- So does the conversion to a floating number, with the number that follows the white space. -/
theorem strtod_blanks (filled : s ≠ []) :
    (strtod s).1 = (strtod (s.dropWhile isSpace)).1 ∧
    ((strtod s).2 = s.length ↔
      s.dropWhile isSpace ≠ [] ∧ (strtod (s.dropWhile isSpace)).2 = (s.dropWhile isSpace).length) := by
  have size := List.length_pos_iff.mpr filled
  unfold strtod
  rw [List.dropWhile_idempotent]
  generalize text : s.dropWhile isSpace = rest
  cases number : magnitude (sign rest).2 with
  | none =>
      simp only [number, true_and]
      constructor
      · intro whole; omega
      · rintro ⟨some, whole⟩
        exact absurd (List.eq_nil_of_length_eq_zero whole.symm) some
  | some found =>
      simp only [number, true_and]
      constructor
      · intro whole
        refine ⟨?_, by omega⟩
        rintro rfl
        have nothing : magnitude (sign []).2 = none := by decide
        rw [nothing] at number
        cases number
      · rintro ⟨some, whole⟩
        have := List.length_pos_iff.mpr some
        omega

theorem strtod_end_le (text : Bytes) : (strtod text).2 ≤ text.length := by
  unfold strtod
  simp only
  split
  · exact Nat.zero_le _
  · exact Nat.sub_le _ _

theorem strtol_end_le (text : Bytes) : (strtol text).2 ≤ text.length := by
  unfold strtol
  simp only
  split
  · exact Nat.zero_le _
  · exact Nat.sub_le _ _

theorem mem_dropWhile_space (nul : 0 ∈ s) : 0 ∈ s.dropWhile isSpace := by
  rw [← @List.takeWhile_append_dropWhile _ isSpace s] at nul
  rcases List.mem_append.mp nul with wrong | inside
  · exact absurd (List.mem_takeWhile_imp wrong) (by decide)
  · exact inside

theorem mem_sign {text : Bytes} (nul : 0 ∈ text) : 0 ∈ (sign text).2 := by
  unfold sign
  split <;> simp_all

theorem IsNumeral.clean {text : Bytes} (numeral : IsNumeral text) : 0 ∉ text := by
  intro nul
  exact absurd (numeral.2 0 (mem_sign nul)) (by decide)

theorem IsNumeral.dropWhile_eq {text : Bytes} (numeral : IsNumeral text) : text.dropWhile isSpace = text := by
  unfold IsNumeral sign at numeral
  split at numeral
  · rfl
  · rfl
  · cases text with
    | nil => rfl
    | cons c rest =>
        have decimal := (isDigit_iff c).mp (numeral.2 c (by simp))
        have visible : isSpace c = false := by
          rw [Bool.eq_false_iff, ne_eq, isSpace_iff]
          omega
        simp [visible]

theorem strToDouble_eq (filled : s ≠ []) : strToDouble s = scoreOf (s.dropWhile isSpace) := by
  obtain ⟨value, whole⟩ := strtod_blanks filled
  have again := List.dropWhile_idempotent isSpace s
  unfold strToDouble scoreOf
  simp only
  by_cases nul : 0 ∈ s
  · have short := length_cString_lt nul
    have ended := strtod_end_le (cString s)
    rw [if_neg (by omega), if_neg (fun score => score.2.2.1 (mem_dropWhile_space nul))]
  · rw [cString_eq nul, value]
    have clean : 0 ∉ s.dropWhile isSpace := fun inside => nul ((List.dropWhile_sublist _).subset inside)
    have same : ((strtod s).2 = s.length ∧ (strtod (s.dropWhile isSpace)).1.isNaN = false) ↔
        IsScore (s.dropWhile isSpace) := by
      rw [whole, IsScore, again]
      exact ⟨fun both => ⟨both.1.1, rfl, clean, both.1.2, both.2⟩, fun score => ⟨⟨score.1, score.2.2.2.1⟩, score.2.2.2.2⟩⟩
    rw [if_congr same rfl rfl]

theorem strToInt_eq (filled : s ≠ []) :
    strToInt s = if IsNumeral (s.dropWhile isSpace)
      then some (max (-2 ^ 63) (min (2 ^ 63 - 1) (numeralValue (s.dropWhile isSpace)))) else none := by
  unfold strToInt
  simp only
  by_cases nul : 0 ∈ s
  · have short := length_cString_lt nul
    have ended := strtol_end_le (cString s)
    rw [if_neg (by omega), if_neg (fun numeral => numeral.clean (mem_dropWhile_space nul))]
  · rw [cString_eq nul]
    by_cases numeral : IsNumeral (s.dropWhile isSpace)
    · rw [if_pos ((strtol_whole filled).mpr numeral), if_pos numeral, strtol_value numeral]
    · rw [if_neg (fun whole => numeral ((strtol_whole filled).mp whole)), if_neg numeral]

end Library

/-! ### Which strings are judged right -/

/-- The string is not empty, and not white space in front of a score. -/
def PlainScore (s : Bytes) : Prop := s ≠ [] ∧ (IsScore (s.dropWhile isSpace) → s.dropWhile isSpace = s)

/-- The string is not empty, not white space in front of a numeral, and no numeral outside the 64-bit range. -/
def PlainInt (s : Bytes) : Prop :=
  s ≠ [] ∧ (IsNumeral (s.dropWhile isSpace) → s.dropWhile isSpace = s ∧ Fits64 (numeralValue s))

theorem scoreOf_eq_none {s : Bytes} (blank : s.dropWhile isSpace ≠ s) : scoreOf s = none :=
  if_neg fun score => blank score.2.1

theorem strToDouble_plain {s : Bytes} (plain : PlainScore s) : strToDouble s = scoreOf s := by
  rw [strToDouble_eq plain.1]
  by_cases same : s.dropWhile isSpace = s
  · rw [same]
  · rw [scoreOf_eq_none same, scoreOf, if_neg fun score => same (plain.2 score)]

theorem strToDouble_accepts {s : Bytes} (odd : ¬ PlainScore s) : scoreOf s = none ∧ ∃ v, strToDouble s = some v := by
  by_cases filled : s = []
  · subst filled
    exact ⟨if_neg fun score => score.1 rfl, ⟨0⟩, by decide⟩
  · by_cases score : IsScore (s.dropWhile isSpace)
    · have blank : s.dropWhile isSpace ≠ s := fun same => odd ⟨filled, fun _ => same⟩
      exact ⟨scoreOf_eq_none blank, _, by rw [strToDouble_eq filled, scoreOf, if_pos score]⟩
    · exact absurd ⟨filled, fun wrong => absurd wrong score⟩ odd

theorem strToInt_plain {s : Bytes} (plain : PlainInt s) : strToInt s = intOf s := by
  rw [strToInt_eq plain.1]
  by_cases numeral : IsNumeral (s.dropWhile isSpace)
  · obtain ⟨same, fits⟩ := plain.2 numeral
    rw [same] at numeral ⊢
    obtain ⟨low, high⟩ := id fits
    rw [if_pos numeral, intOf, if_pos ⟨numeral, fits⟩, Int.min_eq_right (by omega), Int.max_eq_right (by omega)]
  · have other : ¬ IsNumeral s := fun wrong => numeral (wrong.dropWhile_eq.symm ▸ wrong)
    rw [if_neg numeral, intOf, if_neg fun both => other both.1]

theorem strToInt_accepts {s : Bytes} (odd : ¬ PlainInt s) : intOf s = none ∧ ∃ v, strToInt s = some v := by
  by_cases filled : s = []
  · subst filled
    exact ⟨if_neg fun both => both.1.1 rfl, 0, by decide⟩
  · by_cases numeral : IsNumeral (s.dropWhile isSpace)
    · refine ⟨if_neg ?_, _, by rw [strToInt_eq filled, if_pos numeral]⟩
      rintro ⟨whole, fits⟩
      exact odd ⟨filled, fun _ => ⟨whole.dropWhile_eq, fits⟩⟩
    · exact absurd ⟨filled, fun wrong => absurd wrong numeral⟩ odd

/-! ### The commands -/

/-- `zadd` behind its check, for any reading of the score. -/
def zaddWith (score : Option Double) (cm : CommandMap) (around : Surroundings) (key name output : Bytes) :
    Option (CommandMap × Bytes) :=
  match score with
  | none => some (cm, Out.err output Error.ARG.code (text "expect fp number"))
  | some score => do
    let (cm, node) ← Request.lookup cm key
    match node with
    | none =>
      let node := cm.fresh
      let cm ← Request.insert cm { key := key, type := .ZSET, val := [], set := some Zset.initZSet }
      Request.addMember cm around node score name output
    | some node =>
      if (cm.entries node).type ≠ .ZSET then
        some (cm, Out.err output Error.TYPE.code (text "expect zset"))
      else Request.addMember cm around node score name output

/-- `zquery` behind its checks. -/
def zqueryWith (score : Option Double) (off limit : Option Int) (cm : CommandMap) (around : Surroundings)
    (key name output : Bytes) : Option (CommandMap × Bytes) :=
  match score with
  | none => some (cm, Out.err output Error.ARG.code (text "expect fp number"))
  | some score =>
    match off, limit with
    | some off, some limit => do
      let (cm, output, entry) ← Request.expectZSet cm key output
      match entry with
      | none => if output[0]? = some Serialize.NIL.tag then some (cm, Out.arr [] 0) else some (cm, output)
      | some entry =>
        if limit ≤ 0 then some (cm, Out.arr output 0)
        else
          let set ← (cm.entries entry).set
          (Request.queryMembers set around score name off limit output).map fun output => (cm, output)
    | _, _ => some (cm, Out.err output Error.ARG.code (text "expect int"))

theorem zadd_checks (cm : CommandMap) (around : Surroundings) (key score name output : Bytes) :
    Request.zadd cm around key score name output = zaddWith (strToDouble score) cm around key name output := rfl

theorem zquery_checks (cm : CommandMap) (around : Surroundings) (key score name off limit output : Bytes) :
    Request.zquery cm around key score name off limit output =
      zqueryWith (strToDouble score) (strToInt off) (strToInt limit) cm around key name output := rfl

/-- As a score the string is taken for what it stands for, or refused. -/
structure StrictScore (s : Bytes) : Prop where
  zadd : ∀ cm around key name output,
    Request.zadd cm around key s name output = zaddWith (scoreOf s) cm around key name output
  zquery : ∀ cm around key name off limit output,
    Request.zquery cm around key s name off limit output =
      zqueryWith (scoreOf s) (strToInt off) (strToInt limit) cm around key name output

/-- As an offset and as a limit the string is taken for what it stands for, or refused. -/
structure StrictInt (s : Bytes) : Prop where
  off : ∀ cm around key score name limit output,
    Request.zquery cm around key score name s limit output =
      zqueryWith (strToDouble score) (intOf s) (strToInt limit) cm around key name output
  limit : ∀ cm around key score name off output,
    Request.zquery cm around key score name off s output =
      zqueryWith (strToDouble score) (strToInt off) (intOf s) cm around key name output

theorem zqueryWith_empty (score : Double) (off limit : Int) (around : Surroundings) (key name : Bytes) :
    (zqueryWith (some score) (some off) (some limit) initCommandMap around key name []).map Prod.snd =
      some (Out.arr [] 0) := rfl

theorem strict_plain_score {s : Bytes} (plain : PlainScore s) : StrictScore s where
  zadd cm around key name output := by rw [zadd_checks, strToDouble_plain plain]
  zquery cm around key name off limit output := by rw [zquery_checks, strToDouble_plain plain]

theorem strict_plain_int {s : Bytes} (plain : PlainInt s) : StrictInt s where
  off cm around key score name limit output := by rw [zquery_checks, strToInt_plain plain]
  limit cm around key score name off output := by rw [zquery_checks, strToInt_plain plain]

theorem not_strict_score {s : Bytes} (odd : ¬ PlainScore s) : ¬ StrictScore s := by
  intro strict
  obtain ⟨none, v, accepted⟩ := strToDouble_accepts odd
  have query := strict.zquery initCommandMap ⟨.guarded, .guarded⟩ [] [] (text "0") (text "1") []
  rw [zquery_checks, accepted, none] at query
  have reply := congrArg (Option.map Prod.snd) query
  rw [show strToInt (text "0") = some 0 by decide, show strToInt (text "1") = some 1 by decide, zqueryWith_empty] at reply
  exact absurd reply (by decide)

theorem not_strict_int {s : Bytes} (odd : ¬ PlainInt s) : ¬ StrictInt s := by
  intro strict
  obtain ⟨none, v, accepted⟩ := strToInt_accepts odd
  have query := strict.off initCommandMap ⟨.guarded, .guarded⟩ [] (text "0") [] (text "1") []
  rw [zquery_checks, accepted, none] at query
  have reply := congrArg (Option.map Prod.snd) query
  rw [show strToDouble (text "0") = some ⟨0⟩ by decide, show strToInt (text "1") = some 1 by decide, zqueryWith_empty] at reply
  exact absurd reply (by decide)

/-- The checks are strict for exactly the plain strings. -/
theorem strict_iff (s : Bytes) : (StrictScore s ↔ PlainScore s) ∧ (StrictInt s ↔ PlainInt s) := by
  refine ⟨⟨?_, strict_plain_score⟩, ⟨?_, strict_plain_int⟩⟩
  · intro strict
    by_contra odd
    exact not_strict_score odd strict
  · intro strict
    by_contra odd
    exact not_strict_int odd strict

/-- The empty string is taken for a score of zero and an offset of zero. -/
theorem empty_not_strict : ¬ ∀ s : Bytes, StrictScore s ∧ StrictInt s := by
  intro claim
  exact not_strict_score (fun plain => plain.1 rfl) (claim []).1

/-- So are a blank in front of a number, and a number past the 64-bit range. -/
example : strToInt (text " 7") = some 7 ∧ strToInt (text "9223372036854775808") = some (2 ^ 63 - 1) := by decide

end Coxx.Common
