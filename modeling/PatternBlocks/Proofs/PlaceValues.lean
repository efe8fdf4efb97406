import Mathlib.Data.Nat.Digits.Defs
import PatternBlocks.Proofs.Words

/-!
Numbers are read as what the place values of their digits add up to, whatever their length. To give
a number up at the first digit that takes it past a bound is to compare the whole of it with the
bound.
-/
namespace PatternBlocks

/-! ### Numbers -/

def isHexDigit (ch : Char) : Bool :=
  ch.isDigit || decide ('a' ≤ ch ∧ ch ≤ 'f') || decide ('A' ≤ ch ∧ ch ≤ 'F')

theorem isHexDigit_iff {ch : Char} :
    isHexDigit ch ↔ ('0' ≤ ch ∧ ch ≤ '9') ∨ ('a' ≤ ch ∧ ch ≤ 'f') ∨ ('A' ≤ ch ∧ ch ≤ 'F') := by
  simp only [isHexDigit, Bool.or_eq_true, decide_eq_true_eq, isDigit_iff, or_assoc]

theorem digitValue_lt_ten_iff {ch : Char} : digitValue ch < 10 ↔ ch.isDigit := by
  by_cases hdigit : ch.isDigit
  · obtain ⟨heq, hlt⟩ := digit?_eq_some_iff.mp (digit?_ten_of_isDigit hdigit)
    exact iff_of_true (heq ▸ hlt) hdigit
  · refine iff_of_false (fun hlt => ?_) hdigit
    have hnone := digit?_ten_of_not_isDigit hdigit
    rw [digit?, if_pos hlt] at hnone
    cases hnone

theorem digitValue_lt_sixteen_iff {ch : Char} : digitValue ch < 16 ↔ isHexDigit ch := by
  have hle {a b : Char} : a ≤ b ↔ a.toNat ≤ b.toNat := Iff.rfl
  rw [isHexDigit_iff]
  simp only [digitValue, hle, Char.reduceToNat]
  split
  · omega
  split
  · omega
  split
  · omega
  · omega

/-- The number that digits stand for, the last one in the lowest place. -/
def numberOf (base : Nat) (w : List Char) : Nat := Nat.ofDigits base (w.reverse.map digitValue)

section

variable {base : Nat} {w : List Char}

theorem numberOf_cons {ch : Char} :
    numberOf base (ch :: w) = digitValue ch * base ^ w.length + numberOf base w := by
  rw [numberOf, List.map_reverse, List.map_cons, Nat.ofDigits_reverse_cons, List.length_map,
    ← List.map_reverse, Nat.add_comm, Nat.mul_comm]
  rfl

/-- Digits move the number before them up by their places and add their own number. -/
theorem digitsValue_eq (base value : Nat) (w : List Char) :
    digitsValue base value w = value * base ^ w.length + numberOf base w := by
  induction w generalizing value with
  | nil =>
    show value = value * 1 + 0
    omega
  | cons ch w ih =>
    rw [digitsValue_cons, ih, numberOf_cons, List.length_cons, Nat.add_mul, Nat.mul_assoc,
      ← Nat.pow_succ', Nat.add_assoc]

theorem digitsValue_zero (base : Nat) (w : List Char) : digitsValue base 0 w = numberOf base w := by
  rw [digitsValue_eq, Nat.zero_mul, Nat.zero_add]

theorem le_digitsValue (hbase : 0 < base) (value : Nat) (w : List Char) :
    value ≤ digitsValue base value w := by
  calc value ≤ value * base ^ w.length := Nat.le_mul_of_pos_right value (Nat.pow_pos hbase)
    _ ≤ value * base ^ w.length + numberOf base w := Nat.le_add_right _ _
    _ = digitsValue base value w := (digitsValue_eq base value w).symm

end

namespace Cursor

/-! ### Runs of digits -/

theorem digit?_cons (base : Nat) (ch : Char) (rest : List Char) (position : Nat) :
    digit? base ⟨ch :: rest, position⟩ =
      if digitValue ch < base then some (digitValue ch, ⟨rest, position + ch.utf8Size⟩)
      else none := by
  simp only [digit?, next?, PatternBlocks.digit?]
  split <;> rfl

/-- The cursor behind so many characters of one byte each. -/
def past (count : Nat) (c : Cursor) : Cursor := ⟨c.rest.drop count, c.position + count⟩

theorem past_succ (count : Nat) (ch : Char) (rest : List Char) (position : Nat) :
    past (count + 1) ⟨ch :: rest, position⟩ = past count ⟨rest, position + 1⟩ := by
  simp only [past, List.drop_succ_cons, Nat.add_assoc, Nat.add_comm 1 count]

section

variable {base : Nat} {p : Char → Bool} (hp : ∀ {ch}, digitValue ch < base ↔ p ch)

include hp

theorem isDigits_takeWhile (cs : List Char) : IsDigits base (cs.takeWhile p) :=
  fun ch hch => hp.mpr (List.all_eq_true.mp List.all_takeWhile ch hch)

theorem isSome_digit?_iff (c : Cursor) :
    (c.digit? base).isSome ↔ c.rest.takeWhile p ≠ [] := by
  obtain ⟨rest, position⟩ := c
  cases rest with
  | nil => simp [digit?, next?]
  | cons ch rest =>
    rw [digit?_cons]
    by_cases hch : p ch
    · simp [hp.mpr hch, hch]
    · simp [mt hp.mp hch, hch]

theorem past_takeWhile (hbase : base ≤ 36) (c : Cursor) :
    c.past (c.rest.takeWhile p).length =
      ⟨c.rest.dropWhile p, c.position + utf8Length (c.rest.takeWhile p)⟩ := by
  have hdrop : c.rest.drop (c.rest.takeWhile p).length = c.rest.dropWhile p := by
    calc c.rest.drop (c.rest.takeWhile p).length
        = (c.rest.takeWhile p ++ c.rest.dropWhile p).drop (c.rest.takeWhile p).length := by
          rw [List.takeWhile_append_dropWhile]
      _ = c.rest.dropWhile p := List.drop_left
  rw [(isDigits_takeWhile hp c.rest).utf8Length_eq hbase, past, hdrop]

end

/-! ### Readers -/

/-- All decimal digits that there are make up the number. -/
theorem decimal?_eq (c : Cursor) :
    c.decimal? = if c.rest.takeWhile Char.isDigit = [] then none else
      some (min (numberOf 10 (c.rest.takeWhile Char.isDigit)) maxDecimal,
        c.past (c.rest.takeWhile Char.isDigit).length) := by
  have hdigits : ∀ ch ∈ c.rest.takeWhile Char.isDigit, ch.isDigit :=
    List.all_eq_true.mp List.all_takeWhile
  have hend := beginsWithout_dropWhile Char.isDigit c.rest
  have hrun := decimalFrom_append hdigits hend 0 c.position
  rw [List.takeWhile_append_dropWhile, Nat.zero_min, ← foldl_digitValue hdigits,
    ← past_takeWhile digitValue_lt_ten_iff (by decide)] at hrun
  unfold decimal?
  split
  next hfirst =>
    have hne := (isSome_digit?_iff digitValue_lt_ten_iff c).mp hfirst
    rw [if_neg hne, hrun, ← digitsValue_zero]
    rfl
  next hfirst =>
    have hnil := of_not_not (mt (isSome_digit?_iff digitValue_lt_ten_iff c).mpr hfirst)
    rw [if_pos hnil]

/-- A number that is given up at one of its digits is larger than the bound as a whole. -/
theorem hexUpToFrom_append_iff {w rest : List Char} (hw : IsDigits 16 w)
    (hrest : BeginsWithout isHexDigit rest) {limit value : Nat} (hvalue : value ≤ limit)
    (position : Nat) {v : Nat} {d : Cursor} :
    hexUpToFrom limit value (w ++ rest) position = (some v, d) ↔
      digitsValue 16 value w ≤ limit ∧ v = digitsValue 16 value w ∧
        d = ⟨rest, position + utf8Length w⟩ := by
  induction w generalizing value position with
  | nil =>
    have hend : hexUpToFrom limit value rest position = (some value, ⟨rest, position⟩) := by
      cases rest with
      | nil => rfl
      | cons ch rest =>
        have hch := mt digitValue_lt_sixteen_iff.mp (beginsWithout_cons.mp hrest)
        simp only [hexUpToFrom, PatternBlocks.digit?, if_neg hch]
    rw [List.nil_append, hend]
    constructor
    · rintro ⟨⟩
      exact ⟨hvalue, rfl, rfl⟩
    · rintro ⟨-, rfl, rfl⟩
      rfl
  | cons ch w ih =>
    obtain ⟨hch, hw⟩ := List.forall_mem_cons.mp hw
    rw [List.cons_append, digitsValue_cons, utf8Length_cons, ← Nat.add_assoc]
    simp only [hexUpToFrom, PatternBlocks.digit?, if_pos hch]
    split
    next hle => exact ih hw hle _
    next hgt =>
      -- The digits behind `ch` cannot bring the number back below the bound.
      have hlarger : value * 16 + digitValue ch ≤
          digitsValue 16 (value * 16 + digitValue ch) w := le_digitsValue (by decide) _ w
      constructor
      · intro h
        cases h
      · rintro ⟨hle, -⟩
        exact absurd (Nat.le_trans hlarger hle) hgt

theorem hexUpTo_eq_some_iff {limit v : Nat} {c d : Cursor} :
    c.hexUpTo limit = (some v, d) ↔
      c.rest.takeWhile isHexDigit ≠ [] ∧ numberOf 16 (c.rest.takeWhile isHexDigit) ≤ limit ∧
        v = numberOf 16 (c.rest.takeWhile isHexDigit) ∧
        d = c.past (c.rest.takeWhile isHexDigit).length := by
  have hdigits := isDigits_takeWhile digitValue_lt_sixteen_iff c.rest
  have hend := beginsWithout_dropWhile isHexDigit c.rest
  have hrun := hexUpToFrom_append_iff hdigits hend (Nat.zero_le limit) c.position (v := v) (d := d)
  rw [List.takeWhile_append_dropWhile, digitsValue_zero,
    ← past_takeWhile digitValue_lt_sixteen_iff (by decide)] at hrun
  unfold hexUpTo
  split
  next hfirst =>
    have hne := (isSome_digit?_iff digitValue_lt_sixteen_iff c).mp hfirst
    rw [hrun, and_iff_right hne]
  next hfirst =>
    have hnil := of_not_not (mt (isSome_digit?_iff digitValue_lt_sixteen_iff c).mpr hfirst)
    exact iff_of_false nofun fun h => h.1 hnil

theorem hexDigitsFrom?_eq_some_iff {count value v : Nat} {c d : Cursor} :
    hexDigitsFrom? count value c = some (v, d) ↔
      count ≤ c.rest.length ∧ (∀ ch ∈ c.rest.take count, isHexDigit ch) ∧
        v = digitsValue 16 value (c.rest.take count) ∧ d = c.past count := by
  induction count generalizing value c with
  | zero =>
    constructor
    · rintro ⟨⟩
      exact ⟨Nat.zero_le _, List.forall_mem_nil _, rfl, rfl⟩
    · rintro ⟨-, -, rfl, rfl⟩
      rfl
  | succ count ih =>
    obtain ⟨rest, position⟩ := c
    cases rest with
    | nil =>
      constructor
      · intro h
        cases h
      · intro h
        exact absurd h.1 (Nat.not_succ_le_zero count)
    | cons ch rest =>
      by_cases hch : digitValue ch < 16
      · have hsize : ch.utf8Size = 1 := utf8Size_of_digitValue_lt (Nat.lt_trans hch (by decide))
        simp only [hexDigitsFrom?, digit?_cons, if_pos hch, hsize]
        rw [ih, past_succ, List.take_succ_cons, digitsValue_cons, List.forall_mem_cons,
          and_iff_right (digitValue_lt_sixteen_iff.mp hch), List.length_cons,
          Nat.add_le_add_iff_right]
      · simp only [hexDigitsFrom?, digit?_cons, if_neg hch]
        constructor
        · intro h
          cases h
        · rintro ⟨-, hall, -⟩
          exact absurd (digitValue_lt_sixteen_iff.mpr (hall ch List.mem_cons_self)) hch

/-- Numbers are read exactly wherever the cursor stands, and words have room to read them in. -/
theorem digits_read_exactly (c : Cursor) :
    (c.decimal? = if c.rest.takeWhile Char.isDigit = [] then none else
      some (min (numberOf 10 (c.rest.takeWhile Char.isDigit)) (2 ^ 64 - 1),
        c.past (c.rest.takeWhile Char.isDigit).length)) ∧
    (∀ (limit : UInt32) v d, c.hexUpTo limit.toNat = (some v, d) ↔
      c.rest.takeWhile isHexDigit ≠ [] ∧
        numberOf 16 (c.rest.takeWhile isHexDigit) ≤ limit.toNat ∧
        v = numberOf 16 (c.rest.takeWhile isHexDigit) ∧
        d = c.past (c.rest.takeWhile isHexDigit).length) ∧
    (∀ count ≤ 8, ∀ v d, c.hexDigits? count = some (v, d) ↔
      count ≤ c.rest.length ∧ (∀ ch ∈ c.rest.take count, isHexDigit ch) ∧
        v = numberOf 16 (c.rest.take count) ∧ d = c.past count) ∧
    Word.ReadsAlike c := by
  refine ⟨decimal?_eq c, fun limit v d => hexUpTo_eq_some_iff, ?_, Word.readsAlike c⟩
  intro count _ v d
  rw [← digitsValue_zero]
  exact hexDigitsFrom?_eq_some_iff

/-- Long numbers behind a character of two bytes: one past all words, one at its bound with zeros in
front, one that is given up before its last digit, and the largest one of eight digits. -/
theorem digits_read_exactly_long :
    decimal? ⟨"00099999999999999999999999,".toList, 2⟩ = some (2 ^ 64 - 1, ⟨[','], 28⟩) ∧
      hexUpTo 0x10ffff ⟨"0000000000010fFfF;".toList, 2⟩ = (some 0x10ffff, ⟨[';'], 19⟩) ∧
      (∀ v d, hexUpTo 0x10ffff ⟨"01100000;".toList, 2⟩ ≠ (some v, d)) ∧
      hexDigits? 8 ⟨"fFFFffff0".toList, 2⟩ = some (2 ^ 32 - 1, ⟨['0'], 10⟩) ∧
      (Word.hexDigits 8 ⟨"fFFFffff0".toList, 2⟩).Agrees (some (2 ^ 32 - 1, ⟨['0'], 10⟩)) := by
  obtain ⟨-, -, hexact, halike⟩ := digits_read_exactly ⟨"fFFFffff0".toList, 2⟩
  have hread : hexDigits? 8 ⟨"fFFFffff0".toList, 2⟩ = some (2 ^ 32 - 1, ⟨['0'], 10⟩) := by
    refine (hexact 8 (by decide) _ _).mpr ⟨by decide, ?_, by decide +kernel, rfl⟩
    exact List.all_eq_true.mp (by decide +kernel)
  refine ⟨?_, ?_, ?_, hread, hread ▸ halike.hexDigits 8 (by decide)⟩
  · rw [(digits_read_exactly _).1]
    decide +kernel
  · exact ((digits_read_exactly _).2.1 0x10ffff _ _).mpr (by decide +kernel)
  · intro v d h
    obtain ⟨-, hle, -⟩ := ((digits_read_exactly _).2.1 0x10ffff v d).mp h
    exact absurd hle (by decide +kernel)

end Cursor

end PatternBlocks
