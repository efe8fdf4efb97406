import Mathlib.Algebra.Group.Nat.Defs
import PatternBlocks.Proofs.Numerals

/-!
What the readers of numbers take and what they make of it. Each of them takes digits of its base,
which are one byte long, and answers with the number that these digits spell.
-/
namespace PatternBlocks

/-! ### Digits -/

theorem digit?_eq_some_iff {base n : Nat} {ch : Char} :
    digit? base ch = some n ↔ digitValue ch = n ∧ n < base := by
  unfold digit?
  split
  next hlt =>
    rw [Option.some.injEq]
    constructor
    · rintro rfl
      exact ⟨rfl, hlt⟩
    · exact And.left
  next hge =>
    constructor
    · nofun
    · rintro ⟨rfl, hlt⟩
      exact absurd hlt hge

/-- Digits are ASCII characters. -/
theorem utf8Size_of_digitValue_lt {ch : Char} (h : digitValue ch < 36) : ch.utf8Size = 1 := by
  have hascii {last : Char} (hlast : last.val ≤ 127) (hle : ch ≤ last) : ch.utf8Size = 1 :=
    Char.utf8Size_eq_one_iff.mpr (UInt32.le_trans hle hlast)
  unfold digitValue at h
  split at h
  next hdigit => exact hascii (by decide) hdigit.2
  split at h
  next hlower => exact hascii (by decide) hlower.2
  split at h
  next hupper => exact hascii (by decide) hupper.2
  next => omega

def IsDigits (base : Nat) (w : List Char) : Prop := ∀ ch ∈ w, digitValue ch < base

/-- The number that digits spell behind the digits of another one. -/
def digitsValue (base value : Nat) (w : List Char) : Nat :=
  w.foldl (fun v ch => v * base + digitValue ch) value

section

variable {base value : Nat} {ch : Char} {w : List Char}

theorem digitsValue_cons :
    digitsValue base value (ch :: w) = digitsValue base (value * base + digitValue ch) w :=
  rfl

theorem isDigits_nil (base : Nat) : IsDigits base [] := List.forall_mem_nil _

theorem IsDigits.cons (hch : digitValue ch < base) (hw : IsDigits base w) :
    IsDigits base (ch :: w) :=
  List.forall_mem_cons.mpr ⟨hch, hw⟩

theorem IsDigits.utf8Length_eq (hbase : base ≤ 36) (h : IsDigits base w) :
    utf8Length w = w.length := by
  induction w with
  | nil => rfl
  | cons ch w ih =>
    obtain ⟨hch, hw⟩ := List.forall_mem_cons.mp h
    have hsize : ch.utf8Size = 1 := utf8Size_of_digitValue_lt (Nat.lt_of_lt_of_le hch hbase)
    rw [utf8Length_cons, List.length_cons, hsize, ih hw, Nat.add_comm]

/-- So many digits spell no larger number than that many largest digits. -/
theorem IsDigits.value_lt (h : IsDigits base w) (value : Nat) :
    digitsValue base value w < (value + 1) * base ^ w.length := by
  induction w generalizing value with
  | nil =>
    show value < (value + 1) * 1
    omega
  | cons ch w ih =>
    obtain ⟨hch, hw⟩ := List.forall_mem_cons.mp h
    have hstep : value * base + digitValue ch + 1 ≤ (value + 1) * base := by
      rw [Nat.add_mul]
      omega
    calc digitsValue base value (ch :: w)
        < (value * base + digitValue ch + 1) * base ^ w.length := ih hw _
      _ ≤ (value + 1) * base * base ^ w.length := Nat.mul_le_mul_right _ hstep
      _ = (value + 1) * base ^ (ch :: w).length := by
        rw [List.length_cons, Nat.mul_assoc, pow_succ']

end

namespace Cursor

/-- Between the cursors lie digits, and they spell a number behind those of another one. -/
structure PassesDigits (base value : Nat) (c : Cursor) (w : List Char) (n : Nat) (d : Cursor) :
    Prop where
  passes : c.Passes w d
  digits : IsDigits base w
  value_eq : digitsValue base value w = n

section

variable {base value n : Nat} {w : List Char} {c d e : Cursor}

theorem PassesDigits.refl (base value : Nat) (c : Cursor) : PassesDigits base value c [] value c :=
  ⟨.refl c, isDigits_nil base, rfl⟩

theorem PassesDigits.cons {ch : Char} (hc : c.Passes [ch] d) (hch : digitValue ch < base)
    (h : PassesDigits base (value * base + digitValue ch) d w n e) :
    PassesDigits base value c (ch :: w) n e :=
  ⟨hc.trans h.passes, h.digits.cons hch, h.value_eq⟩

theorem digitValue_of_digit? (h : c.digit? base = some (n, d)) :
    ∃ ch, c.Passes [ch] d ∧ digitValue ch = n ∧ n < base := by
  obtain ⟨ch, hch, hpasses⟩ := passes_of_digit? h
  exact ⟨ch, hpasses, digit?_eq_some_iff.mp hch⟩

theorem Advances.ne_nil (h : c.Advances d) (hw : c.Passes w d) : w ≠ [] := by
  rintro rfl
  have hlt := h.position_lt
  have heq : d.position = c.position + 0 := hw.2
  omega

end

/-! ### Readers -/

/-- A decimal number is read as what its digits spell, or as the largest value. -/
theorem passesDigits_decimalFrom (value : Nat) (rest : List Char) (position : Nat) :
    ∃ w n, PassesDigits 10 value ⟨rest, position⟩ w n
        (decimalFrom (min value maxDecimal) rest position).2 ∧
      (decimalFrom (min value maxDecimal) rest position).1 = min n maxDecimal := by
  induction rest generalizing value position with
  | nil => exact ⟨[], value, .refl .., rfl⟩
  | cons ch rest ih =>
    cases hd : PatternBlocks.digit? 10 ch with
    | none =>
      simp only [decimalFrom, hd]
      exact ⟨[], value, .refl .., rfl⟩
    | some digit =>
      obtain ⟨rfl, hlt⟩ := digit?_eq_some_iff.mp hd
      simp only [decimalFrom, hd, min_step]
      obtain ⟨w, n, hw, hn⟩ := ih (value * 10 + digitValue ch) (position + ch.utf8Size)
      exact ⟨ch :: w, n, hw.cons (passes_of_next? (next?_cons ..)) hlt, hn⟩

theorem passesDigits_of_decimal? {c d : Cursor} {n : Nat} (h : c.decimal? = some (n, d)) :
    ∃ w v, w ≠ [] ∧ PassesDigits 10 0 c w v d ∧ n = min v maxDecimal := by
  have hadvances := advances_of_decimal? h
  unfold decimal? at h
  split at h
  next =>
    obtain ⟨w, v, hw, hv⟩ := passesDigits_decimalFrom 0 c.rest c.position
    rw [Nat.zero_min, Option.some.inj h] at hw hv
    exact ⟨w, v, hadvances.ne_nil hw.passes, hw, hv⟩
  next => cases h

theorem passesDigits_of_hexDigitsFrom? {count value n : Nat} {c d : Cursor}
    (h : hexDigitsFrom? count value c = some (n, d)) :
    ∃ w, w.length = count ∧ PassesDigits 16 value c w n d := by
  induction count generalizing value c with
  | zero =>
    cases h
    exact ⟨[], rfl, .refl ..⟩
  | succ count ih =>
    unfold hexDigitsFrom? at h
    split at h
    next => cases h
    next digit e he =>
      obtain ⟨ch, hpasses, rfl, hlt⟩ := digitValue_of_digit? he
      obtain ⟨w, hlength, hw⟩ := ih h
      exact ⟨ch :: w, congrArg (· + 1) hlength, hw.cons hpasses hlt⟩

/-- The digits that were taken are worth at most the bound, also if the number is given up. -/
theorem passesDigits_hexUpToFrom {limit value : Nat} (hvalue : value ≤ limit) (rest : List Char)
    (position : Nat) :
    ∃ w n, PassesDigits 16 value ⟨rest, position⟩ w n
        (hexUpToFrom limit value rest position).2 ∧ n ≤ limit ∧
      ∀ m ∈ (hexUpToFrom limit value rest position).1, m = n := by
  fun_induction hexUpToFrom limit value rest position with
  | case1 => exact ⟨[], _, .refl .., hvalue, fun _ hm => (Option.some.inj hm).symm⟩
  | case2 => exact ⟨[], _, .refl .., hvalue, fun _ hm => (Option.some.inj hm).symm⟩
  | case3 _ _ _ _ _ hd hle ih =>
    obtain ⟨rfl, hlt⟩ := digit?_eq_some_iff.mp hd
    obtain ⟨w, n, hw, hn, hm⟩ := ih hle
    exact ⟨_ :: w, n, hw.cons (passes_of_next? (next?_cons ..)) hlt, hn, hm⟩
  | case4 => exact ⟨[], _, .refl .., hvalue, nofun⟩

theorem passesDigits_hexUpTo (limit : Nat) (c : Cursor) :
    ∃ w n, PassesDigits 16 0 c w n (c.hexUpTo limit).2 ∧ n ≤ limit ∧
      ∀ m ∈ (c.hexUpTo limit).1, m = n := by
  unfold hexUpTo
  split
  next => exact passesDigits_hexUpToFrom (Nat.zero_le limit) c.rest c.position
  next => exact ⟨[], 0, .refl .., Nat.zero_le limit, nofun⟩

/-- A number within the bound has a digit. -/
theorem advances_of_hexUpTo {limit n : Nat} {c d : Cursor} (h : c.hexUpTo limit = (some n, d)) :
    c.Advances d := by
  unfold hexUpTo at h
  split at h
  next hs =>
    obtain ⟨⟨first, e⟩, he⟩ := Option.isSome_iff_exists.mp hs
    obtain ⟨rest, position⟩ := c
    cases rest with
    | nil => cases he
    | cons ch rest =>
      simp only [digit?, next?, Option.map_eq_some_iff] at he
      obtain ⟨m, hm, -⟩ := he
      simp only [hexUpToFrom, hm] at h
      split at h
      next =>
        have := reaches_hexUpToFrom limit (0 * 16 + m) rest (position + ch.utf8Size)
        rw [h] at this
        exact (advances_of_next? (next?_cons ..)).trans_reaches this
      next => cases h
  next => cases h

theorem passesDigits_octalDigits (count value : Nat) (c : Cursor) :
    ∃ w, w.length ≤ count ∧
      PassesDigits 8 value c w (octalDigits count value c).1 (octalDigits count value c).2 := by
  induction count generalizing value c with
  | zero => exact ⟨[], Nat.le_refl 0, .refl ..⟩
  | succ count ih =>
    unfold octalDigits
    split
    next => exact ⟨[], Nat.zero_le _, .refl ..⟩
    next digit d hd =>
      obtain ⟨ch, hpasses, rfl, hlt⟩ := digitValue_of_digit? hd
      obtain ⟨w, hlength, hw⟩ := ih (value * 8 + digitValue ch) d
      exact ⟨ch :: w, Nat.succ_le_succ hlength, hw.cons hpasses hlt⟩

/-- An octal escape has up to three digits, and they spell a byte. -/
theorem passesDigits_of_octalEscape? {c d : Cursor} {n : Nat} (h : c.octalEscape? = some (n, d)) :
    ∃ w, w ≠ [] ∧ w.length ≤ 3 ∧ PassesDigits 8 0 c w n d ∧ n < UInt8.size := by
  unfold octalEscape? at h
  split at h
  next => cases h
  next first e he =>
    obtain ⟨ch, hpasses, rfl, hlt⟩ := digitValue_of_digit? he
    obtain ⟨w, hlength, hw⟩ :=
      passesDigits_octalDigits (if digitValue ch ≤ 3 then 2 else 1) (digitValue ch) e
    rw [Option.some.inj h] at hw
    have hbound : w.length ≤ 2 ∧ n < UInt8.size := by
      have hvalue := hw.digits.value_lt (digitValue ch)
      rw [hw.value_eq] at hvalue
      split at hlength
      next hle =>
        have hpow : 8 ^ w.length ≤ 8 ^ 2 := Nat.pow_le_pow_right (by decide) hlength
        have hprod := Nat.mul_le_mul (Nat.succ_le_succ hle) hpow
        exact ⟨hlength, Nat.lt_of_lt_of_le hvalue hprod⟩
      next =>
        have hpow : 8 ^ w.length ≤ 8 ^ 1 := Nat.pow_le_pow_right (by decide) hlength
        have hprod := Nat.mul_le_mul (Nat.succ_le_of_lt hlt) hpow
        have hbyte : 8 * 8 ^ 1 ≤ UInt8.size := by decide
        exact ⟨by omega, Nat.lt_of_lt_of_le hvalue (Nat.le_trans hprod hbyte)⟩
    have hall : PassesDigits 8 0 c (ch :: w) n d :=
      .cons hpasses hlt (by rwa [Nat.zero_mul, Nat.zero_add])
    exact ⟨ch :: w, List.cons_ne_nil _ _, Nat.succ_le_succ hbound.1, hall, hbound.2⟩

end Cursor

end PatternBlocks
