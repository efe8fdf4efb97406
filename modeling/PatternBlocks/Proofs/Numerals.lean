import PatternBlocks.Block.Quantifier
import PatternBlocks.Cursor.Reach

/-! What comes first in a text, and the readers of numbers on numbers as they are written. -/
namespace PatternBlocks

/-- No character that satisfies `p` comes first. -/
def BeginsWithout (p : Char → Bool) (cs : List Char) : Prop := ∀ ch ∈ cs.head?, ¬p ch

theorem beginsWithout_cons {p : Char → Bool} {ch : Char} {cs : List Char} :
    BeginsWithout p (ch :: cs) ↔ ¬p ch := by
  simp [BeginsWithout]

theorem beginsWithout_nil (p : Char → Bool) : BeginsWithout p [] := nofun

theorem beginsWithout_dropWhile (p : Char → Bool) (cs : List Char) :
    BeginsWithout p (cs.dropWhile p) := by
  intro ch hch hp
  have hfirst := List.head?_dropWhile_not p cs
  rw [Option.mem_def.mp hch] at hfirst
  simp [hp] at hfirst

theorem isDigit_iff {ch : Char} : ch.isDigit ↔ '0' ≤ ch ∧ ch ≤ '9' := by
  simp [Char.isDigit, Char.le_def]

theorem digitValue_of_isDigit {ch : Char} (h : ch.isDigit) :
    digitValue ch = ch.toNat - '0'.toNat :=
  if_pos (isDigit_iff.mp h)

theorem foldl_digitValue {ds : List Char} (hds : ∀ ch ∈ ds, ch.isDigit) (value : Nat) :
    ds.foldl (fun value ch => value * 10 + digitValue ch) value =
      Nat.ofDigitChars 10 ds value := by
  induction ds generalizing value with
  | nil => simp
  | cons ch ds ih =>
    obtain ⟨hch, hds⟩ := List.forall_mem_cons.mp hds
    rw [List.foldl_cons, ih hds, Nat.ofDigitChars_cons, digitValue_of_isDigit hch,
      Nat.mul_comm]

theorem digit?_ten_of_isDigit {ch : Char} (h : ch.isDigit) :
    digit? 10 ch = some (ch.toNat - '0'.toNat) := by
  have hval := digitValue_of_isDigit h
  have hlt : ch.toNat - '0'.toNat < 10 := by
    have h9 : ch.toNat ≤ 57 := (isDigit_iff.mp h).2
    show ch.toNat - 48 < 10
    omega
  rw [digit?, hval, if_pos hlt]

theorem digit?_ten_of_not_isDigit {ch : Char} (h : ¬ch.isDigit) : digit? 10 ch = none := by
  have hge : ¬digitValue ch < 10 := by
    unfold digitValue
    split
    next hd => exact absurd (isDigit_iff.mpr hd) h
    split
    · omega
    split
    · omega
    · omega
  rw [digit?, if_neg hge]

namespace Cursor

theorem eat?_eq_none {ch : Char} {rest : List Char} (h : rest.head? ≠ some ch) (position : Nat) :
    eat? ch ⟨rest, position⟩ = none := by
  cases rest with
  | nil => rfl
  | cons x rest =>
    apply if_neg
    rintro rfl
    exact h rfl

/-- Saturation at every digit comes to the same as saturation at the end. -/
theorem min_step (v d M : Nat) : min (min v M * 10 + d) M = min (v * 10 + d) M := by
  omega

/-- A run of digits is read to its end and as its value. -/
theorem decimalFrom_append {ds rest : List Char} (hds : ∀ ch ∈ ds, ch.isDigit)
    (hrest : BeginsWithout Char.isDigit rest) (v position : Nat) :
    decimalFrom (min v maxDecimal) (ds ++ rest) position =
      (min (Nat.ofDigitChars 10 ds v) maxDecimal, ⟨rest, position + utf8Length ds⟩) := by
  induction ds generalizing v position with
  | nil =>
    cases rest with
    | nil => simp [decimalFrom]
    | cons ch rest =>
      have hch := digit?_ten_of_not_isDigit (beginsWithout_cons.mp hrest)
      simp [decimalFrom, hch]
  | cons ch ds ih =>
    have hch := digit?_ten_of_isDigit (hds ch List.mem_cons_self)
    have htail : ∀ ch ∈ ds, ch.isDigit := fun x hx => hds x (List.mem_cons_of_mem _ hx)
    simp only [List.cons_append, decimalFrom, hch]
    rw [min_step, ih htail, Nat.ofDigitChars_cons, Nat.mul_comm 10 v, utf8Length_cons,
      Nat.add_assoc]

theorem decimal?_append {ds rest : List Char} (hds : ∀ ch ∈ ds, ch.isDigit) (hne : ds ≠ [])
    (hrest : BeginsWithout Char.isDigit rest) (position : Nat) :
    decimal? ⟨ds ++ rest, position⟩ =
      some (min (Nat.ofDigitChars 10 ds 0) maxDecimal, ⟨rest, position + utf8Length ds⟩) := by
  cases ds with
  | nil => exact absurd rfl hne
  | cons ch ds =>
    have hch := digit?_ten_of_isDigit (hds ch List.mem_cons_self)
    have hfirst : (digit? 10 ⟨ch :: ds ++ rest, position⟩).isSome := by
      simp [digit?, next?, hch]
    have hrun := decimalFrom_append hds hrest 0 position
    rw [Nat.zero_min] at hrun
    rw [decimal?, if_pos hfirst]
    exact congrArg some hrun

end Cursor

theorem isDigit_of_mem_decimalDigits {n : UInt32} {ch : Char} (h : ch ∈ decimalDigits n) :
    ch.isDigit :=
  Nat.isDigit_of_mem_toDigits (by decide) (by decide) h

theorem decimalDigits_ne_nil (n : UInt32) : decimalDigits n ≠ [] := Nat.toDigits_ne_nil

/-- A number other than zero is written without a leading zero. -/
theorem head?_toDigits_ne {n : Nat} (h : n ≠ 0) : (Nat.toDigits 10 n).head? ≠ some '0' := by
  induction n using Nat.strongRecOn with
  | ind n ih =>
    by_cases hlt : n < 10
    · have hall : ∀ m < 10, m ≠ 0 → some m.digitChar ≠ some '0' := by decide
      rw [Nat.toDigits_of_lt_base hlt]
      exact hall n hlt h
    · have hne : Nat.toDigits 10 (n / 10) ≠ [] := Nat.toDigits_ne_nil
      rw [Nat.toDigits_of_base_le (by decide) (by omega), List.head?_append,
        List.head?_eq_some_head hne, Option.some_or, ← List.head?_eq_some_head hne]
      exact ih (n / 10) (by omega) (by omega)

/-- A number in decimal digits, with any number of leading zeros. -/
structure Numeral where
  digits : List Char
  ne_nil : digits ≠ []
  isDigit : ∀ ch ∈ digits, ch.isDigit

namespace Numeral

def value (n : Numeral) : Nat := Nat.ofDigitChars 10 n.digits 0

/-- What the number is read as. From the largest value on, numbers are no longer told apart. -/
def saturated (n : Numeral) : Nat := min n.value Cursor.maxDecimal

def ofWord (n : UInt32) : Numeral where
  digits := decimalDigits n
  ne_nil := decimalDigits_ne_nil n
  isDigit _ := isDigit_of_mem_decimalDigits

theorem value_ofWord (n : UInt32) : (ofWord n).value = n.toNat := Nat.ofDigitChars_ten_toDigits

/-- A number that fits into a word is read as its value. -/
theorem saturated_eq {n : Numeral} (h : n.value < UInt32.size) : n.saturated = n.value := by
  simp only [saturated, Cursor.maxDecimal, UInt64.size]
  simp only [UInt32.size] at h
  omega

theorem saturated_lt_word_iff {n : Numeral} :
    n.saturated < UInt32.size ↔ n.value < UInt32.size := by
  simp only [saturated, Cursor.maxDecimal, UInt64.size, UInt32.size]
  omega

/-- The reader compares numbers rightly as long as the smaller one is not too large for it. -/
theorem saturated_lt_iff {m n : Numeral} :
    m.saturated < n.saturated ↔ m.value < n.value ∧ m.value < Cursor.maxDecimal := by
  simp only [saturated]
  omega

theorem decimal?_append (n : Numeral) {rest : List Char}
    (hrest : BeginsWithout Char.isDigit rest) (position : Nat) :
    Cursor.decimal? ⟨n.digits ++ rest, position⟩ =
      some (n.saturated, ⟨rest, position + utf8Length n.digits⟩) :=
  Cursor.decimal?_append n.isDigit n.ne_nil hrest position

end Numeral

/-- The reader of numbers takes all digits that there are. -/
theorem Cursor.exists_numeral {c d : Cursor} {value : Nat} (h : c.decimal? = some (value, d)) :
    ∃ n : Numeral, value = n.saturated ∧ c.Passes n.digits d ∧
      BeginsWithout Char.isDigit d.rest := by
  obtain ⟨rest, position⟩ := c
  have hne : rest.takeWhile Char.isDigit ≠ [] := by
    intro hnil
    cases rest with
    | nil => cases h
    | cons ch rest =>
      have hch : ¬ch.isDigit := by
        intro hdigit
        simp [hdigit] at hnil
      simp [decimal?, digit?, next?, digit?_ten_of_not_isDigit hch] at h
  let n : Numeral :=
    ⟨rest.takeWhile Char.isDigit, hne, List.all_eq_true.mp List.all_takeWhile⟩
  have hread := n.decimal?_append (beginsWithout_dropWhile Char.isDigit rest) position
  rw [show n.digits ++ rest.dropWhile Char.isDigit = rest from List.takeWhile_append_dropWhile,
    h] at hread
  obtain ⟨rfl, rfl⟩ := Prod.mk.inj (Option.some.inj hread)
  exact ⟨n, rfl, ⟨List.takeWhile_append_dropWhile.symm, rfl⟩, beginsWithout_dropWhile _ _⟩

/-- A number is read as it was written if no digit follows. -/
theorem Cursor.decimal?_decimalDigits (n : UInt32) {rest : List Char}
    (hrest : BeginsWithout Char.isDigit rest) (position : Nat) :
    decimal? ⟨decimalDigits n ++ rest, position⟩ =
      some (n.toNat, ⟨rest, position + utf8Length (decimalDigits n)⟩) := by
  have hvalue := Numeral.value_ofWord n
  have hsaturated : (Numeral.ofWord n).saturated = n.toNat := by
    rw [Numeral.saturated_eq (hvalue ▸ n.toNat_lt), hvalue]
  rw [← hsaturated]
  exact (Numeral.ofWord n).decimal?_append hrest position

/-- The code of a decimal digit is read back from its two hexadecimal digits. -/
theorem Cursor.hexDigits?_of_isDigit {ch : Char} (h : ch.isDigit) (rest : List Char)
    (position : Nat) :
    ∃ d, hexDigits? 2 ⟨Nat.toDigits 16 ch.toNat ++ rest, position⟩ = some (ch.toNat, d) ∧
      d.rest = rest := by
  have hlow : 48 ≤ ch.toNat := (isDigit_iff.mp h).1
  have hhigh : ch.toNat ≤ 57 := (isDigit_iff.mp h).2
  generalize ch.toNat = n at hlow hhigh
  have hdigits : Nat.toDigits 16 n = ['3', (n - 48).digitChar] := by
    rw [Nat.toDigits_of_base_le (by decide) (by omega),
      Nat.toDigits_of_lt_base (show n / 16 < 16 by omega), show n / 16 = 3 by omega,
      show n % 16 = n - 48 by omega]
    rfl
  have hfirst : PatternBlocks.digit? 16 '3' = some 3 := by decide
  have hsecond : PatternBlocks.digit? 16 (n - 48).digitChar = some (n - 48) := by
    have hall : ∀ m < 10, PatternBlocks.digit? 16 m.digitChar = some m := by decide
    exact hall (n - 48) (by omega)
  refine ⟨⟨rest, position + '3'.utf8Size + (n - 48).digitChar.utf8Size⟩, ?_, rfl⟩
  simp only [hdigits, hexDigits?, hexDigitsFrom?, digit?, next?, List.cons_append, List.nil_append,
    hfirst, Option.map_some, hsecond]
  rw [show (0 * 16 + 3) * 16 + (n - 48) = n by omega]

end PatternBlocks
