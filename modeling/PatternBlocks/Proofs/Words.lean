import PatternBlocks.Proofs.DigitValues

/-!
Numbers in words of a fixed width. A decimal number saturates in 64 bits, at the product and at the
sum. In 32 bits a hexadecimal number is checked for overflow at both. The readers of numbers read
the same with these words as without a width.
-/
namespace PatternBlocks

namespace Word

/-! ### Arithmetic -/

/-- The word of a number, or the largest word. -/
def saturated (n : Nat) : UInt64 := UInt64.ofNat (min n Cursor.maxDecimal)

def saturatingMul (a b : UInt64) : UInt64 := saturated (a.toNat * b.toNat)

def saturatingAdd (a b : UInt64) : UInt64 := saturated (a.toNat + b.toNat)

/-- The word of a number that has one. -/
def checked (n : Nat) : Option UInt32 := if n < UInt32.size then some (UInt32.ofNat n) else none

def checkedMul (a b : UInt32) : Option UInt32 := checked (a.toNat * b.toNat)

def checkedAdd (a b : UInt32) : Option UInt32 := checked (a.toNat + b.toNat)

/-- A number with a further decimal digit. -/
def appendDecimal (value : UInt64) (digit : Nat) : UInt64 :=
  saturatingAdd (saturatingMul value 10) (UInt64.ofNat digit)

/-- A number with a further hexadecimal digit, unless the product or the sum overflows. -/
def appendHex? (value : UInt32) (digit : Nat) : Option UInt32 :=
  (checkedMul value 16).bind (checkedAdd · (UInt32.ofNat digit))

theorem toNat_saturated (n : Nat) : (saturated n).toNat = min n Cursor.maxDecimal := by
  apply UInt64.toNat_ofNat_of_lt'
  have hmax : Cursor.maxDecimal < UInt64.size := by decide
  omega

theorem checked_eq_some_iff {n : Nat} {word : UInt32} : checked n = some word ↔ word.toNat = n := by
  unfold checked
  split
  next hlt =>
    rw [Option.some.injEq]
    constructor
    · rintro rfl
      exact UInt32.toNat_ofNat_of_lt' hlt
    · rintro rfl
      exact UInt32.ofNat_toNat
  next hge =>
    refine iff_of_false nofun ?_
    rintro rfl
    exact hge word.toNat_lt

theorem checked_eq_none_iff {n : Nat} : checked n = none ↔ UInt32.size ≤ n := by
  rw [checked, ite_eq_right_iff, ← Nat.not_lt]
  exact imp_congr_right fun _ => iff_of_false nofun not_false

/-- Saturation at the product and at the sum comes to the same as saturation at the end. -/
theorem toNat_appendDecimal (value : UInt64) {digit : Nat} (h : digit < 10) :
    (appendDecimal value digit).toNat = min (value.toNat * 10 + digit) Cursor.maxDecimal := by
  have hdigit : (UInt64.ofNat digit).toNat = digit :=
    UInt64.toNat_ofNat_of_lt' (Nat.lt_trans h (by decide))
  have hten : (10 : UInt64).toNat = 10 := rfl
  rw [appendDecimal, saturatingAdd, saturatingMul, toNat_saturated, toNat_saturated, hdigit, hten]
  omega

/-- A product that overflows makes the sum overflow as well. -/
theorem appendHex?_eq (value : UInt32) {digit : Nat} (h : digit < 16) :
    appendHex? value digit = checked (value.toNat * 16 + digit) := by
  have hdigit : (UInt32.ofNat digit).toNat = digit :=
    UInt32.toNat_ofNat_of_lt' (Nat.lt_trans h (by decide))
  have hproduct : checkedMul value 16 = checked (value.toNat * 16) := rfl
  rw [appendHex?, hproduct]
  cases hchecked : checked (value.toNat * 16) with
  | none =>
    have hover := checked_eq_none_iff.mp hchecked
    exact (checked_eq_none_iff.mpr (Nat.le_add_right_of_le hover)).symm
  | some product =>
    rw [Option.bind_some, checkedAdd, checked_eq_some_iff.mp hchecked, hdigit]

/-! ### Readers

These are the readers of a cursor with a word in place of the number so far. -/

def decimalFrom (value : UInt64) : List Char → Nat → UInt64 × Cursor
  | [], position => (value, ⟨[], position⟩)
  | ch :: rest, position =>
    match digit? 10 ch with
    | none => (value, ⟨ch :: rest, position⟩)
    | some d => decimalFrom (appendDecimal value d) rest (position + ch.utf8Size)

def decimal? (c : Cursor) : Option (UInt64 × Cursor) :=
  if (c.digit? 10).isSome then some (decimalFrom 0 c.rest c.position) else none

def hexUpToFrom (limit value : UInt32) : List Char → Nat → Option UInt32 × Cursor
  | [], position => (some value, ⟨[], position⟩)
  | ch :: rest, position =>
    match digit? 16 ch with
    | none => (some value, ⟨ch :: rest, position⟩)
    | some d =>
      match (appendHex? value d).filter (· ≤ limit) with
      | none => (none, ⟨ch :: rest, position⟩)
      | some value => hexUpToFrom limit value rest (position + ch.utf8Size)

def hexUpTo (limit : UInt32) (c : Cursor) : Option UInt32 × Cursor :=
  if (c.digit? 16).isSome then hexUpToFrom limit 0 c.rest c.position else (none, c)

/-- What comes of reading a given number of digits into a word. -/
inductive Outcome where
  | number (value : UInt32) (after : Cursor)
  | noNumber
  | overflow
  deriving DecidableEq, Repr

def hexDigitsFrom : Nat → UInt32 → Cursor → Outcome
  | 0, value, c => .number value c
  | count + 1, value, c =>
    match c.digit? 16 with
    | none => .noNumber
    | some (d, c) =>
      match appendHex? value d with
      | none => .overflow
      | some value => hexDigitsFrom count value c

def hexDigits (count : Nat) (c : Cursor) : Outcome := hexDigitsFrom count 0 c

/-- The outcome is that of a reading without a width. An overflow never is. -/
inductive Outcome.Agrees : Outcome → Option (Nat × Cursor) → Prop where
  | number (value : UInt32) (after : Cursor) :
    Agrees (.number value after) (some (value.toNat, after))
  | noNumber : Agrees .noNumber none

/-! ### Agreement -/

theorem toNat_decimalFrom (value : UInt64) (rest : List Char) (position : Nat) :
    (decimalFrom value rest position).map UInt64.toNat id =
      Cursor.decimalFrom value.toNat rest position := by
  induction rest generalizing value position with
  | nil => rfl
  | cons ch rest ih =>
    simp only [decimalFrom, Cursor.decimalFrom]
    cases hd : digit? 10 ch with
    | none => rfl
    | some d =>
      have hlt := (digit?_eq_some_iff.mp hd).2
      exact (ih ..).trans (by rw [toNat_appendDecimal value hlt])

theorem toNat_decimal? (c : Cursor) :
    (decimal? c).map (Prod.map UInt64.toNat id) = c.decimal? := by
  unfold decimal? Cursor.decimal?
  split
  next => exact congrArg some (toNat_decimalFrom 0 c.rest c.position)
  next => rfl

/-- A number above the bound and one above all words are both given up. -/
theorem filter_appendHex? (limit value : UInt32) {digit : Nat} (h : digit < 16) :
    ((appendHex? value digit).filter (· ≤ limit)).map UInt32.toNat =
      if value.toNat * 16 + digit ≤ limit.toNat then some (value.toNat * 16 + digit)
      else none := by
  rw [appendHex?_eq value h]
  cases hchecked : checked (value.toNat * 16 + digit) with
  | none =>
    have hover := checked_eq_none_iff.mp hchecked
    have hlimit : limit.toNat < UInt32.size := limit.toNat_lt
    rw [if_neg (by omega)]
    rfl
  | some word =>
    have hword := checked_eq_some_iff.mp hchecked
    simp only [← hword, Option.filter_some, UInt32.le_iff_toNat_le, decide_eq_true_eq]
    split <;> rfl

theorem toNat_hexUpToFrom (limit value : UInt32) (rest : List Char) (position : Nat) :
    (hexUpToFrom limit value rest position).map (Option.map UInt32.toNat) id =
      Cursor.hexUpToFrom limit.toNat value.toNat rest position := by
  induction rest generalizing value position with
  | nil => rfl
  | cons ch rest ih =>
    simp only [hexUpToFrom, Cursor.hexUpToFrom]
    cases hd : digit? 16 ch with
    | none => rfl
    | some d =>
      have hstep := filter_appendHex? limit value (digit?_eq_some_iff.mp hd).2
      dsimp only
      split at hstep
      next hle =>
        obtain ⟨word, hword, heq⟩ := Option.map_eq_some_iff.mp hstep
        rw [hword, if_pos hle, ← heq]
        exact ih ..
      next hgt =>
        rw [Option.map_eq_none_iff.mp hstep, if_neg hgt]
        rfl

theorem toNat_hexUpTo (limit : UInt32) (c : Cursor) :
    (hexUpTo limit c).map (Option.map UInt32.toNat) id = c.hexUpTo limit.toNat := by
  unfold hexUpTo Cursor.hexUpTo
  split
  next => exact toNat_hexUpToFrom limit 0 c.rest c.position
  next => rfl

/-- Words have room for eight hexadecimal digits, those that were read and those to come. -/
theorem agrees_hexDigitsFrom {read count : Nat} (hroom : read + count ≤ 8) {value : UInt32}
    (hvalue : value.toNat < 16 ^ read) (c : Cursor) :
    (hexDigitsFrom count value c).Agrees (Cursor.hexDigitsFrom? count value.toNat c) := by
  induction count generalizing read value c with
  | zero => exact .number value c
  | succ count ih =>
    simp only [hexDigitsFrom, Cursor.hexDigitsFrom?]
    cases hread : c.digit? 16 with
    | none => exact .noNumber
    | some next =>
      obtain ⟨d, e⟩ := next
      obtain ⟨-, -, -, hlt⟩ := Cursor.digitValue_of_digit? hread
      have hnext : value.toNat * 16 + d < 16 ^ (read + 1) := by
        rw [Nat.pow_succ]
        omega
      have hword : 16 ^ (read + 1) ≤ 16 ^ 8 := Nat.pow_le_pow_right (by decide) (by omega)
      dsimp only
      rw [appendHex?_eq value hlt]
      cases hchecked : checked (value.toNat * 16 + d) with
      | none =>
        -- A further digit overflows only if there were eight before it.
        have hover : 16 ^ 8 ≤ value.toNat * 16 + d := checked_eq_none_iff.mp hchecked
        omega
      | some word =>
        have heq := checked_eq_some_iff.mp hchecked
        rw [← heq] at hnext ⊢
        exact ih (by omega) hnext e

theorem agrees_hexDigits {count : Nat} (h : count ≤ 8) (c : Cursor) :
    (hexDigits count c).Agrees (c.hexDigits? count) := by
  have hroom : 0 + count ≤ 8 := by omega
  exact agrees_hexDigitsFrom hroom (by decide) c

/-- From a cursor the readers read the same with words as without a width. -/
structure ReadsAlike (c : Cursor) : Prop where
  decimal : (decimal? c).map (Prod.map UInt64.toNat id) = c.decimal?
  hexUpTo : ∀ limit, (hexUpTo limit c).map (Option.map UInt32.toNat) id = c.hexUpTo limit.toNat
  hexDigits : ∀ count ≤ 8, (hexDigits count c).Agrees (c.hexDigits? count)

theorem readsAlike (c : Cursor) : ReadsAlike c where
  decimal := toNat_decimal? c
  hexUpTo limit := toNat_hexUpTo limit c
  hexDigits _ h := agrees_hexDigits h c

end Word

end PatternBlocks
