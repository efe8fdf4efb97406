import PatternBlocks.Grammar.Quantifier
import PatternBlocks.Proofs.Numerals

/-!
Counts in braces, with bounds of any length. The reader knows only saturated bounds, but it accepts
exactly those that are in order and fit into a word, and keeps their values.
-/
namespace PatternBlocks

/-- A count in braces as it is written. -/
inductive Braces where
  | exactly (n : Numeral)
  | atLeast (n : Numeral)
  | between (least most : Numeral)

namespace Braces

def least : Braces → Numeral
  | .exactly n | .atLeast n | .between n _ => n

def most? : Braces → Option Numeral
  | .exactly n => some n
  | .atLeast _ => none
  | .between _ most => some most

/-- What stands between the lower bound and the closing brace. -/
def upperText : Braces → List Char
  | .exactly _ => []
  | .atLeast _ => [',']
  | .between _ most => ',' :: most.digits

def render (b : Braces) : List Char := '{' :: (b.least.digits ++ (b.upperText ++ ['}']))

/-- As numbers of any size, the bounds are in order and fit into a word. -/
structure InRange (b : Braces) : Prop where
  ordered : ∀ most ∈ b.most?, b.least.value ≤ most.value
  least_le : b.least.value ≤ 4294967295
  most_le : ∀ most ∈ b.most?, most.value ≤ 4294967295

/-- The reader sees that the bounds are out of order. It does not if both are too large for it. -/
def isReversed (b : Braces) : Bool :=
  b.most?.any fun most => most.value < b.least.value && most.value < Cursor.maxDecimal

/-- What is wrong with bounds that are not in range. -/
def fault (b : Braces) : SyntaxError.Cause :=
  if b.isReversed then .quantifierOutOfOrder else .quantifierTooLarge

/-- The bounds fit into a word. -/
def Fits (b : Braces) : Prop :=
  b.least.value < UInt32.size ∧ ∀ most ∈ b.most?, most.value < UInt32.size

/-- The count with the values of the bounds. -/
def count (b : Braces) : Count :=
  .range (UInt32.ofNat b.least.value) (b.most?.map fun most => UInt32.ofNat most.value)

/-- Bounds that fit are never too large for the reader to see their order. -/
theorem inRange_iff {b : Braces} : b.InRange ↔ b.Fits ∧ ¬b.isReversed := by
  simp only [isReversed, Option.any_eq_true, Bool.and_eq_true, decide_eq_true_eq, not_exists,
    not_and]
  constructor
  · rintro ⟨hordered, hleast, hmost⟩
    refine ⟨⟨Nat.lt_succ_of_le hleast, fun most hmem => Nat.lt_succ_of_le (hmost most hmem)⟩, ?_⟩
    intro most hmem hlt
    exact absurd hlt (Nat.not_lt.mpr (hordered most hmem))
  · rintro ⟨⟨hleast, hmost⟩, hseen⟩
    refine ⟨fun most hmem => ?_, Nat.le_of_lt_succ hleast,
      fun most hmem => Nat.le_of_lt_succ (hmost most hmem)⟩
    refine Nat.not_lt.mp fun hlt => hseen most hmem hlt ?_
    exact Nat.lt_trans (hmost most hmem) (by decide)

end Braces

namespace Grammar

variable {unicode : Bool} {b : Braces}

theorem beginsWithout_upperText (b : Braces) (rest : List Char) :
    BeginsWithout Char.isDigit (b.upperText ++ '}' :: rest) := by
  cases b <;> exact beginsWithout_cons.mpr (by decide)

theorem decimal?_brace (rest : List Char) (position : Nat) :
    Cursor.decimal? ⟨'}' :: rest, position⟩ = none := by
  have hbrace : digit? 10 '}' = none := by decide
  simp [Cursor.decimal?, Cursor.digit?, Cursor.next?, hbrace]

theorem upperBound_upperText (b : Braces) (rest : List Char) (position : Nat) :
    upperBound b.least.saturated ⟨b.upperText ++ '}' :: rest, position⟩ =
      (b.most?.map Numeral.saturated, ⟨'}' :: rest, position + utf8Length b.upperText⟩) := by
  cases b with
  | exactly n => simp [upperBound, Cursor.eat?, Braces.upperText, Braces.least, Braces.most?]
  | atLeast n =>
    simp only [upperBound, Braces.upperText, List.cons_append, List.nil_append, Cursor.eat?,
      if_true, decimal?_brace]
    rfl
  | between least most =>
    have hbrace : BeginsWithout Char.isDigit ('}' :: rest) := beginsWithout_cons.mpr (by decide)
    simp only [upperBound, Braces.upperText, List.cons_append, Cursor.eat?, if_true,
      most.decimal?_append hbrace, utf8Length_cons, Nat.add_assoc]
    rfl

theorem bounds_append (b : Braces) (rest : List Char) (position : Nat) :
    bounds ⟨b.least.digits ++ (b.upperText ++ '}' :: rest), position⟩ =
      (some (b.least.saturated, b.most?.map Numeral.saturated),
        ⟨rest, position + utf8Length b.least.digits + utf8Length b.upperText + '}'.utf8Size⟩) := by
  simp only [bounds, b.least.decimal?_append (beginsWithout_upperText b rest),
    upperBound_upperText, Cursor.eat?, if_true]

/-- Counts in braces are read by their saturated bounds. -/
theorem braces?_render (b : Braces) (rest : List Char) (position : Nat) :
    braces? unicode ⟨b.render ++ rest, position⟩ =
      if b.isReversed then
        .error ⟨.quantifierOutOfOrder, ⟨position, position + utf8Length b.render⟩⟩
      else
        match countOf? b.least.saturated (b.most?.map Numeral.saturated) with
        | none => .error ⟨.quantifierTooLarge, ⟨position, position + utf8Length b.render⟩⟩
        | some count => .ok (some (count, ⟨rest, position + utf8Length b.render⟩)) := by
  have hposition : position + '{'.utf8Size + utf8Length b.least.digits +
      utf8Length b.upperText + '}'.utf8Size = position + utf8Length b.render := by
    simp only [Braces.render, utf8Length_cons, utf8Length_append, utf8Length_nil]
    omega
  have hrender : b.render ++ rest =
      '{' :: (b.least.digits ++ (b.upperText ++ '}' :: rest)) := by
    simp [Braces.render]
  have hreversed : (b.most?.map Numeral.saturated).any (· < b.least.saturated) =
      b.isReversed := by
    simp [Option.any_map, Numeral.saturated_lt_iff, Braces.isReversed]
  rw [hrender]
  simp only [braces?, Cursor.eat?, if_true, bounds_append, hposition, hreversed]
  rfl

theorem word?_saturated (n : Numeral) :
    word? n.saturated =
      if n.value < UInt32.size then some (UInt32.ofNat n.value) else none := by
  by_cases h : n.value < UInt32.size
  · rw [if_pos h, word?, if_pos (Numeral.saturated_lt_word_iff.mpr h), Numeral.saturated_eq h]
  · rw [if_neg h, word?, if_neg (mt Numeral.saturated_lt_word_iff.mp h)]

theorem countOf?_of_fits (h : b.Fits) :
    countOf? b.least.saturated (b.most?.map Numeral.saturated) = some b.count := by
  cases hmost : b.most? with
  | none => simp [countOf?, word?_saturated, h.1, Braces.count, hmost]
  | some most => simp [countOf?, word?_saturated, h.1, h.2 most hmost, Braces.count, hmost]

theorem countOf?_of_not_fits (h : ¬b.Fits) :
    countOf? b.least.saturated (b.most?.map Numeral.saturated) = none := by
  by_cases hleast : b.least.value < UInt32.size
  · cases hmost : b.most? with
    | none => exact absurd ⟨hleast, by simp [hmost]⟩ h
    | some most =>
      have hlarge : ¬most.value < UInt32.size := fun hlt => h ⟨hleast, by simpa [hmost] using hlt⟩
      simp [countOf?, word?_saturated, hleast, hlarge]
  · cases b.most? <;> simp [countOf?, word?_saturated, hleast]

/-- Bounds in range are read as the numbers that they are. -/
theorem braces?_of_inRange (h : b.InRange) (rest : List Char) (position : Nat) :
    braces? unicode ⟨b.render ++ rest, position⟩ =
      .ok (some (b.count, ⟨rest, position + utf8Length b.render⟩)) := by
  obtain ⟨hfits, hordered⟩ := Braces.inRange_iff.mp h
  rw [braces?_render, if_neg hordered, countOf?_of_fits hfits]

/-- Bounds out of range are an error in either mode, and never text. -/
theorem braces?_of_not_inRange (h : ¬b.InRange) (rest : List Char) (position : Nat) :
    braces? unicode ⟨b.render ++ rest, position⟩ =
      .error ⟨b.fault, ⟨position, position + utf8Length b.render⟩⟩ := by
  rw [braces?_render, Braces.fault]
  by_cases hreversed : b.isReversed
  · rw [if_pos hreversed, if_pos hreversed]
  · have hfits : ¬b.Fits := fun hfits => h (Braces.inRange_iff.mpr ⟨hfits, hreversed⟩)
    rw [if_neg hreversed, if_neg hreversed, countOf?_of_not_fits hfits]

end Grammar

end PatternBlocks
