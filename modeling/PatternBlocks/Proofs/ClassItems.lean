import Mathlib.Algebra.Group.Nat.Defs
import PatternBlocks.Proofs.ClassText
import PatternBlocks.Proofs.Shape

/-!
The members of classes that are read. Whatever escape a code comes from, it is a code point, so that
a code without a character is a surrogate; from this alone follows what characters, ranges and code
units may stand in a class.
-/
namespace PatternBlocks

/-- The greatest code point. -/
def maxCodePoint : Nat := 0x10ffff

def IsSurrogate (code : Nat) : Prop := 0xd800 ≤ code ∧ code ≤ 0xdfff

/-- The name is not empty, nor is the value if there is one, and an equals sign is in neither. -/
structure Property.WellFormed (p : Property) : Prop where
  name_ne_empty : p.name ≠ ""
  equals_not_mem_name : '=' ∉ p.name.toList
  value_ne_empty : ∀ v ∈ p.value, v ≠ ""
  equals_not_mem_value : ∀ v ∈ p.value, '=' ∉ v.toList

/-- What a class may hold as a member. Code units are not characters, and properties are known in
unicode mode only. -/
def ClassItem.WellFormed (unicode : Bool) : ClassItem → Prop
  | .char _ | .escape _ => True
  | .range first last => first ≤ last
  | .codeUnit code => IsSurrogate code
  | .codeUnitRange first last =>
    first ≤ last ∧ last ≤ maxCodePoint ∧ (IsSurrogate first ∨ IsSurrogate last)
  | .property p => unicode ∧ p.WellFormed

/-! ### Codes -/

theorem toNat_le_maxCodePoint (ch : Char) : ch.toNat ≤ maxCodePoint := by
  have hvalid : ch.toNat < 0xd800 ∨ (0xdfff < ch.toNat ∧ ch.toNat < 0x110000) := ch.valid
  unfold maxCodePoint
  omega

/-- Code points below the surrogates are characters. -/
theorem exists_char?_of_lt {code : Nat} (h : code < 0xd800) : ∃ ch, char? code = some ch :=
  ⟨_, if_pos (.inl h)⟩

/-- A code point that is no character is a surrogate. -/
theorem isSurrogate_of_char?_eq_none {code : Nat} (hle : code ≤ maxCodePoint)
    (h : char? code = none) : IsSurrogate code := by
  unfold char? at h
  split at h
  next => cases h
  next hvalid =>
    simp only [Nat.isValidChar, not_or, not_and] at hvalid
    unfold maxCodePoint at hle
    unfold IsSurrogate
    omega

theorem surrogatePair_le {high low : Nat} (hhigh : isHighSurrogate high)
    (hlow : isLowSurrogate low) : surrogatePair high low ≤ maxCodePoint := by
  simp only [isHighSurrogate, isLowSurrogate, Bool.and_eq_true, decide_eq_true_eq] at hhigh hlow
  unfold surrogatePair maxCodePoint
  omega

namespace Cursor

theorem lt_of_digit? {base n : Nat} {c d : Cursor} (h : c.digit? base = some (n, d)) :
    n < base := by
  obtain ⟨ch, hdigit, -⟩ := passes_of_digit? h
  unfold PatternBlocks.digit? at hdigit
  split at hdigit <;> cases hdigit
  assumption

theorem lt_of_hexDigitsFrom? {count value n : Nat} {c d : Cursor}
    (h : hexDigitsFrom? count value c = some (n, d)) : n < (value + 1) * 16 ^ count := by
  induction count generalizing value c with
  | zero =>
    cases h
    omega
  | succ count ih =>
    unfold hexDigitsFrom? at h
    split at h
    next => cases h
    next digit e he =>
      have hdigit := lt_of_digit? he
      calc n < (value * 16 + digit + 1) * 16 ^ count := ih h
        _ ≤ (value + 1) * 16 * 16 ^ count := Nat.mul_le_mul_right _ (by omega)
        _ = (value + 1) * 16 ^ (count + 1) := by rw [Nat.mul_assoc, pow_succ']

theorem le_of_hexUpToFrom {limit value n : Nat} {rest : List Char} {position : Nat} {d : Cursor}
    (hvalue : value ≤ limit) (h : hexUpToFrom limit value rest position = (some n, d)) :
    n ≤ limit := by
  fun_induction hexUpToFrom limit value rest position with
  | case1 =>
    cases h
    exact hvalue
  | case2 =>
    cases h
    exact hvalue
  | case3 _ _ _ _ _ _ hle ih => exact ih hle h
  | case4 => cases h

theorem le_of_hexUpTo {limit n : Nat} {c d : Cursor} (h : c.hexUpTo limit = (some n, d)) :
    n ≤ limit := by
  unfold hexUpTo at h
  split at h
  next => exact le_of_hexUpToFrom (Nat.zero_le limit) h
  next => cases h

end Cursor

namespace Grammar

variable {unicode : Bool}

theorem le_of_controlEscape {inClass : Bool} {start n : Nat} {b c d : Cursor}
    (h : controlEscape unicode inClass start b c = .ok (n, d)) : n ≤ maxCodePoint := by
  unfold controlEscape at h
  split at h
  next letter _ _ =>
    cases h
    have hlt : letter.toNat % 32 < 32 := Nat.mod_lt _ (by decide)
    exact Nat.le_trans (Nat.le_of_lt hlt) (by decide)
  next =>
    split at h <;> cases h
    exact toNat_le_maxCodePoint _

theorem le_of_digitEscape {start n : Nat} {first : Char} {c d e : Cursor}
    (h : digitEscape unicode start first c d = .ok (n, e)) : n ≤ maxCodePoint := by
  unfold digitEscape at h
  split at h
  next =>
    cases h
    exact Nat.zero_le _
  next =>
    split at h <;> cases h
    exact toNat_le_maxCodePoint _

theorem le_of_hexEscape {start n : Nat} {c d : Cursor}
    (h : hexEscape unicode start c = .ok (n, d)) : n ≤ maxCodePoint := by
  unfold hexEscape at h
  split at h
  next hcode =>
    cases h
    exact Nat.le_trans (Nat.le_of_lt (Cursor.lt_of_hexDigitsFrom? hcode)) (by decide)
  next =>
    split at h <;> cases h
    exact toNat_le_maxCodePoint _

theorem le_of_bracedCodePoint {start n : Nat} {c d : Cursor}
    (h : bracedCodePoint start c = .ok (n, d)) : n ≤ maxCodePoint := by
  unfold bracedCodePoint at h
  split at h
  next => cases h
  next hcode =>
    split at h <;> cases h
    exact Cursor.le_of_hexUpTo hcode

theorem le_of_unicodeEscape {start n : Nat} {c d : Cursor}
    (h : unicodeEscape unicode start c = .ok (n, d)) : n ≤ maxCodePoint := by
  unfold unicodeEscape at h
  split at h
  next => exact le_of_bracedCodePoint h
  split at h
  next =>
    split at h <;> cases h
    exact toNat_le_maxCodePoint _
  next unit e hunit =>
    split at h
    next =>
      cases h
      exact Nat.le_trans (Nat.le_of_lt (Cursor.lt_of_hexDigitsFrom? hunit)) (by decide)
    next low f hpair =>
      simp only [Except.ok.injEq, Prod.mk.injEq] at h
      obtain ⟨rfl, -⟩ := h
      split at hpair
      next hhigh =>
        unfold lowSurrogate? at hpair
        split at hpair
        next => cases hpair
        next => exact surrogatePair_le hhigh (Option.filter_eq_some_iff.mp hpair).2
      next => cases hpair

/-- Every character escape is read as a code point. -/
theorem le_of_characterEscape {inClass : Bool} {start n : Nat} {c d : Cursor}
    (h : characterEscape unicode inClass start c = .ok (n, d)) : n ≤ maxCodePoint := by
  unfold characterEscape at h
  split at h
  next => cases h
  next ch e he =>
    split at h
    next code hcode =>
      cases h
      unfold controlCode? at hcode
      split at hcode <;> cases hcode <;> decide
    next =>
      split at h
      next => exact le_of_controlEscape h
      split at h
      next => exact le_of_digitEscape h
      split at h
      next => exact le_of_hexEscape h
      split at h
      next => exact le_of_unicodeEscape h
      split at h <;> cases h
      exact toNat_le_maxCodePoint ch

/-! ### Properties -/

theorem wellFormed_of_nameAndValue? {body : List Char} {name : String} {value : Option String}
    (h : nameAndValue? body = some (name, value)) (negated : Bool) (span : Span) :
    (Property.mk negated name value span).WellFormed := by
  have hequals : '=' ∉ body.takeWhile (· ≠ '=') := fun hmem => by
    simpa using List.all_eq_true.mp List.all_takeWhile _ hmem
  unfold nameAndValue? at h
  dsimp only at h
  split at h
  next =>
    split at h
    next => cases h
    next hname =>
      cases h
      refine ⟨?_, ?_, nofun, nofun⟩
      · simpa [String.ext_iff] using hname
      · rwa [String.toList_ofList]
  next value' _ =>
    split at h
    next => cases h
    next hparts =>
      cases h
      simp only [Bool.or_eq_true, not_or] at hparts
      obtain ⟨⟨hname, hvalue⟩, hvalueEquals⟩ := hparts
      refine ⟨?_, ?_, ?_, ?_⟩
      · simpa [String.ext_iff] using hname
      · rwa [String.toList_ofList]
      · rintro _ ⟨⟩
        simpa [String.ext_iff] using hvalue
      · rintro _ ⟨⟩
        rw [String.toList_ofList]
        simpa using hvalueEquals

theorem wellFormed_of_propertyEscape {negated : Bool} {start : Nat} {p : Property} {c d : Cursor}
    (h : propertyEscape negated start c = .ok (p, d)) : p.WellFormed := by
  unfold propertyEscape at h
  split at h
  next => cases h
  next =>
    dsimp only at h
    split at h
    next => cases h
    next =>
      split at h
      next => cases h
      next hparts =>
        cases h
        exact wellFormed_of_nameAndValue? hparts _ _

/-! ### Members -/

/-- What a member may be before ranges are assembled. -/
def ClassAtom.WellFormed (unicode : Bool) : ClassAtom → Prop
  | .code n => n ≤ maxCodePoint
  | .escape _ => True
  | .property p => unicode ∧ p.WellFormed

theorem wellFormed_of_classEscapeAtom {opening start : Nat} {a : ClassAtom} {c d : Cursor}
    (h : classEscapeAtom unicode opening start c = .ok (a, d)) : a.WellFormed unicode := by
  unfold classEscapeAtom at h
  split at h
  next => cases h
  next =>
    split at h
    next =>
      cases h
      trivial
    split at h
    next =>
      cases h
      exact (by decide : 0x08 ≤ maxCodePoint)
    split at h
    next hstrict =>
      obtain ⟨⟨p, e⟩, hp, heq⟩ := map_eq_ok.mp h
      cases heq
      exact ⟨(Bool.and_eq_true_iff.mp hstrict).1, wellFormed_of_propertyEscape hp⟩
    split at h
    next => cases h
    next =>
      obtain ⟨⟨n, e⟩, hn, heq⟩ := map_eq_ok.mp h
      cases heq
      exact le_of_characterEscape hn

theorem wellFormed_of_classAtom {opening : Nat} {a : ClassAtom} {c d : Cursor}
    (h : classAtom unicode opening c = .ok (a, d)) : a.WellFormed unicode := by
  unfold classAtom at h
  split at h
  next => cases h
  next ch _ _ =>
    split at h
    next => exact wellFormed_of_classEscapeAtom h
    next =>
      cases h
      exact toNat_le_maxCodePoint ch

theorem ClassAtom.WellFormed.item {a : ClassAtom} (h : a.WellFormed unicode) :
    a.item.WellFormed unicode := by
  cases a with
  | code n =>
    rw [ClassAtom.item]
    split
    next => trivial
    next hnone => exact isSurrogate_of_char?_eq_none h hnone
  | escape => trivial
  | property => exact h

theorem wellFormed_rangeItem {first last : Nat} (horder : first ≤ last)
    (hlast : last ≤ maxCodePoint) : (rangeItem first last).WellFormed unicode := by
  unfold rangeItem
  split
  next a b ha hb =>
    show a.toNat ≤ b.toNat
    rw [toNat_of_char? ha, toNat_of_char? hb]
    exact horder
  next hnone =>
    refine ⟨horder, hlast, ?_⟩
    cases ha : char? first with
    | none => exact .inl (isSurrogate_of_char?_eq_none (Nat.le_trans horder hlast) ha)
    | some a =>
      cases hb : char? last with
      | none => exact .inr (isSurrogate_of_char?_eq_none hlast hb)
      | some b => exact absurd hb (hnone a b ha)

theorem wellFormed_of_joinAtoms {start : Nat} {low high : ClassAtom} {items : List ClassItem}
    {c d : Cursor} (hlow : low.WellFormed unicode) (hhigh : high.WellFormed unicode)
    (h : joinAtoms unicode start low high c = .ok (items, d)) :
    ∀ item ∈ items, item.WellFormed unicode := by
  unfold joinAtoms at h
  split at h
  next =>
    split at h <;> cases h
    next horder =>
      exact List.forall_mem_singleton.mpr (wellFormed_rangeItem (Nat.not_lt.mp horder) hhigh)
  next =>
    split at h <;> cases h
    refine List.forall_mem_cons.mpr ⟨hlow.item, List.forall_mem_cons.mpr ⟨trivial, ?_⟩⟩
    exact List.forall_mem_singleton.mpr hhigh.item

theorem wellFormed_of_classMember {opening : Nat} {items : List ClassItem} {c d : Cursor}
    (h : classMember unicode opening c = .ok (items, d)) :
    ∀ item ∈ items, item.WellFormed unicode := by
  unfold classMember at h
  split at h
  next => cases h
  next hlow =>
    split at h
    next =>
      cases h
      exact List.forall_mem_singleton.mpr (wellFormed_of_classAtom hlow).item
    next =>
      split at h
      next => cases h
      next hhigh =>
        exact wellFormed_of_joinAtoms (wellFormed_of_classAtom hlow)
          (wellFormed_of_classAtom hhigh) h

theorem wellFormed_of_classMembers {opening : Nat} {items : List ClassItem} {c d : Cursor}
    (h : classMembers unicode opening c = .ok (items, d)) :
    ∀ item ∈ items, item.WellFormed unicode := by
  fun_induction classMembers unicode opening c generalizing items with
  | case1 => cases h
  | case2 =>
    cases h
    exact List.forall_mem_nil _
  | case3 => cases h
  | case4 => cases h
  | case5 _ _ _ _ _ _ he _ _ hf ih =>
    cases h
    exact List.forall_mem_append.mpr ⟨wellFormed_of_classMember he, ih hf⟩

end Grammar

/-- Every member of every class in a pattern that is accepted is well formed. -/
theorem Pattern.items_wellFormed {unicode : Bool} {text : String} {p : Pattern} {b : Bracket}
    (h : Pattern.parse unicode text = .ok p) (hb : .bracket b ∈ p.root.subtrees) :
    ∀ item ∈ b.items, item.WellFormed unicode := by
  cases (Pattern.isDisjunction_of_parse h).leaf_of_mem hb rfl with
  | bracket body =>
    obtain ⟨items, e, hmembers, -, rfl⟩ := Grammar.bracketBody_eq_ok body
    exact Grammar.wellFormed_of_classMembers hmembers

/-- A range that begins with half a surrogate pair, the other half by itself, and a property. -/
theorem Pattern.items_wellFormed_surrogates :
    ∃ text p b, text = "(?:[^\\uD83D-\\u{10FFFF}\\uDE00\\x61-z\\P{Script=Greek}-]|.)" ∧
      Pattern.parse true text = .ok p ∧ .bracket b ∈ p.root.subtrees ∧ b.items.length = 5 ∧
      ∀ item ∈ b.items, item.WellFormed true := by
  have hcheck : (Pattern.parse true
      "(?:[^\\uD83D-\\u{10FFFF}\\uDE00\\x61-z\\P{Script=Greek}-]|.)").toOption.any fun p =>
        p.root.subtrees.any fun
          | .bracket b => b.items.length = 5
          | _ => false := by
    decide +kernel
  obtain ⟨p, hp, hany⟩ := exists_of_any hcheck
  obtain ⟨r, hr, hlength⟩ := List.any_eq_true.mp hany
  cases r with
  | bracket b =>
    exact ⟨_, p, b, rfl, hp, hr, of_decide_eq_true hlength, Pattern.items_wellFormed hp hr⟩
  | _ => cases hlength

end PatternBlocks
