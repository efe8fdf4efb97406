import Mathlib.Data.List.Basic
import PatternBlocks.Grammar.Bracket
import PatternBlocks.Proofs.Prescan

/-!
The texts that the atoms of a class are read from. Each is a character, or a backslash with what
belongs to its escape, and hyphens, backslashes and underscores have few places in it.
-/
namespace PatternBlocks.Grammar

/-- Characters that spell the code of an escape. -/
def isCodeCharacter (ch : Char) : Bool := ch.isAlphanum || ch = '{' || ch = '}'

/-- The text of an atom of a class, and the atom. A backslash stands alone only before the letter of
a control escape that has no letter of its own. -/
inductive ClassAtomText (behind : List Char) : List Char → ClassAtom → Prop
  | plain {ch : Char} (h : ch ≠ '\\') : ClassAtomText behind [ch] (.code ch.toNat)
  | backslash (h : behind.head? = some 'c') : ClassAtomText behind ['\\'] (.code '\\'.toNat)
  | classEscape {ch : Char} {kind : ClassEscape} (h : ClassEscape.ofLetter? ch = some kind) :
      ClassAtomText behind ['\\', ch] (.escape kind)
  | escaped {ch : Char} {n : Nat} (h : ClassEscape.ofLetter? ch = none)
      (code : ch.isAlphanum ∨ n = ch.toNat) : ClassAtomText behind ['\\', ch] (.code n)
  | control {letter : Char} (h : letter.isAlphanum ∨ letter = '_') :
      ClassAtomText behind ['\\', 'c', letter] (.code (letter.toNat % 32))
  | coded {first : Char} {w : List Char} {n : Nat} (h : ClassEscape.ofLetter? first = none)
      (code : ∀ ch ∈ first :: w, isCodeCharacter ch) :
      ClassAtomText behind ('\\' :: first :: w) (.code n)
  | pair {v w : List Char} {n : Nat} (high : ∀ ch ∈ v, isCodeCharacter ch)
      (low : ∀ ch ∈ w, isCodeCharacter ch) :
      ClassAtomText behind ('\\' :: 'u' :: v ++ '\\' :: 'u' :: w) (.code n)
  | property {first : Char} {w : List Char} {p : Property} (h : first = 'p' ∨ first = 'P')
      (name : ∀ ch ∈ w, isPropertyCharacter ch) :
      ClassAtomText behind ('\\' :: first :: '{' :: w ++ ['}']) (.property p)

/-! ### Texts that are read -/

open Cursor (PassesOnly)

variable {unicode : Bool} {start opening : Nat}

theorem isCodeCharacter_of_isAlphanum {ch : Char} (h : ch.isAlphanum) : isCodeCharacter ch := by
  simp [isCodeCharacter, h]

theorem isAlphanum_of_isDigit {ch : Char} (h : ch.isDigit) : ch.isAlphanum := by
  simp [Char.isAlphanum, h]

theorem isAlphanum_of_controlCode? {ch : Char} {n : Nat} (h : controlCode? ch = some n) :
    ch.isAlphanum := by
  unfold controlCode? at h
  split at h
  case h_6 => cases h
  all_goals rfl

theorem ofLetter?_eq_none_of_isDigit {ch : Char} (h : ch.isDigit) :
    ClassEscape.ofLetter? ch = none := by
  unfold ClassEscape.ofLetter?
  split
  case h_7 => rfl
  all_goals cases h

/-- How the text of a character escape goes on behind the backslash. -/
def EscapeText (c d : Cursor) (n : Nat) : Prop :=
  ∃ w, c.Passes w d ∧ ClassAtomText d.rest ('\\' :: w) (.code n)

section

variable {ch : Char} {c d e : Cursor} {n : Nat}

theorem escapeText_of_escaped (next : c.next? = some (ch, d))
    (h : ClassEscape.ofLetter? ch = none) (code : ch.isAlphanum ∨ n = ch.toNat) :
    EscapeText c d n :=
  ⟨[ch], Cursor.passes_of_next? next, .escaped h code⟩

theorem escapeText_of_passesOnly (next : c.next? = some (ch, d))
    (h : ClassEscape.ofLetter? ch = none) (hch : ch.isAlphanum)
    (code : PassesOnly isCodeCharacter d e) : EscapeText c e n := by
  obtain ⟨w, hw, hcode⟩ := code
  refine ⟨ch :: w, (Cursor.passes_of_next? next).trans hw, .coded h ?_⟩
  exact List.forall_mem_cons.mpr ⟨isCodeCharacter_of_isAlphanum hch, hcode⟩

theorem isAlphanum_of_isControlLetter {inClass : Bool} {letter : Char}
    (h : isControlLetter unicode inClass letter) : letter.isAlphanum ∨ letter = '_' := by
  simp only [isControlLetter, Bool.or_eq_true, Bool.and_eq_true, decide_eq_true_eq] at h
  simp only [Char.isAlphanum, Bool.or_eq_true]
  rcases h with halpha | ⟨-, hdigit | hunderscore⟩
  · exact .inl (.inl halpha)
  · exact .inl (.inr hdigit)
  · exact .inr hunderscore

theorem escapeText_of_controlEscape (next : c.next? = some ('c', d))
    (h : controlEscape unicode true start c d = .ok (n, e)) : EscapeText c e n := by
  have hc := Cursor.passes_of_next? next
  unfold controlEscape at h
  split at h
  next letter f hletter =>
    cases h
    obtain ⟨hafter, hcontrol⟩ := Option.filter_eq_some_iff.mp hletter
    exact ⟨['c', letter], hc.trans (Cursor.passes_of_next? hafter),
      .control (isAlphanum_of_isControlLetter hcontrol)⟩
  next =>
    split at h <;> cases h
    refine ⟨[], .refl c, .backslash ?_⟩
    rw [hc.1]
    rfl

theorem escapeText_legacyDecimal (next : c.next? = some (ch, d)) (hdigit : ch.isDigit) :
    EscapeText c (legacyDecimal c).2 n := by
  have hletter := ofLetter?_eq_none_of_isDigit hdigit
  have hch := isAlphanum_of_isDigit hdigit
  unfold legacyDecimal
  split
  next hoctal =>
    unfold Cursor.octalEscape? at hoctal
    split at hoctal
    next => cases hoctal
    next first f hfirst =>
      obtain ⟨_, -, hf⟩ := Option.map_eq_some_iff.mp (by rwa [Cursor.digit?, next] at hfirst)
      obtain rfl : d = f := congrArg Prod.snd hf
      have hdigits := Cursor.passesOnly_octalDigits (if first ≤ 3 then 2 else 1) first d
      rw [Option.some.inj hoctal] at hdigits
      exact escapeText_of_passesOnly next hletter hch
        (hdigits.mono fun _ => isCodeCharacter_of_isAlphanum)
  next =>
    rw [next]
    exact escapeText_of_escaped next hletter (.inl hch)

theorem escapeText_of_digitEscape (next : c.next? = some (ch, d)) (hdigit : ch.isDigit)
    (h : digitEscape unicode start ch c d = .ok (n, e)) : EscapeText c e n := by
  unfold digitEscape at h
  split at h
  next =>
    cases h
    exact escapeText_of_escaped next (ofLetter?_eq_none_of_isDigit hdigit)
      (.inl (isAlphanum_of_isDigit hdigit))
  next =>
    split at h <;> cases h
    exact escapeText_legacyDecimal next hdigit

theorem escapeText_of_hexEscape (next : c.next? = some ('x', d))
    (h : hexEscape unicode start d = .ok (n, e)) : EscapeText c e n := by
  unfold hexEscape at h
  split at h
  next hdigits =>
    cases h
    exact escapeText_of_passesOnly next rfl rfl
      ((Cursor.passesOnly_of_hexDigits? hdigits).mono fun _ => isCodeCharacter_of_isAlphanum)
  next =>
    split at h <;> cases h
    exact escapeText_of_escaped next rfl (.inl rfl)

theorem passesOnly_of_bracedCodePoint (h : bracedCodePoint start d = .ok (n, e)) :
    PassesOnly isCodeCharacter d e := by
  have hdigits := (Cursor.passesOnly_hexUpTo 0x10ffff d).mono
    fun _ => isCodeCharacter_of_isAlphanum
  unfold bracedCodePoint at h
  split at h
  next => cases h
  next hcode =>
    rw [hcode] at hdigits
    split at h <;> cases h
    next hclose => exact hdigits.trans (Cursor.passesOnly_of_eat? hclose rfl)

theorem escapeText_of_unicodeEscape (next : c.next? = some ('u', d))
    (h : unicodeEscape unicode start d = .ok (n, e)) : EscapeText c e n := by
  unfold unicodeEscape at h
  split at h
  next f hbrace =>
    split at hbrace
    next =>
      exact escapeText_of_passesOnly next rfl rfl
        ((Cursor.passesOnly_of_eat? hbrace rfl).trans (passesOnly_of_bracedCodePoint h))
    next => cases hbrace
  next =>
    split at h
    next =>
      split at h <;> cases h
      exact escapeText_of_escaped next rfl (.inl rfl)
    next unit f hunit =>
      have hhigh := (Cursor.passesOnly_of_hexDigits? hunit).mono
        fun _ => isCodeCharacter_of_isAlphanum
      split at h
      next =>
        cases h
        exact escapeText_of_passesOnly next rfl rfl hhigh
      next low g hpair =>
        simp only [Except.ok.injEq, Prod.mk.injEq] at h
        obtain ⟨-, rfl⟩ := h
        split at hpair
        next =>
          unfold lowSurrogate? at hpair
          split at hpair
          next => cases hpair
          next k hmark =>
            obtain ⟨hlow, -⟩ := Option.filter_eq_some_iff.mp hpair
            obtain ⟨v, hv, hvcode⟩ := hhigh
            obtain ⟨w, hw, hwcode⟩ := (Cursor.passesOnly_of_hexDigits? hlow).mono
              fun _ => isCodeCharacter_of_isAlphanum
            have hpasses := (Cursor.passes_of_next? next).trans
              (hv.trans ((Cursor.passes_of_eatAll? hmark).trans hw))
            exact ⟨_, hpasses, .pair hvcode hwcode⟩
        next => cases hpair

theorem escapeText_of_characterEscape (next : c.next? = some (ch, d))
    (hletter : ClassEscape.ofLetter? ch = none)
    (h : characterEscape unicode true start c = .ok (n, e)) : EscapeText c e n := by
  unfold characterEscape at h
  simp only [next] at h
  split at h
  next hcontrol =>
    cases h
    exact escapeText_of_escaped next hletter (.inl (isAlphanum_of_controlCode? hcontrol))
  split at h
  next hc =>
    subst hc
    exact escapeText_of_controlEscape next h
  split at h
  next hdigit => exact escapeText_of_digitEscape next hdigit h
  split at h
  next hx =>
    subst hx
    exact escapeText_of_hexEscape next h
  split at h
  next hu =>
    subst hu
    exact escapeText_of_unicodeEscape next h
  split at h <;> cases h
  exact escapeText_of_escaped next hletter (.inr rfl)

theorem classAtomText_of_propertyEscape {negated : Bool} {p : Property}
    (next : c.next? = some (ch, d)) (hch : ch = 'p' ∨ ch = 'P')
    (h : propertyEscape negated start d = .ok (p, e)) :
    ∃ w, c.Passes w e ∧ ClassAtomText e.rest ('\\' :: w) (.property p) := by
  unfold propertyEscape at h
  split at h
  next => cases h
  next f hopen =>
    dsimp only at h
    split at h
    next => cases h
    next hclose =>
      split at h <;> cases h
      have hpasses := (Cursor.passes_of_next? next).trans ((Cursor.passes_of_eat? hopen).trans
        ((Cursor.passes_takeWhile isPropertyCharacter f).trans (Cursor.passes_of_eat? hclose)))
      exact ⟨_, hpasses, .property hch (List.all_eq_true.mp List.all_takeWhile)⟩

theorem classAtomText_of_classEscapeAtom {a : ClassAtom}
    (h : classEscapeAtom unicode opening start c = .ok (a, e)) :
    ∃ w, c.Passes w e ∧ ClassAtomText e.rest ('\\' :: w) a := by
  unfold classEscapeAtom at h
  split at h
  next => cases h
  next ch d next =>
    split at h
    next kind hletter =>
      cases h
      exact ⟨[ch], Cursor.passes_of_next? next, .classEscape hletter⟩
    next hletter =>
    split at h
    next hb =>
      cases h
      subst hb
      exact escapeText_of_escaped next hletter (.inl rfl)
    split at h
    next hproperty =>
      obtain ⟨⟨p, f⟩, hp, heq⟩ := map_eq_ok.mp h
      cases heq
      have hch : ch = 'p' ∨ ch = 'P' := by simpa using (Bool.and_eq_true_iff.mp hproperty).2
      exact classAtomText_of_propertyEscape next hch hp
    split at h
    next => cases h
    next =>
      obtain ⟨⟨n, f⟩, hn, heq⟩ := map_eq_ok.mp h
      cases heq
      exact escapeText_of_characterEscape next hletter hn

/-- Whatever is read as an atom of a class has the text of one. -/
theorem classAtomText_of_classAtom {a : ClassAtom}
    (h : classAtom unicode opening c = .ok (a, d)) :
    ∃ t, c.Passes t d ∧ ClassAtomText d.rest t a := by
  unfold classAtom at h
  split at h
  next => cases h
  next ch b first =>
    have hfirst := Cursor.passes_of_next? first
    split at h
    next hbackslash =>
      subst hbackslash
      obtain ⟨w, hw, htext⟩ := classAtomText_of_classEscapeAtom h
      exact ⟨_, hfirst.trans hw, htext⟩
    next hbackslash =>
      cases h
      exact ⟨[ch], hfirst, .plain hbackslash⟩

end

/-! ### Places of characters in such a text -/

namespace ClassAtomText

variable {behind t v w : List Char} {a : ClassAtom} {ch : Char}

/-- A hyphen behind the first character is the one of an escaped hyphen. -/
theorem eq_of_hyphen_mem_tail (h : ClassAtomText behind t a) (hmem : '-' ∈ t.tail) :
    t = ['\\', '-'] := by
  cases h with
  | plain => cases hmem
  | backslash => cases hmem
  | classEscape hletter =>
    obtain rfl := List.mem_singleton.mp hmem
    cases hletter
  | escaped =>
    obtain rfl := List.mem_singleton.mp hmem
    rfl
  | @control letter hletter =>
    obtain rfl : '-' = letter := by simpa using hmem
    simp at hletter
  | coded _ code => cases code _ hmem
  | @pair v w _ high low =>
    have hmem : '-' ∈ v ∨ '-' ∈ w := by simpa using hmem
    rcases hmem with hmem | hmem
    · cases high _ hmem
    · cases low _ hmem
  | @property first w _ hfirst name =>
    have hmem : '-' = first ∨ '-' ∈ w := by simpa using hmem
    rcases hmem with rfl | hmem
    · simp at hfirst
    · cases name _ hmem

/-- Class escapes end with their letter and properties with a brace. -/
theorem exists_code_of_last (h : ClassAtomText behind (v ++ [ch]) a)
    (hletter : ClassEscape.ofLetter? ch = none) (hbrace : ch ≠ '}') : ∃ n, a = .code n := by
  generalize ht : v ++ [ch] = t at h
  have hlast := congrArg List.getLast? ht
  rw [List.getLast?_concat] at hlast
  cases h with
  | classEscape hkind =>
    obtain rfl : ch = _ := Option.some.inj hlast
    rw [hletter] at hkind
    cases hkind
  | property =>
    rw [List.getLast?_concat] at hlast
    exact absurd (Option.some.inj hlast) hbrace
  | _ => exact ⟨_, rfl⟩

theorem cases_of_underscore_mem (h : ClassAtomText behind t a) (hmem : '_' ∈ t) :
    ((t = ['_'] ∨ t = ['\\', '_']) ∧ a = .code '_'.toNat) ∨ t = ['\\', 'c', '_'] ∨
      ∃ p, a = .property p := by
  cases h with
  | plain =>
    obtain rfl := List.mem_singleton.mp hmem
    exact .inl ⟨.inl rfl, rfl⟩
  | backslash => simp at hmem
  | classEscape hletter =>
    obtain rfl : '_' = _ := by simpa using hmem
    cases hletter
  | escaped _ code =>
    obtain rfl : '_' = _ := by simpa using hmem
    obtain halphanum | rfl := code
    · cases halphanum
    · exact .inl ⟨.inr rfl, rfl⟩
  | control =>
    obtain rfl : '_' = _ := by simpa using hmem
    exact .inr (.inl rfl)
  | coded _ code => cases code _ (List.mem_of_ne_of_mem (by decide) hmem)
  | @pair v w _ high low =>
    have hmem : '_' ∈ v ∨ '_' ∈ w := by simpa using hmem
    rcases hmem with hmem | hmem
    · cases high _ hmem
    · cases low _ hmem
  | property => exact .inr (.inr ⟨_, rfl⟩)

/-- An underscore stands for itself but in a control escape and in a property. -/
theorem cases_of_underscore (h : ClassAtomText behind (v ++ '_' :: w) a) :
    (w = [] ∧ a = .code '_'.toNat) ∨ (v = ['\\', 'c'] ∧ w = []) ∨ ∃ p, a = .property p := by
  have split {s : List Char} (hs : '_' ∉ s) (ht : v ++ '_' :: w = s ++ ['_']) :
      v = s ∧ w = [] := by
    obtain ⟨rfl, -, rfl⟩ := (List.append_cons_inj_of_notMem hs List.not_mem_nil).mp ht.symm
    exact ⟨rfl, rfl⟩
  obtain ⟨ht | ht, rfl⟩ | ht | hp := h.cases_of_underscore_mem (by simp)
  · exact .inl ⟨(split (s := []) (by decide) ht).2, rfl⟩
  · exact .inl ⟨(split (s := ['\\']) (by decide) ht).2, rfl⟩
  · exact .inr (.inl (split (s := ['\\', 'c']) (by decide) ht))
  · exact .inr (.inr hp)

/-- A backslash with an `s` behind it begins the escape for a space, unless it is escaped. -/
theorem cases_of_space (h : ClassAtomText behind (v ++ '\\' :: w) a)
    (hnext : (w ++ behind).head? = some 's') :
    (v = [] ∧ a = .escape .space) ∨ (v = ['\\'] ∧ w = []) := by
  generalize ht : v ++ '\\' :: w = t at h
  cases v with
  | nil =>
    rw [List.nil_append] at ht
    cases h with
    | plain hplain => exact absurd (List.cons.inj ht).1.symm hplain
    | backslash hbehind =>
      obtain rfl := (List.cons.inj ht).2
      rw [List.nil_append, hbehind] at hnext
      cases hnext
    | classEscape hletter =>
      obtain rfl := (List.cons.inj ht).2
      obtain rfl : _ = 's' := Option.some.inj hnext
      cases hletter
      exact .inl ⟨rfl, rfl⟩
    | escaped hletter =>
      obtain rfl := (List.cons.inj ht).2
      obtain rfl : _ = 's' := Option.some.inj hnext
      cases hletter
    | control =>
      obtain rfl := (List.cons.inj ht).2
      cases hnext
    | coded hletter =>
      obtain rfl := (List.cons.inj ht).2
      obtain rfl : _ = 's' := Option.some.inj hnext
      cases hletter
    | pair =>
      obtain rfl := (List.cons.inj ht).2
      cases hnext
    | property hfirst =>
      obtain rfl := (List.cons.inj ht).2
      obtain rfl : _ = 's' := Option.some.inj hnext
      rcases hfirst with hfirst | hfirst <;> cases hfirst
  | cons x v =>
    have hmem : '\\' ∈ t.tail := by simp [← ht]
    cases h with
    | plain => cases hmem
    | backslash => cases hmem
    | classEscape hletter =>
      obtain rfl := List.mem_singleton.mp hmem
      cases hletter
    | escaped =>
      obtain ⟨rfl, hrest⟩ := List.cons.inj ht
      obtain ⟨rfl, hw⟩ | ⟨-, hw⟩ := List.append_eq_singleton_iff.mp hrest
      · exact .inr ⟨rfl, (List.cons.inj hw).2⟩
      · cases hw
    | @control letter hletter =>
      obtain rfl : '\\' = letter := by simpa using hmem
      simp at hletter
    | coded _ code => cases code _ hmem
    | @pair high low _ hhigh hlow =>
      have hnotHigh : '\\' ∉ 'u' :: high := by
        intro hmem
        cases hhigh _ (List.mem_of_ne_of_mem (by decide) hmem)
      have hnotLow : '\\' ∉ 'u' :: low := by
        intro hmem
        cases hlow _ (List.mem_of_ne_of_mem (by decide) hmem)
      have hsplit := (List.append_cons_inj_of_notMem hnotHigh hnotLow).mp (List.cons.inj ht).2.symm
      obtain ⟨-, -, rfl⟩ := hsplit
      cases hnext
    | @property first name _ hfirst hname =>
      have hmem : '\\' = first ∨ '\\' ∈ name := by simpa using hmem
      rcases hmem with rfl | hmem
      · simp at hfirst
      · cases hname _ hmem

end ClassAtomText

end PatternBlocks.Grammar
