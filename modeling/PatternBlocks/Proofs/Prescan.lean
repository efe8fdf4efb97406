import PatternBlocks.Grammar.Disjunction
import PatternBlocks.Proofs.DigitRuns

/-!
The count of groups ahead of parsing goes on from where a reader stops as it would have gone on
from where the reader began, for every reader that opens no group.
-/
namespace PatternBlocks

theorem map_eq_ok {ε α β : Type} {x : Except ε α} {f : α → β} {b : β} :
    x.map f = .ok b ↔ ∃ a, x = .ok a ∧ f a = b := by
  cases x <;> simp [Except.map]

theorem map_eq_error {ε α β : Type} {x : Except ε α} {f : α → β} {e : ε} :
    x.map f = .error e ↔ x = .error e := by
  cases x <;> simp [Except.map]

/-- A result that passes a check is there. -/
theorem exists_of_any {ε α : Type} {x : Except ε α} {check : α → Bool}
    (h : x.toOption.any check) : ∃ a, x = .ok a ∧ check a := by
  cases x with
  | error => cases h
  | ok a => exact ⟨a, rfl, h⟩

namespace Capture

/-- Characters that the count passes over one at a time, inside brackets and outside. -/
def isPlain (ch : Char) : Bool := ch ≠ '\\' && ch ≠ '[' && ch ≠ ']' && ch ≠ '('

theorem isPlain_iff {ch : Char} :
    isPlain ch ↔ ch ≠ '\\' ∧ ch ≠ '[' ∧ ch ≠ ']' ∧ ch ≠ '(' := by
  simp [isPlain, and_assoc]

/-- A class of characters is plain if none of the four marks belongs to it. -/
theorem isPlain_of_mem {p : Char → Bool} {ch : Char} (h : p ch)
    (hp : (p '\\' || p '[' || p ']' || p '(') = false) : isPlain ch := by
  simp only [Bool.or_eq_false_iff] at hp
  obtain ⟨⟨⟨hb, ho⟩, hc⟩, hg⟩ := hp
  rw [isPlain_iff]
  refine ⟨?_, ?_, ?_, ?_⟩ <;> rintro rfl <;> simp_all

theorem isPlain_of_isContinue {ch : Char} (h : GroupName.isContinue ch) : isPlain ch :=
  isPlain_of_mem h (by decide +kernel)

theorem isPlain_of_isStart {ch : Char} (h : GroupName.isStart ch) : isPlain ch :=
  isPlain_of_mem h (by decide +kernel)

theorem isPlain_of_isAlphanum {ch : Char} (h : ch.isAlphanum) : isPlain ch :=
  isPlain_of_mem h (by decide)

theorem ofChars_cons_of_isPlain {ch : Char} (h : isPlain ch) (inClass : Bool) (rest : List Char) :
    Scan.ofChars inClass (ch :: rest) = Scan.ofChars inClass rest := by
  obtain ⟨hb, ho, hc, hg⟩ := isPlain_iff.mp h
  rw [Scan.ofChars.eq_def]
  cases inClass <;> simp [hb, ho, hc, hg]

theorem ofChars_append_of_isPlain {w : List Char} (h : ∀ ch ∈ w, isPlain ch) (inClass : Bool)
    (rest : List Char) : Scan.ofChars inClass (w ++ rest) = Scan.ofChars inClass rest := by
  induction w with
  | nil => rfl
  | cons ch w ih =>
    have hw : ∀ ch ∈ w, isPlain ch := fun x hx => h x (List.mem_cons_of_mem _ hx)
    rw [List.cons_append, ofChars_cons_of_isPlain (h ch List.mem_cons_self), ih hw]

end Capture

open Capture

namespace Cursor

/-- The count goes on from `d` as it does from `c`, inside brackets and outside. -/
def SkippedTo (c d : Cursor) : Prop :=
  ∀ inClass, Scan.ofChars inClass c.rest = Scan.ofChars inClass d.rest

/-- The same for a cursor behind a backslash. -/
def EscapeSkippedTo (c d : Cursor) : Prop :=
  ∀ inClass, Scan.ofChars inClass ('\\' :: c.rest) = Scan.ofChars inClass d.rest

theorem SkippedTo.refl (c : Cursor) : c.SkippedTo c := fun _ => rfl

theorem SkippedTo.trans {c d e : Cursor} (h : c.SkippedTo d) (k : d.SkippedTo e) :
    c.SkippedTo e :=
  fun inClass => (h inClass).trans (k inClass)

theorem EscapeSkippedTo.trans {c d e : Cursor} (h : c.EscapeSkippedTo d) (k : d.SkippedTo e) :
    c.EscapeSkippedTo e :=
  fun inClass => (h inClass).trans (k inClass)

theorem Passes.skippedTo {c d : Cursor} {w : List Char} (h : c.Passes w d)
    (hw : ∀ ch ∈ w, isPlain ch) : c.SkippedTo d := by
  intro inClass
  rw [h.1, ofChars_append_of_isPlain hw]

theorem skippedTo_of_next? {c d : Cursor} {ch : Char} (h : c.next? = some (ch, d))
    (hch : isPlain ch) : c.SkippedTo d :=
  (passes_of_next? h).skippedTo (by simpa using hch)

theorem skippedTo_of_eat? {c d : Cursor} {ch : Char} (h : c.eat? ch = some d)
    (hch : isPlain ch) : c.SkippedTo d :=
  (passes_of_eat? h).skippedTo (by simpa using hch)

/-- The character behind a backslash is skipped whatever it is. -/
theorem escapeSkippedTo_of_next? {c d : Cursor} {ch : Char} (h : c.next? = some (ch, d)) :
    c.EscapeSkippedTo d := by
  intro inClass
  rw [(passes_of_next? h).1, Scan.ofChars.eq_def]
  simp

/-- A backslash before a plain character may as well not be there. -/
theorem escapeSkippedTo_self {c d : Cursor} {ch : Char} (h : c.next? = some (ch, d))
    (hch : isPlain ch) : c.EscapeSkippedTo c := by
  intro inClass
  rw [escapeSkippedTo_of_next? h, skippedTo_of_next? h hch]

theorem skippedTo_takeWhile {p : Char → Bool} (hp : ∀ ch, p ch → isPlain ch) (c : Cursor) :
    c.SkippedTo (c.takeWhile p).2 :=
  (passes_takeWhile p c).skippedTo fun ch hch =>
    hp ch (List.all_eq_true.mp List.all_takeWhile ch hch)

theorem skippedTo_of_groupName? {c d : Cursor} {name : String}
    (h : c.groupName? = some (name, d)) : c.SkippedTo d := by
  unfold groupName? at h
  split at h
  next => cases h
  next first e he =>
    split at h
    next hf =>
      cases h
      exact (skippedTo_of_next? he (isPlain_of_isStart hf)).trans
        (skippedTo_takeWhile (fun _ => isPlain_of_isContinue) e)
    next => cases h

theorem PassesOnly.skippedTo {c d : Cursor} (h : PassesOnly Char.isAlphanum c d) :
    c.SkippedTo d := by
  obtain ⟨w, hw, hdigits⟩ := h
  exact hw.skippedTo fun ch hch => isPlain_of_isAlphanum (hdigits ch hch)

end Cursor

namespace Grammar

theorem isPlain_of_isControlLetter {unicode inClass : Bool} {ch : Char}
    (h : isControlLetter unicode inClass ch) : isPlain ch :=
  isPlain_of_mem h (by cases unicode <;> cases inClass <;> decide)

theorem isPlain_of_isPropertyCharacter {ch : Char} (h : isPropertyCharacter ch) : isPlain ch :=
  isPlain_of_mem h (by decide)

theorem isPlain_of_isDigit {ch : Char} (h : ch.isDigit) : isPlain ch :=
  isPlain_of_mem h (by decide)

theorem skippedTo_legacyDecimal {c d : Cursor} {ch : Char} (h : c.next? = some (ch, d))
    (hch : isPlain ch) : c.SkippedTo (legacyDecimal c).2 := by
  unfold legacyDecimal
  split
  next ho => exact (Cursor.passesOnly_of_octalEscape? ho).skippedTo
  next =>
    rw [h]
    exact Cursor.skippedTo_of_next? h hch

theorem escapeSkippedTo_of_controlEscape {unicode inClass : Bool} {start n : Nat}
    {c d e : Cursor} (h : c.next? = some ('c', d))
    (he : controlEscape unicode inClass start c d = .ok (n, e)) : c.EscapeSkippedTo e := by
  unfold controlEscape at he
  split at he
  next letter f hf =>
    cases he
    obtain ⟨hf, hl⟩ := Option.filter_eq_some_iff.mp hf
    exact (Cursor.escapeSkippedTo_of_next? h).trans
      (Cursor.skippedTo_of_next? hf (isPlain_of_isControlLetter hl))
  next =>
    split at he
    next => cases he
    next =>
      cases he
      exact Cursor.escapeSkippedTo_self h (by decide)

theorem escapeSkippedTo_of_digitEscape {unicode : Bool} {start n : Nat} {ch : Char}
    {c d e : Cursor} (h : c.next? = some (ch, d)) (hch : ch.isDigit)
    (he : digitEscape unicode start ch c d = .ok (n, e)) : c.EscapeSkippedTo e := by
  unfold digitEscape at he
  split at he
  next =>
    cases he
    exact Cursor.escapeSkippedTo_of_next? h
  next =>
    split at he
    next => cases he
    next =>
      cases he
      have hp := isPlain_of_isDigit hch
      exact (Cursor.escapeSkippedTo_self h hp).trans (skippedTo_legacyDecimal h hp)

theorem skippedTo_of_hexEscape {unicode : Bool} {start n : Nat} {c d : Cursor}
    (h : hexEscape unicode start c = .ok (n, d)) : c.SkippedTo d := by
  unfold hexEscape at h
  split at h
  next he =>
    cases h
    exact (Cursor.passesOnly_of_hexDigits? he).skippedTo
  next =>
    split at h <;> cases h
    exact .refl _

theorem skippedTo_of_bracedCodePoint {start n : Nat} {c d : Cursor}
    (h : bracedCodePoint start c = .ok (n, d)) : c.SkippedTo d := by
  have hc := (Cursor.passesOnly_hexUpTo 0x10ffff c).skippedTo
  unfold bracedCodePoint at h
  split at h
  next => cases h
  next he =>
    rw [he] at hc
    split at h
    next => cases h
    next hf =>
      cases h
      exact hc.trans (Cursor.skippedTo_of_eat? hf (by decide))

/-- The second half of a surrogate pair is an escape of its own to the count. -/
theorem skippedTo_of_lowSurrogate? {n : Nat} {c d : Cursor}
    (h : lowSurrogate? c = some (n, d)) : c.SkippedTo d := by
  unfold lowSurrogate? at h
  split at h
  next => cases h
  next e he =>
    obtain ⟨hx, -⟩ := Option.filter_eq_some_iff.mp h
    have hce : c.SkippedTo e := by
      intro inClass
      rw [(Cursor.passes_of_eatAll? he).1, Scan.ofChars.eq_def]
      simp
    exact hce.trans (Cursor.passesOnly_of_hexDigits? hx).skippedTo

theorem skippedTo_of_unicodeEscape {unicode : Bool} {start n : Nat} {c d : Cursor}
    (h : unicodeEscape unicode start c = .ok (n, d)) : c.SkippedTo d := by
  unfold unicodeEscape at h
  split at h
  next he =>
    split at he
    next => exact (Cursor.skippedTo_of_eat? he (by decide)).trans (skippedTo_of_bracedCodePoint h)
    next => cases he
  next =>
    split at h
    next =>
      split at h <;> cases h
      exact .refl _
    next hd =>
      have hcd := (Cursor.passesOnly_of_hexDigits? hd).skippedTo
      split at h
      next =>
        cases h
        exact hcd
      next he =>
        simp only [Except.ok.injEq, Prod.mk.injEq] at h
        obtain ⟨-, rfl⟩ := h
        split at he
        next => exact hcd.trans (skippedTo_of_lowSurrogate? he)
        next => cases he

theorem escapeSkippedTo_of_characterEscape {unicode inClass : Bool} {start n : Nat}
    {c d : Cursor} (h : characterEscape unicode inClass start c = .ok (n, d)) :
    c.EscapeSkippedTo d := by
  unfold characterEscape at h
  split at h
  next => cases h
  next ch e he =>
    have hce := Cursor.escapeSkippedTo_of_next? he
    split at h
    next =>
      cases h
      exact hce
    next =>
      split at h
      next hc =>
        subst hc
        exact escapeSkippedTo_of_controlEscape he h
      split at h
      next hd => exact escapeSkippedTo_of_digitEscape he hd h
      split at h
      next => exact hce.trans (skippedTo_of_hexEscape h)
      split at h
      next => exact hce.trans (skippedTo_of_unicodeEscape h)
      split at h
      next => cases h
      next =>
        cases h
        exact hce

theorem skippedTo_of_propertyEscape {negated : Bool} {start : Nat} {p : Property} {c d : Cursor}
    (h : propertyEscape negated start c = .ok (p, d)) : c.SkippedTo d := by
  unfold propertyEscape at h
  split at h
  next => cases h
  next e he =>
    dsimp only at h
    split at h
    next => cases h
    next hf =>
      split at h
      next => cases h
      next =>
        cases h
        exact (Cursor.skippedTo_of_eat? he (by decide)).trans
          ((Cursor.skippedTo_takeWhile (fun _ => isPlain_of_isPropertyCharacter) e).trans
            (Cursor.skippedTo_of_eat? hf (by decide)))

/-- Inside brackets. -/
theorem escapeSkippedTo_of_classEscapeAtom {unicode : Bool} {opening start : Nat}
    {atom : ClassAtom} {c d : Cursor}
    (h : classEscapeAtom unicode opening start c = .ok (atom, d)) : c.EscapeSkippedTo d := by
  unfold classEscapeAtom at h
  split at h
  next => cases h
  next ch e he =>
    have hce := Cursor.escapeSkippedTo_of_next? he
    split at h
    next =>
      cases h
      exact hce
    split at h
    next =>
      cases h
      exact hce
    split at h
    next =>
      obtain ⟨p, hp, heq⟩ := map_eq_ok.mp h
      cases heq
      exact hce.trans (skippedTo_of_propertyEscape hp)
    split at h
    next => cases h
    next =>
      obtain ⟨n, hn, heq⟩ := map_eq_ok.mp h
      cases heq
      exact escapeSkippedTo_of_characterEscape hn

/-- The count inside brackets goes on from `d` as it does from `c`. -/
def MemberSkippedTo (c d : Cursor) : Prop := Scan.ofChars true c.rest = Scan.ofChars true d.rest

theorem ofChars_true_cons {ch : Char} (hb : ch ≠ '\\') (hc : ch ≠ ']') (rest : List Char) :
    Scan.ofChars true (ch :: rest) = Scan.ofChars true rest := by
  rw [Scan.ofChars.eq_def]
  simp [hb, hc]

theorem memberSkippedTo_of_classAtom {unicode : Bool} {opening : Nat} {atom : ClassAtom}
    {c d : Cursor} (hc : c.peek? ≠ some ']')
    (h : classAtom unicode opening c = .ok (atom, d)) : MemberSkippedTo c d := by
  unfold classAtom at h
  split at h
  next => cases h
  next ch e he =>
    have hrest := (Cursor.passes_of_next? he).1
    unfold MemberSkippedTo
    split at h
    next hch =>
      rw [hrest, hch]
      exact escapeSkippedTo_of_classEscapeAtom h true
    next hch =>
      cases h
      have hne : ch ≠ ']' := by
        rintro rfl
        exact hc (by simp [Cursor.peek?, hrest])
      rw [hrest]
      exact ofChars_true_cons hch hne _

theorem skippedTo_of_rangeHyphen? {c d : Cursor} (h : rangeHyphen? c = some d) :
    c.SkippedTo d ∧ d.peek? ≠ some ']' := by
  unfold rangeHyphen? at h
  split at h
  next => cases h
  next he =>
    split at h
    next => cases h
    next hp =>
      cases h
      refine ⟨Cursor.skippedTo_of_eat? he (by decide), fun hs => hp ?_⟩
      simp [hs]

theorem memberSkippedTo_of_classMember {unicode : Bool} {opening : Nat} {items : List ClassItem}
    {c d : Cursor} (hc : c.peek? ≠ some ']')
    (h : classMember unicode opening c = .ok (items, d)) : MemberSkippedTo c d := by
  unfold classMember at h
  split at h
  next => cases h
  next low e he =>
    have hce := memberSkippedTo_of_classAtom hc he
    split at h
    next =>
      cases h
      exact hce
    next f hf =>
      obtain ⟨hef, hpeek⟩ := skippedTo_of_rangeHyphen? hf
      split at h
      next => cases h
      next hg =>
        cases eq_of_joinAtoms h
        exact hce.trans ((hef true).trans (memberSkippedTo_of_classAtom hpeek hg))

/-- Members end at a bracket that the count takes for the closing one too. -/
theorem memberSkippedTo_of_classMembers {unicode : Bool} {opening : Nat}
    {items : List ClassItem} {c d : Cursor}
    (h : classMembers unicode opening c = .ok (items, d)) :
    MemberSkippedTo c d ∧ d.peek? = some ']' := by
  fun_induction classMembers unicode opening c generalizing items with
  | case1 => cases h
  | case2 c hc =>
    cases h
    exact ⟨rfl, hc⟩
  | case3 => cases h
  | case4 => cases h
  | case5 c ch hne hc items' e he more f hf ih =>
    cases h
    have hpeek : c.peek? ≠ some ']' := by
      intro hs
      exact hne (Option.some.inj (hc.symm.trans hs))
    obtain ⟨hef, hd⟩ := ih hf
    exact ⟨(memberSkippedTo_of_classMember hpeek he).trans hef, hd⟩

/-- A bracket expression after its opening bracket is left again by the count. -/
theorem ofChars_of_bracketBody {unicode : Bool} {opening : Nat} {b : Bracket} {c d : Cursor}
    (h : bracketBody unicode opening c = .ok (b, d)) :
    Scan.ofChars true c.rest = Scan.ofChars false d.rest := by
  have hneg : c.SkippedTo (negation c).2 := by
    unfold negation
    split
    next => exact .refl _
    next he => exact Cursor.skippedTo_of_eat? he (by decide)
  unfold bracketBody at h
  dsimp only at h
  split at h
  next => cases h
  next he =>
    obtain ⟨hmembers, hpeek⟩ := memberSkippedTo_of_classMembers he
    split at h
    next => cases h
    next ch f hf =>
      cases h
      have hrest := (Cursor.passes_of_next? hf).1
      have hch : ch = ']' := by simpa [Cursor.peek?, hrest] using hpeek
      rw [hneg true, hmembers, hrest, hch, Scan.ofChars.eq_def]
      simp

theorem escapeSkippedTo_of_decimalEscape {mode : Mode} {start : Nat} {r : Regex} {ch : Char}
    {c d e : Cursor} (hd : c.next? = some (ch, d)) (hch : ch.isDigit)
    (h : decimalEscape mode start c = .ok (r, e)) : c.EscapeSkippedTo e := by
  have hp := isPlain_of_isDigit hch
  have hself := Cursor.escapeSkippedTo_self hd hp
  have hdigits : c.SkippedTo (c.decimal?.getD (0, c)).2 := by
    cases hn : c.decimal? with
    | none => exact .refl _
    | some digits => exact (Cursor.passesOnly_of_decimal? hn).skippedTo
  unfold decimalEscape at h
  dsimp only at h
  split at h
  next =>
    cases h
    exact hself.trans hdigits
  next =>
    split at h
    next => cases h
    next =>
      cases h
      exact hself.trans (skippedTo_legacyDecimal hd hp)

theorem skippedTo_of_namedBackref {mode : Mode} {start : Nat} {r : Regex} {c d : Cursor}
    (h : namedBackref mode start c = .ok (r, d)) : c.SkippedTo d := by
  unfold namedBackref at h
  split at h
  next =>
    cases h
    exact .refl _
  split at h
  next => cases h
  next he =>
    split at h
    next => cases h
    next hf =>
      split at h
      next => cases h
      next hg =>
        cases h
        exact (Cursor.skippedTo_of_eat? he (by decide)).trans
          ((Cursor.skippedTo_of_groupName? hf).trans (Cursor.skippedTo_of_eat? hg (by decide)))

theorem escapeSkippedTo_of_characterAtom {unicode : Bool} {start : Nat} {r : Regex}
    {c d : Cursor} (h : characterAtom unicode start c = .ok (r, d)) : c.EscapeSkippedTo d := by
  unfold characterAtom at h
  split at h
  next => cases h
  next he =>
    split at h <;> cases h
    exact escapeSkippedTo_of_characterEscape he

theorem escapeSkippedTo_of_atomEscape {mode : Mode} {start : Nat} {r : Regex} {c d : Cursor}
    (h : atomEscape mode start c = .ok (r, d)) : c.EscapeSkippedTo d := by
  unfold atomEscape at h
  split at h
  next => cases h
  next ch e he =>
    have hce := Cursor.escapeSkippedTo_of_next? he
    split at h
    next =>
      cases h
      exact hce
    split at h
    next =>
      cases h
      exact hce
    split at h
    next =>
      cases h
      exact hce
    split at h
    next =>
      obtain ⟨p, hp, heq⟩ := map_eq_ok.mp h
      cases heq
      exact hce.trans (skippedTo_of_propertyEscape hp)
    split at h
    next => exact hce.trans (skippedTo_of_namedBackref h)
    split at h
    next hd =>
      simp only [Bool.and_eq_true] at hd
      exact escapeSkippedTo_of_decimalEscape he hd.1 h
    next => exact escapeSkippedTo_of_characterAtom h

/-- An atom that opens no group leaves the count outside brackets, where it was. -/
theorem ofChars_of_plainAtom {mode : Mode} {ch : Char} {r : Regex} {c d e : Cursor}
    (hd : c.next? = some (ch, d)) (hch : ch ≠ '(') (h : plainAtom mode ch c d = .ok (r, e)) :
    Scan.ofChars false c.rest = Scan.ofChars false e.rest := by
  have hrest := (Cursor.passes_of_next? hd).1
  have hplain (hb : ch ≠ '\\') (ho : ch ≠ '[') :
      Scan.ofChars false c.rest = Scan.ofChars false d.rest := by
    rw [hrest, Scan.ofChars.eq_def]
    simp [hb, ho, hch]
  unfold plainAtom at h
  dsimp only at h
  iterate 3
    split at h
    next hs =>
      cases h
      exact hplain (by rw [hs]; decide) (by rw [hs]; decide)
  split at h
  next ho =>
    obtain ⟨b, hb, heq⟩ := map_eq_ok.mp h
    cases heq
    rw [hrest, ho, Scan.ofChars.eq_def]
    simpa using ofChars_of_bracketBody hb
  next ho =>
    split at h
    next hb =>
      rw [hrest, hb]
      exact escapeSkippedTo_of_atomEscape h false
    next hb =>
      split at h
      next => cases h
      split at h
      next =>
        unfold braceAtom at h
        split at h <;> cases h
        exact hplain hb ho
      split at h
      next => cases h
      next =>
        cases h
        exact hplain hb ho

theorem skippedTo_upperBound (least : Nat) (c : Cursor) :
    c.SkippedTo (upperBound least c).2 := by
  unfold upperBound
  split
  next => exact .refl _
  next hd =>
    have hcd := Cursor.skippedTo_of_eat? hd (by decide)
    split
    next => exact hcd
    next he => exact hcd.trans (Cursor.passesOnly_of_decimal? he).skippedTo

theorem skippedTo_bounds (c : Cursor) : c.SkippedTo (bounds c).2 := by
  unfold bounds
  split
  next => exact .refl _
  next least d hd =>
    have hcu := (Cursor.passesOnly_of_decimal? hd).skippedTo.trans (skippedTo_upperBound least d)
    dsimp only
    split
    next => exact hcu
    next he => exact hcu.trans (Cursor.skippedTo_of_eat? he (by decide))

theorem skippedTo_of_braces? {unicode : Bool} {c d : Cursor} {count : Count}
    (h : braces? unicode c = .ok (some (count, d))) : c.SkippedTo d := by
  unfold braces? at h
  split at h
  next => simp at h
  next e he =>
    have hce := Cursor.skippedTo_of_eat? he (by decide)
    have hb := skippedTo_bounds e
    split at h
    next hf => split at h <;> simp [Cursor.fail] at h
    next least most f hf =>
      rw [hf] at hb
      split at h
      next => simp [Cursor.fail] at h
      next =>
        split at h
        next => simp [Cursor.fail] at h
        next =>
          simp only [Except.ok.injEq, Option.some.injEq, Prod.mk.injEq] at h
          obtain ⟨-, rfl⟩ := h
          exact hce.trans hb

theorem skippedTo_of_count? {unicode : Bool} {c d : Cursor} {count : Count}
    (h : count? unicode c = .ok (some (count, d))) : c.SkippedTo d := by
  unfold count? at h
  split at h
  case h_4 => exact skippedTo_of_braces? h
  all_goals
    cases h
    exact Cursor.skippedTo_of_next? (by assumption) (by decide)

theorem skippedTo_greediness (c : Cursor) : c.SkippedTo (greediness c).2 := by
  unfold greediness
  split
  next => exact .refl _
  next hd => exact Cursor.skippedTo_of_eat? hd (by decide)

theorem skippedTo_of_quantifier? {unicode : Bool} {c d : Cursor} {quantifier : Count × Bool}
    (h : quantifier? unicode c = .ok (some (quantifier, d))) : c.SkippedTo d := by
  unfold quantifier? at h
  split at h
  next => simp at h
  next => simp at h
  next count e he =>
    simp only [Except.ok.injEq, Option.some.injEq, Prod.mk.injEq] at h
    obtain ⟨-, rfl⟩ := h
    exact (skippedTo_of_count? he).trans (skippedTo_greediness e)

theorem skippedTo_of_repeated {unicode : Bool} {start : Nat} {r r' : Regex} {c d : Cursor}
    (h : repeated unicode start r c = .ok (r', d)) : c.SkippedTo d := by
  unfold repeated at h
  split at h
  next => cases h
  next =>
    cases h
    exact .refl _
  next he =>
    split at h <;> cases h
    exact skippedTo_of_quantifier? he

end Grammar

end PatternBlocks
