import PatternBlocks.Conversion
import PatternBlocks.Proofs.GroupText
import PatternBlocks.Proofs.Placement

/-!
Where errors point. The span of an error lies in the text and between its characters, and what
stands there is what the error is about: the parenthesis or bracket that is not closed, the
quantifier without an atom, the name that is taken or unknown.
-/
namespace PatternBlocks

theorem Span.InText.stop_le {text : String} {s : Span} (h : s.InText text) :
    s.stop ≤ text.utf8ByteSize := by
  obtain ⟨before, after, htext, hstop⟩ := isValid_iff.mp h.stop_isValid
  rw [hstop, utf8ByteSize_eq, htext, utf8Length_append]
  exact Nat.le_add_right _ _

namespace SyntaxError

/-- What stands at the span of an error with the given cause. -/
def Cause.Marks (text : String) (s : Span) : Cause → Prop
  | .unterminatedGroup => (∃ w, s.Spells text ('(' :: w)) ∧ s.stop = text.utf8ByteSize
  | .unterminatedClass => (∃ w, s.Spells text ('[' :: w)) ∧ s.stop = text.utf8ByteSize
  | .unmatchedParenthesis =>
    s.start = s.stop ∧ (Span.mk s.stop (s.stop + ')'.utf8Size)).Spells text [')']
  | .nothingToRepeat => ∃ ch w, ch ∈ ['*', '+', '?', '{'] ∧ s.Spells text (ch :: w)
  | .trailingBackslash => s.Spells text ['\\'] ∧ s.stop = text.utf8ByteSize
  | .duplicateGroupName name => s.Spells text ('(' :: '?' :: '<' :: name.toList ++ ['>'])
  | .undefinedGroupName name => s.Spells text ('\\' :: 'k' :: '<' :: name.toList ++ ['>'])
  | _ => True

structure PointsInto (text : String) (e : SyntaxError) : Prop where
  inText : e.span.InText text
  marks : e.cause.Marks text e.span

end SyntaxError

open SyntaxError (Cause)

namespace Cursor

/-- The first cursor stands at `ch`, and the second one somewhere behind that character. -/
def IsPast (ch : Char) (b c : Cursor) : Prop := ∃ w, b.Passes (ch :: w) c

theorem Passes.isPast {ch : Char} {b c : Cursor} (h : b.Passes [ch] c) : IsPast ch b c := ⟨[], h⟩

theorem IsPast.trans {ch : Char} {b c d : Cursor} (h : IsPast ch b c) (hcd : c.Reaches d) :
    IsPast ch b d :=
  let ⟨_, hv⟩ := h
  let ⟨_, hw⟩ := hcd
  ⟨_, hv.trans hw⟩

theorem IsPast.reaches {ch : Char} {b c : Cursor} (h : IsPast ch b c) : b.Reaches c :=
  let ⟨_, hw⟩ := h
  ⟨_, hw⟩

theorem rest_eq_nil_of_next? {c : Cursor} (h : c.next? = none) : c.rest = [] := by
  obtain ⟨rest, position⟩ := c
  cases rest with
  | nil => rfl
  | cons => cases h

end Cursor

open Cursor (IsPast)

namespace Grammar

variable {mode : Mode} {text : String} {α β : Type}

/-- If the reading fails, then with an error that points into the text. -/
def Blames (text : String) (x : Except SyntaxError α) : Prop :=
  ∀ e, x = .error e → e.PointsInto text

theorem Blames.ok {a : α} : Blames text (.ok a) := nofun

theorem Blames.of_error {x : Except SyntaxError α} {e : SyntaxError} (h : Blames text x)
    (he : x = .error e) : Blames text (.error e : Except SyntaxError β) := by
  rintro _ ⟨⟩
  exact h e he

theorem Blames.map {x : Except SyntaxError α} (h : Blames text x) (f : α → β) :
    Blames text (x.map f) := by
  cases hx : x with
  | error e => exact h.of_error hx
  | ok => exact .ok

theorem Blames.keepGroups {x : Reading α} (h : Blames text x) (s : State) :
    Blames text (keepGroups s x) := by
  cases hx : x with
  | error e => exact h.of_error hx
  | ok => exact .ok

/-- A failure at a cursor points to the text since an earlier one. -/
theorem blames_fail {cause : Cause} {b c : Cursor} (hb : b.IsOn text) (hbc : b.Reaches c)
    (hmarks : cause.Marks text (c.spanSince b.position)) :
    Blames text (c.fail cause b.position : Except SyntaxError α) := by
  rintro _ ⟨⟩
  exact ⟨hbc.inText hb, hmarks⟩

/-- At the end of the text the span from a character on goes up to the end. -/
theorem spells_toEnd {ch : Char} {b c : Cursor} (hb : b.IsOn text) (h : IsPast ch b c)
    (hend : c.rest = []) :
    (∃ w, (c.spanSince b.position).Spells text (ch :: w)) ∧
      (c.spanSince b.position).stop = text.utf8ByteSize := by
  obtain ⟨w, hw⟩ := h
  exact ⟨⟨w, hw.spells hb⟩, (hw.isOn hb).position_eq hend⟩

/-! ### Escapes -/

variable {unicode inClass : Bool} {b c d : Cursor}

theorem blames_controlEscape (hb : b.IsOn text) (hbc : b.Reaches c) :
    Blames text (controlEscape unicode inClass b.position d c) := by
  unfold controlEscape
  split
  · exact .ok
  split
  · exact blames_fail hb hbc trivial
  · exact .ok

theorem blames_digitEscape {first : Char} (hb : b.IsOn text) (hbd : b.Reaches d) :
    Blames text (digitEscape unicode b.position first c d) := by
  unfold digitEscape
  split
  · exact .ok
  split
  · exact blames_fail hb hbd trivial
  · exact .ok

theorem blames_hexEscape (hb : b.IsOn text) (hbc : b.Reaches c) :
    Blames text (hexEscape unicode b.position c) := by
  unfold hexEscape
  split
  · exact .ok
  split
  · exact blames_fail hb hbc trivial
  · exact .ok

theorem blames_bracedCodePoint (hb : b.IsOn text) (hbc : b.Reaches c) :
    Blames text (bracedCodePoint b.position c) := by
  have hhex := hbc.trans (Cursor.reaches_hexUpTo 0x10ffff c)
  unfold bracedCodePoint
  split
  next heq =>
    rw [heq] at hhex
    exact blames_fail hb hhex trivial
  next heq =>
    rw [heq] at hhex
    split
    · exact blames_fail hb hhex trivial
    · exact .ok

theorem blames_unicodeEscape (hb : b.IsOn text) (hbc : b.Reaches c) :
    Blames text (unicodeEscape unicode b.position c) := by
  unfold unicodeEscape
  split
  next d heq =>
    split at heq
    next => exact blames_bracedCodePoint hb (hbc.trans (Cursor.advances_of_eat? heq).reaches)
    next => cases heq
  split
  next =>
    split
    · exact blames_fail hb hbc trivial
    · exact .ok
  next =>
    split
    · exact .ok
    · exact .ok

theorem blames_characterEscape (hb : b.IsOn text) (hbc : b.Passes ['\\'] c) :
    Blames text (characterEscape unicode inClass b.position c) := by
  have hreaches : b.Reaches c := ⟨_, hbc⟩
  unfold characterEscape
  split
  next hnone =>
    have hend := Cursor.rest_eq_nil_of_next? hnone
    exact blames_fail hb hreaches ⟨hbc.spells hb, (hbc.isOn hb).position_eq hend⟩
  next ch d hd =>
    have hbd := hreaches.trans (Cursor.advances_of_next? hd).reaches
    split
    · exact .ok
    split
    · exact blames_controlEscape hb hbd
    split
    · exact blames_digitEscape hb hbd
    split
    · exact blames_hexEscape hb hbd
    split
    · exact blames_unicodeEscape hb hbd
    split
    · exact blames_fail hb hbd trivial
    · exact .ok

theorem blames_propertyEscape {negated : Bool} (hb : b.IsOn text) (hbc : b.Reaches c) :
    Blames text (propertyEscape negated b.position c) := by
  unfold propertyEscape
  split
  · exact blames_fail hb hbc trivial
  next d hd =>
    have hname : d.Reaches (d.takeWhile isPropertyCharacter).2 :=
      ⟨_, Cursor.passes_takeWhile isPropertyCharacter d⟩
    have hbody := (hbc.trans (Cursor.advances_of_eat? hd).reaches).trans hname
    dsimp only
    split
    · exact blames_fail hb hbody trivial
    next e he =>
      split
      · exact blames_fail hb (hbody.trans (Cursor.advances_of_eat? he).reaches) trivial
      · exact .ok

/-! ### Bracket expressions -/

section Bracket

variable {o : Cursor}

theorem blames_unterminatedClass (ho : o.IsOn text) (hopen : IsPast '[' o c)
    (hend : c.rest = []) :
    Blames text (c.fail .unterminatedClass o.position : Except SyntaxError α) :=
  blames_fail ho hopen.reaches (spells_toEnd ho hopen hend)

theorem blames_classEscapeAtom (ho : o.IsOn text) (hopen : IsPast '[' o b)
    (hbc : b.Passes ['\\'] c) :
    Blames text (classEscapeAtom unicode o.position b.position c) := by
  have hb : b.IsOn text := Cursor.Reaches.trans ho hopen.reaches
  have hreaches : b.Reaches c := ⟨_, hbc⟩
  unfold classEscapeAtom
  split
  next hnone =>
    have hend := Cursor.rest_eq_nil_of_next? hnone
    exact blames_unterminatedClass ho (hopen.trans hreaches) hend
  next ch d hd =>
    have hbd := hreaches.trans (Cursor.advances_of_next? hd).reaches
    split
    · exact .ok
    split
    · exact .ok
    split
    · exact (blames_propertyEscape hb hbd).map _
    split
    · exact blames_fail hb hreaches trivial
    · exact (blames_characterEscape hb hbc).map _

theorem blames_classAtom (ho : o.IsOn text) (hopen : IsPast '[' o c) :
    Blames text (classAtom unicode o.position c) := by
  unfold classAtom
  split
  next hnone => exact blames_unterminatedClass ho hopen (Cursor.rest_eq_nil_of_next? hnone)
  next ch d hd =>
    split
    next hch =>
      rw [hch] at hd
      exact blames_classEscapeAtom ho hopen (Cursor.passes_of_next? hd)
    next => exact .ok

theorem blames_joinAtoms {low high : ClassAtom} (hb : b.IsOn text) (hbc : b.Reaches c) :
    Blames text (joinAtoms unicode b.position low high c) := by
  unfold joinAtoms
  split
  · split
    · exact blames_fail hb hbc trivial
    · exact .ok
  · split
    · exact blames_fail hb hbc trivial
    · exact .ok

theorem blames_classMember (ho : o.IsOn text) (hopen : IsPast '[' o c) :
    Blames text (classMember unicode o.position c) := by
  have hc : c.IsOn text := Cursor.Reaches.trans ho hopen.reaches
  unfold classMember
  split
  next herror => exact (blames_classAtom ho hopen).of_error herror
  next low d hlow =>
    have hcd := (advances_of_classAtom hlow).reaches
    split
    next => exact .ok
    next e hhyphen =>
      have hce := hcd.trans (advances_of_rangeHyphen? hhyphen).reaches
      split
      next herror => exact (blames_classAtom ho (hopen.trans hce)).of_error herror
      next high f hhigh =>
        exact blames_joinAtoms hc (hce.trans (advances_of_classAtom hhigh).reaches)

theorem blames_classMembers (ho : o.IsOn text) (hopen : IsPast '[' o c) :
    Blames text (classMembers unicode o.position c) := by
  fun_induction classMembers unicode o.position c with
  | case1 c hnone =>
    exact blames_unterminatedClass ho hopen (List.head?_eq_none_iff.mp hnone)
  | case2 => exact .ok
  | case3 c _ _ _ e herror => exact (blames_classMember ho hopen).of_error herror
  | case4 c _ _ _ items d hfirst e herror ih =>
    exact (ih (hopen.trans (advances_of_classMember hfirst).reaches)).of_error herror
  | case5 => exact .ok

theorem blames_bracketBody (hc : c.IsOn text) (hcd : c.Passes ['['] d) :
    Blames text (bracketBody unicode c.position d) := by
  have hopen := hcd.isPast.trans (reaches_negation d)
  unfold bracketBody
  dsimp only
  split
  next herror => exact (blames_classMembers hc hopen).of_error herror
  next items e hmembers =>
    split
    next hnone =>
      have hend := Cursor.rest_eq_nil_of_next? hnone
      exact blames_unterminatedClass hc (hopen.trans (reaches_of_classMembers hmembers)) hend
    next => exact .ok

end Bracket

/-! ### Quantifiers -/

theorem blames_braces? (hc : c.IsOn text) : Blames text (braces? unicode c) := by
  unfold braces?
  split
  next => exact .ok
  next d hd =>
    have hcb := (Cursor.advances_of_eat? hd).reaches.trans (reaches_bounds d)
    split
    next heq =>
      rw [heq] at hcb
      split
      · exact blames_fail hc hcb trivial
      · exact .ok
    next heq =>
      rw [heq] at hcb
      split
      · exact blames_fail hc hcb trivial
      split
      · exact blames_fail hc hcb trivial
      · exact .ok

theorem blames_quantifier? (hc : c.IsOn text) : Blames text (quantifier? unicode c) := by
  have hcount : Blames text (count? unicode c) := by
    unfold count?
    split
    case h_4 => exact blames_braces? hc
    all_goals exact .ok
  unfold quantifier?
  split
  next herror => exact hcount.of_error herror
  next => exact .ok
  next => exact .ok

theorem isPast_of_braces? {count : Count} (h : braces? unicode c = .ok (some (count, d))) :
    IsPast '{' c d := by
  unfold braces? at h
  split at h
  next => cases h
  next e he =>
    have hbounds := reaches_bounds e
    split at h
    next => split at h <;> cases h
    next heq =>
      rw [heq] at hbounds
      split at h
      next => cases h
      split at h <;> cases h
      exact (Cursor.passes_of_eat? he).isPast.trans hbounds

/-- A quantifier begins with one of four characters. -/
theorem isPast_of_quantifier? {q : Count × Bool}
    (h : quantifier? unicode c = .ok (some (q, d))) :
    ∃ ch ∈ ['*', '+', '?', '{'], IsPast ch c d := by
  have hcount {count : Count} {e : Cursor} (hread : count? unicode c = .ok (some (count, e))) :
      ∃ ch ∈ ['*', '+', '?', '{'], IsPast ch c e := by
    unfold count? at hread
    split at hread
    case h_4 => exact ⟨'{', by decide, isPast_of_braces? hread⟩
    all_goals
      cases hread
      refine ⟨_, ?_, (Cursor.passes_of_next? (by assumption)).isPast⟩
      decide
  unfold quantifier? at h
  split at h
  next => cases h
  next => cases h
  next count e hread =>
    cases h
    obtain ⟨ch, hch, hpast⟩ := hcount hread
    exact ⟨ch, hch, hpast.trans (reaches_greediness e)⟩

theorem blames_nothingToRepeat {ch : Char} (hc : c.IsOn text) (hch : ch ∈ ['*', '+', '?', '{'])
    (h : IsPast ch c d) :
    Blames text (d.fail .nothingToRepeat c.position : Except SyntaxError α) := by
  obtain ⟨w, hw⟩ := h
  exact blames_fail hc ⟨_, hw⟩ ⟨ch, w, hch, hw.spells hc⟩

theorem blames_repeated {start : Nat} {r : Regex} (hc : c.IsOn text) :
    Blames text (repeated unicode start r c) := by
  unfold repeated
  split
  next herror => exact (blames_quantifier? hc).of_error herror
  next => exact .ok
  next hread =>
    split
    · exact .ok
    · obtain ⟨ch, hch, hpast⟩ := isPast_of_quantifier? hread
      exact blames_nothingToRepeat hc hch hpast

/-! ### Atoms -/

theorem blames_decimalEscape (hb : b.IsOn text) (hbc : b.Reaches c) :
    Blames text (decimalEscape mode b.position c) := by
  have hdigits : c.Reaches (c.decimal?.getD (0, c)).2 := by
    cases hd : c.decimal? with
    | none => exact .refl _
    | some digits => exact (Cursor.advances_of_decimal? hd).reaches
  unfold decimalEscape
  dsimp only
  split
  · exact .ok
  split
  · exact blames_fail hb (hbc.trans hdigits) trivial
  · exact .ok

theorem blames_namedBackref (hb : b.IsOn text) (hbc : b.Reaches c) :
    Blames text (namedBackref mode b.position c) := by
  unfold namedBackref
  split
  · exact .ok
  split
  · exact blames_fail hb hbc trivial
  next d hd =>
    have hbd := hbc.trans (Cursor.advances_of_eat? hd).reaches
    split
    · exact blames_fail hb hbd trivial
    next name e hname =>
      split
      · exact blames_fail hb (hbd.trans ⟨_, Cursor.passes_of_groupName? hname⟩) trivial
      · exact .ok

theorem blames_characterAtom (hb : b.IsOn text) (hbc : b.Passes ['\\'] c) :
    Blames text (characterAtom unicode b.position c) := by
  unfold characterAtom
  split
  next herror => exact (blames_characterEscape hb hbc).of_error herror
  next code d hcode =>
    have hbd := Cursor.Reaches.trans ⟨_, hbc⟩ (reaches_of_characterEscape hcode)
    split
    · exact blames_fail hb hbd trivial
    · exact .ok

theorem blames_atomEscape (hb : b.IsOn text) (hbc : b.Passes ['\\'] c) :
    Blames text (atomEscape mode b.position c) := by
  have hreaches : b.Reaches c := ⟨_, hbc⟩
  unfold atomEscape
  split
  next hnone =>
    have hend := Cursor.rest_eq_nil_of_next? hnone
    exact blames_fail hb hreaches ⟨hbc.spells hb, (hbc.isOn hb).position_eq hend⟩
  next ch d hd =>
    have hbd := hreaches.trans (Cursor.advances_of_next? hd).reaches
    split
    · exact .ok
    split
    · exact .ok
    split
    · exact .ok
    split
    · exact (blames_propertyEscape hb hbd).map _
    split
    · exact blames_namedBackref hb hbd
    split
    · exact blames_decimalEscape hb hreaches
    · exact blames_characterAtom hb hbc

theorem blames_braceAtom (hc : c.IsOn text) : Blames text (braceAtom unicode c d) := by
  unfold braceAtom
  split
  next herror => exact (blames_braces? hc).of_error herror
  next hread => exact blames_nothingToRepeat hc (by decide) (isPast_of_braces? hread)
  next => exact .ok

theorem blames_plainAtom {ch : Char} (hc : c.IsOn text) (first : c.next? = some (ch, d)) :
    Blames text (plainAtom mode ch c d) := by
  have hcd := Cursor.passes_of_next? first
  unfold plainAtom
  dsimp only
  iterate 3
    split
    next => exact .ok
  split
  next hch =>
    subst hch
    exact (blames_bracketBody hc hcd).map _
  split
  next hch =>
    subst hch
    exact blames_atomEscape hc hcd
  split
  next hch =>
    have hmem : ch ∈ ['*', '+', '?', '{'] := by
      rcases hch with rfl | rfl | rfl <;> decide
    exact blames_nothingToRepeat hc hmem hcd.isPast
  split
  next => exact blames_braceAtom hc
  split
  next => exact blames_fail hc ⟨_, hcd⟩ trivial
  next => exact .ok

/-! ### Groups -/

section Group

variable {inner : Option BodyReader} {name : Option String} {s : State}

/-- Only a name can be refused. -/
theorem register_eq_error {groups : Capture.Registry} {e : Capture.NameTaken}
    (h : groups.register name = .error e) : name = some e.name := by
  obtain ⟨n, hname, -, heq⟩ | ⟨-, heq⟩ := groups.register_cases name
  · rw [heq] at h
    cases h
    exact hname
  · rw [heq] at h
    cases h

theorem blames_capture (hb : b.IsOn text) (hname : ∀ n, name = some n →
      b.Passes ('(' :: '?' :: '<' :: n.toList ++ ['>']) s.cursor) :
    Blames text (capture name b.position s) := by
  unfold capture
  split
  next e he =>
    have hpasses := hname _ (register_eq_error he)
    exact blames_fail hb ⟨_, hpasses⟩ (hpasses.spells hb)
  next => exact .ok

theorem blames_namedOpening (hb : b.IsOn text) (hbc : b.Passes ['(', '?', '<'] s.cursor) :
    Blames text (namedOpening b.position s) := by
  unfold namedOpening
  split
  next => exact blames_fail hb ⟨_, hbc⟩ trivial
  next n c hn =>
    have hname := hbc.trans (Cursor.passes_of_groupName? hn)
    split
    next => exact blames_fail hb ⟨_, hname⟩ trivial
    next d hd =>
      refine blames_capture hb ?_
      rintro _ ⟨⟩
      exact hname.trans (Cursor.passes_of_eat? hd)

theorem blames_opening (hb : b.IsOn text) (hbc : b.Passes ['('] s.cursor) :
    Blames text (opening b.position s) := by
  unfold opening
  split
  next => exact blames_capture hb nofun
  next c hc =>
    have hquestion := hbc.trans (Cursor.passes_of_eat? hc)
    split
    next => exact .ok
    next =>
      split
      next hd => exact blames_namedOpening hb (hquestion.trans (Cursor.passes_of_eat? hd))
      next => exact blames_fail hb ⟨_, hquestion⟩ trivial

theorem endsAlternative_of_terms {inner : Option BodyReader} {rs : List Regex}
    (h : terms mode inner s = .ok (rs, t)) : endsAlternative t.cursor := by
  fun_induction terms mode inner s generalizing rs with
  | case1 s hs =>
    cases h
    exact hs
  | case2 => cases h
  | case3 => cases h
  | case4 s hs r u hu rs' v hv ih =>
    cases h
    exact ih hv

theorem isEnd_of_endsAlternative {c : Cursor} (hc : endsAlternative c) (noBar : c.eat? '|' = none) :
    c.rest = [] ∨ ∃ d, c.eat? ')' = some d := by
  obtain ⟨rest, position⟩ := c
  cases rest with
  | nil => exact .inl rfl
  | cons ch rest =>
    right
    simp only [endsAlternative, Cursor.peek?, List.head?_cons, Option.all_some, Bool.or_eq_true,
      decide_eq_true_eq] at hc
    rcases hc with rfl | rfl
    · simp [Cursor.eat?] at noBar
    · exact ⟨⟨rest, position + ')'.utf8Size⟩, rfl⟩

/-- Alternatives go on up to the end of the text or to a closing parenthesis. -/
theorem isEnd_of_alternatives {inner : Option BodyReader} {rs : Regex × List Regex}
    (h : alternatives mode inner s = .ok (rs, t)) :
    t.cursor.rest = [] ∨ ∃ c, t.cursor.eat? ')' = some c := by
  fun_induction alternatives mode inner s generalizing rs with
  | case1 => cases h
  | case2 s r u hu noBar =>
    cases h
    unfold alternative at hu
    split at hu
    next => cases hu
    next hterms =>
      cases hu
      exact isEnd_of_endsAlternative (endsAlternative_of_terms hterms) noBar
  | case3 => cases h
  | case4 s r u hu c hc r' rs' v hv ih =>
    cases h
    exact ih hv

/-- Bodies with groups up to some depth inside them either are read or fail with an error that
points into the text. -/
def BlamesInside (mode : Mode) (text : String) (levels : Nat) : Prop :=
  ∀ s : State, s.cursor.IsOn text → Blames text ((bodyReader mode levels).read s)

theorem blames_group {levels : Nat} (inside : ∀ l, levels = l + 1 → BlamesInside mode text l)
    (hb : b.IsOn text) (hbc : b.Passes ['('] s.cursor) :
    Blames text (group (innerReader mode levels) b.position s) := by
  cases levels with
  | zero => exact blames_fail hb ⟨_, hbc⟩ trivial
  | succ levels =>
    unfold group
    rw [innerReader_succ]
    dsimp only
    split
    next he => exact (blames_opening hb hbc).of_error he
    next o t ho =>
      have hopened := hbc.isPast.trans (reaches_of_opening ho)
      split
      next he => exact (inside levels rfl t (Cursor.Reaches.trans hb hopened.reaches)).of_error he
      next r u hread =>
        have hbody := hopened.trans ((bodyReader mode levels).reaches hread)
        split
        next hnone =>
          obtain ⟨rs, hrs, -⟩ := read_eq_ok_iff.mp hread
          obtain hend | ⟨c, hc⟩ := isEnd_of_alternatives hrs.alternatives_eq
          · exact blames_fail hb hbody.reaches (spells_toEnd hb hbody hend)
          · cases hnone.symm.trans hc
        next => exact .ok

/-! ### Disjunctions -/

theorem blames_term {levels : Nat} (inside : ∀ l, levels = l + 1 → BlamesInside mode text l)
    (hs : s.cursor.IsOn text) (more : ¬endsAlternative s.cursor) :
    Blames text (term mode (innerReader mode levels) s) := by
  have hatom : Blames text (atom mode (innerReader mode levels) s) := by
    unfold atom
    split
    next => exact .ok
    next ch c first =>
      split
      next hch =>
        rw [hch] at first
        exact blames_group inside hs (Cursor.passes_of_next? first)
      next =>
        split
        next he => exact (blames_plainAtom hs first).of_error he
        next => exact .ok
  unfold term
  split
  next he => exact hatom.of_error he
  next r t ht =>
    have hreaches := (advances_of_atom (peek?_ne_none more) ht).reaches
    exact (blames_repeated (Cursor.Reaches.trans hs hreaches)).keepGroups t

theorem blames_terms {levels : Nat} (inside : ∀ l, levels = l + 1 → BlamesInside mode text l)
    (hs : s.cursor.IsOn text) : Blames text (terms mode (innerReader mode levels) s) := by
  fun_induction terms mode (innerReader mode levels) s with
  | case1 => exact .ok
  | case2 s more e he => exact (blames_term inside hs more).of_error he
  | case3 s more r t ht e he ih =>
    have hreaches := (advances_of_term (peek?_ne_none more) ht).reaches
    exact (ih (Cursor.Reaches.trans hs hreaches)).of_error he
  | case4 => exact .ok

theorem blames_alternatives {levels : Nat}
    (inside : ∀ l, levels = l + 1 → BlamesInside mode text l) (hs : s.cursor.IsOn text) :
    Blames text (alternatives mode (innerReader mode levels) s) := by
  have hone {s : State} (hs : s.cursor.IsOn text) :
      Blames text (alternative mode (innerReader mode levels) s) := by
    unfold alternative
    split
    next he => exact (blames_terms inside hs).of_error he
    next => exact .ok
  fun_induction alternatives mode (innerReader mode levels) s with
  | case1 s e he => exact (hone hs).of_error he
  | case2 => exact .ok
  | case3 s r t ht c hc e he ih =>
    have hbar := (reaches_of_alternative ht).trans (Cursor.advances_of_eat? hc).reaches
    exact (ih (Cursor.Reaches.trans hs hbar)).of_error he
  | case4 => exact .ok

theorem blames_disjunction {levels : Nat}
    (inside : ∀ l, levels = l + 1 → BlamesInside mode text l) (hs : s.cursor.IsOn text) :
    Blames text (disjunction mode (innerReader mode levels) s) := by
  unfold disjunction
  split
  next he => exact (blames_alternatives inside hs).of_error he
  next => exact .ok

/-- Whatever may nest in it, a body that is not read fails with an error that points into the
text. -/
theorem blamesInside (mode : Mode) (text : String) (levels : Nat) :
    BlamesInside mode text levels := by
  induction levels with
  | zero =>
    intro s hs
    rw [bodyReader_read]
    exact blames_disjunction (fun l hl => by omega) hs
  | succ levels ih =>
    intro s hs
    rw [bodyReader_read]
    refine blames_disjunction (fun l hl => ?_) hs
    obtain rfl : l = levels := by omega
    exact ih

end Group

/-! ### References by name -/

/-- References by name stand where their spans say. -/
def RefersAt (text : String) (references : List (String × Span)) : Prop :=
  ∀ x ∈ references, x.2.Spells text ('\\' :: 'k' :: '<' :: x.1.toList ++ ['>'])

theorem RefersAt.nil : RefersAt text [] := nofun

theorem RefersAt.append {as bs : List (String × Span)} (ha : RefersAt text as)
    (hb : RefersAt text bs) : RefersAt text (as ++ bs) :=
  List.forall_mem_append.mpr ⟨ha, hb⟩

theorem refersAt_of_namedBackref {r : Regex} (hb : b.IsOn text) (hbc : b.Passes ['\\', 'k'] c)
    (h : namedBackref mode b.position c = .ok (r, d)) : RefersAt text r.namedReferences := by
  unfold namedBackref at h
  split at h
  next =>
    cases h
    exact .nil
  split at h
  next => cases h
  next e he =>
    split at h
    next => cases h
    next name f hf =>
      split at h <;> cases h
      next hclose =>
        have hname := (Cursor.passes_of_groupName? hf).trans (Cursor.passes_of_eat? hclose)
        have hpasses := hbc.trans ((Cursor.passes_of_eat? he).trans hname)
        exact List.forall_mem_singleton.mpr (hpasses.spells hb)

theorem namedReferences_of_decimalEscape {start : Nat} {r : Regex}
    (h : decimalEscape mode start c = .ok (r, d)) : r.namedReferences = [] := by
  unfold decimalEscape at h
  dsimp only at h
  split at h
  next =>
    cases h
    rfl
  next =>
    split at h <;> cases h
    rfl

theorem namedReferences_of_characterAtom {start : Nat} {r : Regex}
    (h : characterAtom unicode start c = .ok (r, d)) : r.namedReferences = [] := by
  unfold characterAtom at h
  split at h
  next => cases h
  next =>
    split at h <;> cases h
    rfl

theorem refersAt_of_atomEscape {r : Regex} (hb : b.IsOn text) (hbc : b.Passes ['\\'] c)
    (h : atomEscape mode b.position c = .ok (r, d)) : RefersAt text r.namedReferences := by
  unfold atomEscape at h
  split at h
  next => cases h
  next ch e he =>
    split at h
    next =>
      cases h
      exact .nil
    iterate 2
      split at h
      next =>
        cases h
        exact .nil
    split at h
    next =>
      obtain ⟨⟨p, f⟩, -, heq⟩ := map_eq_ok.mp h
      cases heq
      exact .nil
    split at h
    next hk =>
      rw [hk] at he
      exact refersAt_of_namedBackref hb (hbc.trans (Cursor.passes_of_next? he)) h
    split at h
    next =>
      rw [namedReferences_of_decimalEscape h]
      exact .nil
    next =>
      rw [namedReferences_of_characterAtom h]
      exact .nil

theorem refersAt_of_plainAtom {ch : Char} {r : Regex} (hc : c.IsOn text)
    (first : c.next? = some (ch, d)) (h : plainAtom mode ch c d = .ok (r, b)) :
    RefersAt text r.namedReferences := by
  unfold plainAtom at h
  dsimp only at h
  iterate 3
    split at h
    next =>
      cases h
      exact .nil
  split at h
  next =>
    obtain ⟨⟨x, e⟩, -, heq⟩ := map_eq_ok.mp h
    cases heq
    exact .nil
  split at h
  next hch =>
    rw [hch] at first
    exact refersAt_of_atomEscape hc (Cursor.passes_of_next? first) h
  split at h
  next => cases h
  split at h
  next =>
    unfold braceAtom at h
    split at h <;> cases h
    exact .nil
  split at h <;> cases h
  exact .nil

mutual

theorem ReadsTerm.refersAt {levels : Nat} {s t : State} {r : Regex} :
    ReadsTerm mode levels s r t → s.cursor.IsOn text → RefersAt text r.namedReferences
  | .plain first _ atom count, hs => by
    rw [namedReferences_of_repeated count]
    exact refersAt_of_plainAtom hs first atom
  | .group first opened inside _ count, hs => by
    rw [namedReferences_of_repeated count, namedReferences_close, namedReferences_choice]
    have hopened := (Cursor.advances_of_next? first).reaches.trans (reaches_of_opening opened)
    exact inside.refersAt (hs.trans hopened)

theorem ReadsTerms.refersAt {levels : Nat} {s t : State} {rs : List Regex} :
    ReadsTerms mode levels s rs t → s.cursor.IsOn text →
    RefersAt text (Regex.namedReferencesOfAll rs)
  | .nil _, _ => .nil
  | .cons more head tail, hs =>
    (head.refersAt hs).append (tail.refersAt (hs.trans (head.advances more).reaches))

theorem ReadsAlternatives.refersAt {levels : Nat} {s t : State} {rs : Regex × List Regex} :
    ReadsAlternatives mode levels s rs t → s.cursor.IsOn text →
    RefersAt text (Regex.namedReferencesOfAll (rs.1 :: rs.2))
  | .last terms _, hs => by
    simpa [Regex.namedReferencesOfAll, namedReferences_sequence] using terms.refersAt hs
  | .more terms bar tail, hs => by
    have hbar := terms.reaches.trans (Cursor.advances_of_eat? bar).reaches
    rw [Regex.namedReferencesOfAll, namedReferences_sequence]
    exact (terms.refersAt hs).append (tail.refersAt (hs.trans hbar))

end

end Grammar

/-! ### Patterns -/

/-- What parsing rejects is rejected with an error that points into the text. -/
theorem Pattern.pointsInto_of_parse {unicode : Bool} {text : String} {e : SyntaxError}
    (h : Pattern.parse unicode text = .error e) : e.PointsInto text := by
  have hstart : (Cursor.ofString text).IsOn text := .refl _
  unfold Pattern.parse at h
  dsimp only at h
  split at h
  next e' herror =>
    cases h
    exact Grammar.blamesInside _ text nestingLimit _ hstart e herror
  next root t hread =>
    obtain ⟨rs, hrs, rfl⟩ := Grammar.read_eq_ok_iff.mp hread
    split at h
    next =>
      split at h <;> cases h
      next name span hfind =>
        have hmem := List.mem_of_find?_eq_some hfind
        rw [hrs.references_eq, List.nil_append] at hmem
        have hspells := hrs.refersAt hstart _ hmem
        exact ⟨hspells.inText, hspells⟩
    next hend =>
      cases h
      obtain hnil | ⟨c, hc⟩ := Grammar.isEnd_of_alternatives hrs.alternatives_eq
      · simp [Cursor.atEnd, hnil] at hend
      · have hspells := (Cursor.passes_of_eat? hc).spells (hstart.trans hrs.reaches)
        have hposition := hspells.stop_eq
        simp only [Cursor.spanSince, utf8Length_cons, utf8Length_nil, Nat.add_zero] at hposition
        rw [Cursor.spanSince, hposition] at hspells
        exact ⟨(Cursor.Reaches.refl _).inText (hstart.trans hrs.reaches), rfl, hspells⟩

namespace Regex

theorem span_of_ofReference_error {span : Span} {target : Reference} {what : Unsupported}
    (h : Block.ofReference span target = .error what) : what.span = span := by
  cases target with
  | name => cases h
  | number n =>
    unfold Block.ofReference at h
    dsimp only at h
    split at h <;> cases h
    rfl

mutual

/-- What no block stands for is an expression of the pattern. -/
theorem span_of_piece_error {what : Unsupported} : (r : Regex) → r.piece = .error what →
    ∃ x ∈ r.subtrees, what.span = x.span
  | .empty _, h | .char .., h | .dot _, h | .classEscape .., h | .bracket _, h
  | .assertion .., h => nomatch h
  | .property p, h => by
    cases h
    exact ⟨.property p, List.mem_singleton_self _, rfl⟩
  | .backref target span, h => by
    rw [piece, map_eq_error] at h
    exact ⟨.backref target span, List.mem_singleton_self _, span_of_ofReference_error h⟩
  | .group _ body _, h | .look _ _ body _, h | .repetition _ _ body _, h => by
    rw [piece, map_eq_error] at h
    obtain ⟨x, hx, hspan⟩ := span_of_piece_error body h
    exact ⟨x, List.mem_cons_of_mem _ hx, hspan⟩
  | .concat rs _, h | .alternation rs _, h => by
    rw [piece, map_eq_error] at h
    obtain ⟨x, hx, hspan⟩ := span_of_pieces_error rs h
    exact ⟨x, List.mem_cons_of_mem _ hx, hspan⟩

theorem span_of_pieces_error {what : Unsupported} : (rs : List Regex) →
    pieces rs = .error what → ∃ x ∈ subtreesOfAll rs, what.span = x.span
  | [], h => nomatch h
  | r :: rs, h => by
    rw [pieces] at h
    split at h
    next herror =>
      cases h
      obtain ⟨x, hx, hspan⟩ := span_of_piece_error r herror
      exact ⟨x, List.mem_append_left _ hx, hspan⟩
    next =>
      obtain ⟨x, hx, hspan⟩ := span_of_pieces_error rs (map_eq_error.mp h)
      exact ⟨x, List.mem_append_right _ hx, hspan⟩

end

end Regex

theorem exists_of_not_isOk {ε α : Type} {x : Except ε α} (h : ¬x.isOk) : ∃ e, x = .error e := by
  cases x with
  | error e => exact ⟨e, rfl⟩
  | ok => exact absurd rfl h

/-- An error of the conversion is one of parsing, or it points to an expression of the pattern. -/
theorem PatternError.inText_of_ofPattern {text : String} {flags : Flags} {e : PatternError}
    (h : Block.ofPattern text flags = .error e) :
    e.span.InText text ∧ ∀ s, e.cause = .malformed s → s.PointsInto text := by
  rw [Block.ofPattern, map_eq_error] at h
  unfold Conversion.ofPattern at h
  split at h
  next s hparse =>
    cases h
    have hpoints := Pattern.pointsInto_of_parse hparse
    refine ⟨hpoints.inText, ?_⟩
    rintro _ ⟨⟩
    exact hpoints
  next p hparse =>
    split at h <;> cases h
    next what hblocks =>
      obtain ⟨x, hx, hspan⟩ := Regex.span_of_piece_error p.root (map_eq_error.mp hblocks)
      refine ⟨?_, nofun⟩
      show what.span.InText text
      rw [hspan]
      exact (Pattern.wellPlaced_of_parse hparse x hx).inText

/-- The span of every error lies in the text and between its characters, and what stands there is
what the error is about. -/
theorem Pattern.errors_point {text : String} :
    (∀ unicode e, Pattern.parse unicode text = .error e →
      e.PointsInto text ∧ e.span.stop ≤ text.utf8ByteSize) ∧
    (∀ flags e, Block.ofPattern text flags = .error e →
      (e.span.InText text ∧ e.span.stop ≤ text.utf8ByteSize) ∧
        ∀ s, e.cause = .malformed s → s.PointsInto text) := by
  constructor
  · intro unicode e h
    have hpoints := Pattern.pointsInto_of_parse h
    exact ⟨hpoints, hpoints.inText.stop_le⟩
  · intro flags e h
    obtain ⟨hinText, hmalformed⟩ := PatternError.inText_of_ofPattern h
    exact ⟨⟨hinText, hinText.stop_le⟩, hmalformed⟩

/-- A class that is not closed and a property that no block stands for, behind characters of
several bytes. -/
theorem Pattern.errors_point_multibyte :
    (∃ text e, text = "é(?<ö>😀[^ü" ∧ Pattern.parse true text = .error e ∧
      e.PointsInto text ∧ e.span.stop ≤ text.utf8ByteSize) ∧
    ∃ text flags e, text = "é(?<ö>😀\\p{L})" ∧ Block.ofPattern text flags = .error e ∧
      (e.span.InText text ∧ e.span.stop ≤ text.utf8ByteSize) ∧
        ∀ s, e.cause = .malformed s → s.PointsInto text := by
  constructor
  · have hparse : ¬(Pattern.parse true "é(?<ö>😀[^ü").isOk := by decide +kernel
    obtain ⟨e, he⟩ := exists_of_not_isOk hparse
    exact ⟨_, e, rfl, he, Pattern.errors_point.1 true e he⟩
  · have hblocks : ¬(Block.ofPattern "é(?<ö>😀\\p{L})" { unicode := true }).isOk := by
      decide +kernel
    obtain ⟨e, he⟩ := exists_of_not_isOk hblocks
    exact ⟨_, _, e, rfl, he, Pattern.errors_point.2 _ e he⟩

end PatternBlocks
