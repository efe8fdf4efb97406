import PatternBlocks.Proofs.Numerals
import PatternBlocks.Grammar.Bracket

/-!
A bracket expression is read the same whatever follows it. Two readings of one text up to its
closing bracket are run side by side; neither looks beyond the bracket before it has passed it.
-/
namespace PatternBlocks

variable {s s' : List Char}

/-! ### Members without their places -/

def Property.unplaced (p : Property) : Property := { p with span := .point 0 }

/-- A member of a class, without the place of the property that it may be. -/
def ClassItem.unplaced : ClassItem → ClassItem
  | .property p => .property p.unplaced
  | item => item

/-- The members are the same, but properties may stand at other places. -/
def SameItems (items items' : List ClassItem) : Prop :=
  items.map ClassItem.unplaced = items'.map ClassItem.unplaced

theorem SameItems.append {items items' more more' : List ClassItem} (h : SameItems items items')
    (hmore : SameItems more more') : SameItems (items ++ more) (items' ++ more') := by
  unfold SameItems at h hmore ⊢
  rw [List.map_append, List.map_append, h, hmore]

/-! ### Readers of characters and numbers -/

namespace Cursor

/-- The cursors stand at the same place before a closing bracket, behind which the texts are `s`
and `s'`. -/
def Abreast (s s' : List Char) (c c' : Cursor) : Prop :=
  ∃ u, c.rest = u ++ ']' :: s ∧ c'.rest = u ++ ']' :: s'

theorem Abreast.peek?_eq {c c' : Cursor} (h : Abreast s s' c c') : c.peek? = c'.peek? := by
  obtain ⟨u, hc, hc'⟩ := h
  cases u <;> simp [peek?, hc, hc']

/-- Behind a bracket the cursors no longer stand abreast. -/
theorem Abreast.length_lt {c c' : Cursor} (h : Abreast s s' c c') :
    s.length < c.rest.length := by
  obtain ⟨u, hc, -⟩ := h
  rw [hc, List.length_append, List.length_cons]
  omega

/-- Either both cursors stand at the bracket, or the same character comes next. -/
theorem Abreast.next?_cases {c c' : Cursor} (h : Abreast s s' c c') :
    (∃ d d', c.next? = some (']', d) ∧ c'.next? = some (']', d') ∧ d.rest = s ∧ d'.rest = s') ∨
      ∃ ch d d', c.next? = some (ch, d) ∧ c'.next? = some (ch, d') ∧ Abreast s s' d d' := by
  obtain ⟨rest, n⟩ := c
  obtain ⟨rest', n'⟩ := c'
  obtain ⟨u, hc, hc'⟩ := h
  dsimp only at hc hc'
  subst hc hc'
  cases u with
  | nil => exact .inl ⟨_, _, rfl, rfl, rfl, rfl⟩
  | cons ch u => exact .inr ⟨ch, _, _, rfl, rfl, u, rfl, rfl⟩

/-- Neither reader applies, or both do and end abreast with the same result. -/
def Alike {α : Type} (s s' : List Char) (x y : Option (α × Cursor)) : Prop :=
  (x = none ∧ y = none) ∨
    ∃ a d d', x = some (a, d) ∧ y = some (a, d') ∧ Abreast s s' d d'

theorem alike_filter_next? {p : Char → Bool} (hp : p ']' = false) {c c' : Cursor}
    (h : Abreast s s' c c') :
    Alike s s' (c.next?.filter (p ·.1)) (c'.next?.filter (p ·.1)) := by
  rcases h.next?_cases with ⟨d, d', hc, hc', -⟩ | ⟨ch, d, d', hc, hc', hd⟩
  · left
    simp [hc, hc', hp, Option.filter]
  · by_cases hch : p ch
    · right
      exact ⟨ch, d, d', by simp [hc, Option.filter, hch], by simp [hc', Option.filter, hch], hd⟩
    · left
      simp [hc, hc', Option.filter, hch]

theorem alike_digit? (base : Nat) (hb : base ≤ 36) {c c' : Cursor} (h : Abreast s s' c c') :
    Alike s s' (c.digit? base) (c'.digit? base) := by
  rcases h.next?_cases with ⟨d, d', hc, hc', -⟩ | ⟨ch, d, d', hc, hc', hd⟩
  · have hbracket : PatternBlocks.digit? base ']' = none := by
      have hvalue : digitValue ']' = 36 := by decide
      rw [PatternBlocks.digit?, hvalue, if_neg (by omega)]
    left
    simp [digit?, hc, hc', hbracket]
  · cases hdigit : PatternBlocks.digit? base ch with
    | none =>
      left
      simp [digit?, hc, hc', hdigit]
    | some n =>
      right
      exact ⟨n, d, d', by simp [digit?, hc, hdigit], by simp [digit?, hc', hdigit], hd⟩

theorem alike_eat? (ch : Char) (hch : ch ≠ ']') {c c' : Cursor} (h : Abreast s s' c c') :
    (c.eat? ch = none ∧ c'.eat? ch = none) ∨
      ∃ d d', c.eat? ch = some d ∧ c'.eat? ch = some d' ∧ Abreast s s' d d' := by
  obtain ⟨rest, n⟩ := c
  obtain ⟨rest', n'⟩ := c'
  obtain ⟨u, hc, hc'⟩ := h
  dsimp only at hc hc'
  subst hc hc'
  cases u with
  | nil =>
    left
    simp [eat?, hch.symm]
  | cons x u =>
    by_cases hx : x = ch
    · right
      exact ⟨⟨u ++ ']' :: s, n + ch.utf8Size⟩, ⟨u ++ ']' :: s', n' + ch.utf8Size⟩,
        by simp [eat?, hx], by simp [eat?, hx], u, rfl, rfl⟩
    · left
      simp [eat?, hx]

theorem alike_hexDigitsFrom? (count value : Nat) {c c' : Cursor} (h : Abreast s s' c c') :
    Alike s s' (hexDigitsFrom? count value c) (hexDigitsFrom? count value c') := by
  induction count generalizing value c c' with
  | zero => exact .inr ⟨value, c, c', rfl, rfl, h⟩
  | succ count ih =>
    rcases alike_digit? 16 (by decide) h with ⟨hx, hy⟩ | ⟨n, d, d', hx, hy, hd⟩
    · left
      simp [hexDigitsFrom?, hx, hy]
    · simpa only [hexDigitsFrom?, hx, hy] using ih (value * 16 + n) hd

theorem alike_hexDigits? (count : Nat) {c c' : Cursor} (h : Abreast s s' c c') :
    Alike s s' (c.hexDigits? count) (c'.hexDigits? count) :=
  alike_hexDigitsFrom? count 0 h

theorem abreast_hexUpToFrom (limit value : Nat) (u : List Char) (n n' : Nat) :
    ∃ x d d', hexUpToFrom limit value (u ++ ']' :: s) n = (x, d) ∧
      hexUpToFrom limit value (u ++ ']' :: s') n' = (x, d') ∧ Abreast s s' d d' := by
  induction u generalizing value n n' with
  | nil =>
    have hbracket : PatternBlocks.digit? 16 ']' = none := by decide
    simp only [List.nil_append, hexUpToFrom, hbracket]
    exact ⟨_, _, _, rfl, rfl, [], rfl, rfl⟩
  | cons ch u ih =>
    simp only [List.cons_append, hexUpToFrom]
    cases hdigit : PatternBlocks.digit? 16 ch with
    | none => exact ⟨_, _, _, rfl, rfl, ch :: u, rfl, rfl⟩
    | some d =>
      by_cases hle : value * 16 + d ≤ limit
      · simpa only [hle, if_true] using ih ..
      · simp only [hle, if_false]
        exact ⟨_, _, _, rfl, rfl, ch :: u, rfl, rfl⟩

theorem abreast_hexUpTo (limit : Nat) {c c' : Cursor} (h : Abreast s s' c c') :
    ∃ x d d', c.hexUpTo limit = (x, d) ∧ c'.hexUpTo limit = (x, d') ∧ Abreast s s' d d' := by
  rcases alike_digit? 16 (by decide) h with ⟨hx, hy⟩ | ⟨n, d, d', hx, hy, hd⟩
  · refine ⟨none, c, c', ?_, ?_, h⟩ <;> simp [hexUpTo, hx, hy]
  · obtain ⟨u, hc, hc'⟩ := h
    simpa only [hexUpTo, hx, hy, hc, hc', Option.isSome_some, if_true] using
      abreast_hexUpToFrom limit 0 u c.position c'.position

theorem abreast_octalDigits (count value : Nat) {c c' : Cursor} (h : Abreast s s' c c') :
    ∃ n d d', octalDigits count value c = (n, d) ∧ octalDigits count value c' = (n, d') ∧
      Abreast s s' d d' := by
  induction count generalizing value c c' with
  | zero => exact ⟨_, _, _, rfl, rfl, h⟩
  | succ count ih =>
    rcases alike_digit? 8 (by decide) h with ⟨hx, hy⟩ | ⟨n, d, d', hx, hy, hd⟩
    · exact ⟨value, c, c', by simp [octalDigits, hx], by simp [octalDigits, hy], h⟩
    · simpa only [octalDigits, hx, hy] using ih (value * 8 + n) hd

theorem alike_octalEscape? {c c' : Cursor} (h : Abreast s s' c c') :
    Alike s s' c.octalEscape? c'.octalEscape? := by
  rcases alike_digit? 8 (by decide) h with ⟨hx, hy⟩ | ⟨n, d, d', hx, hy, hd⟩
  · left
    simp [octalEscape?, hx, hy]
  · obtain ⟨m, e, e', he, he', h⟩ := abreast_octalDigits (if n ≤ 3 then 2 else 1) n hd
    right
    exact ⟨m, e, e', by simp only [octalEscape?, hx, he], by simp only [octalEscape?, hy, he'], h⟩

theorem takeWhile_append_cons {p : Char → Bool} {ch : Char} (h : p ch = false) (u t : List Char) :
    (u ++ ch :: t).takeWhile p = u.takeWhile p := by
  induction u with
  | nil => simp [h]
  | cons x u ih => cases hx : p x <;> simp [hx, ih]

theorem dropWhile_append_cons {p : Char → Bool} {ch : Char} (h : p ch = false) (u t : List Char) :
    (u ++ ch :: t).dropWhile p = u.dropWhile p ++ ch :: t := by
  induction u with
  | nil => simp [h]
  | cons x u ih => cases hx : p x <;> simp [hx, ih]

theorem abreast_takeWhile {p : Char → Bool} (hp : p ']' = false) {c c' : Cursor}
    (h : Abreast s s' c c') :
    ∃ w d d', c.takeWhile p = (w, d) ∧ c'.takeWhile p = (w, d') ∧ Abreast s s' d d' := by
  obtain ⟨u, hc, hc'⟩ := h
  refine ⟨u.takeWhile p, (c.takeWhile p).2, (c'.takeWhile p).2, ?_, ?_, u.dropWhile p, ?_, ?_⟩
  · simp only [takeWhile, hc, takeWhile_append_cons hp]
  · simp only [takeWhile, hc', takeWhile_append_cons hp]
  · simp only [takeWhile, hc, dropWhile_append_cons hp]
  · simp only [takeWhile, hc', dropWhile_append_cons hp]

end Cursor

namespace Grammar

open Cursor

/-- If the first reading ends before it has passed the bracket, then the second one ends abreast of
it with a related result. -/
def Parallel {α : Type} (s s' : List Char) (R : α → α → Prop) (x y : Reading α) : Prop :=
  ∀ a d, x = .ok (a, d) → s.length < d.rest.length →
    ∃ a' d', y = .ok (a', d') ∧ R a a' ∧ Abreast s s' d d'

section Parallel

variable {α : Type} {R : α → α → Prop}

theorem Parallel.error {e : SyntaxError} {y : Reading α} : Parallel s s' R (.error e) y := nofun

theorem Parallel.ok {a a' : α} {d d' : Cursor} (ha : R a a') (h : Abreast s s' d d') :
    Parallel s s' R (.ok (a, d)) (.ok (a', d')) := by
  rintro _ _ ⟨⟩ -
  exact ⟨a', d', rfl, ha, h⟩

theorem Parallel.passed {a : α} {d : Cursor} {y : Reading α} (h : d.rest.length ≤ s.length) :
    Parallel s s' R (.ok (a, d)) y := by
  rintro _ _ ⟨⟩ hlt
  omega

/-- Results may be passed on through functions that respect the relations. -/
theorem Parallel.map {β : Type} {Q : β → β → Prop} {f : α → β} {x y : Reading α}
    (h : Parallel s s' R x y) (hf : ∀ a a', R a a' → Q (f a) (f a')) :
    Parallel s s' Q (x.map fun (a, c) => (f a, c)) (y.map fun (a, c) => (f a, c)) := by
  intro b d hx hlt
  cases x with
  | error => cases hx
  | ok p =>
    cases hx
    obtain ⟨a', d', rfl, ha, hd⟩ := h _ _ rfl hlt
    exact ⟨f a', d', rfl, hf _ _ ha, hd⟩

end Parallel

variable {unicode inClass : Bool} {start start' opening opening' : Nat}

theorem abreast_legacyDecimal {ch : Char} {c c' d d' : Cursor} (h : Abreast s s' c c')
    (hc : c.next? = some (ch, d)) (hc' : c'.next? = some (ch, d')) (hd : Abreast s s' d d') :
    ∃ x e e', legacyDecimal c = (x, e) ∧ legacyDecimal c' = (x, e') ∧ Abreast s s' e e' := by
  rcases alike_octalEscape? h with ⟨hx, hy⟩ | ⟨n, e, e', hx, hy, he⟩
  · exact ⟨ch, d, d', by simp [legacyDecimal, hx, hc], by simp [legacyDecimal, hy, hc'], hd⟩
  · exact ⟨Char.ofNat n, e, e', by simp [legacyDecimal, hx], by simp [legacyDecimal, hy], he⟩

theorem parallel_controlEscape {b b' c c' : Cursor} (hb : Abreast s s' b b')
    (h : Abreast s s' c c') :
    Parallel s s' Eq (controlEscape unicode inClass start b c)
      (controlEscape unicode inClass start' b' c') := by
  have hp : isControlLetter unicode inClass ']' = false := by
    cases unicode <;> cases inClass <;> decide
  unfold controlEscape
  rcases alike_filter_next? hp h with ⟨hx, hy⟩ | ⟨ch, d, d', hx, hy, hd⟩
  · simp only [hx, hy]
    cases unicode with
    | true => exact .error
    | false => exact .ok rfl hb
  · simp only [hx, hy]
    exact .ok rfl hd

theorem parallel_digitEscape {ch : Char} {c c' d d' : Cursor} (h : Abreast s s' c c')
    (hc : c.next? = some (ch, d)) (hc' : c'.next? = some (ch, d')) (hd : Abreast s s' d d') :
    Parallel s s' Eq (digitEscape unicode start ch c d) (digitEscape unicode start' ch c' d') := by
  obtain ⟨x, e, e', hx, hy, he⟩ := abreast_legacyDecimal h hc hc' hd
  unfold digitEscape
  rw [hd.peek?_eq, hx, hy]
  split
  · exact .ok rfl hd
  · cases unicode with
    | true => exact .error
    | false => exact .ok rfl he

theorem parallel_hexEscape {c c' : Cursor} (h : Abreast s s' c c') :
    Parallel s s' Eq (hexEscape unicode start c) (hexEscape unicode start' c') := by
  unfold hexEscape
  rcases alike_hexDigits? 2 h with ⟨hx, hy⟩ | ⟨n, d, d', hx, hy, hd⟩
  · simp only [hx, hy]
    cases unicode with
    | true => exact .error
    | false => exact .ok rfl h
  · simp only [hx, hy]
    exact .ok rfl hd

theorem parallel_bracedCodePoint {c c' : Cursor} (h : Abreast s s' c c') :
    Parallel s s' Eq (bracedCodePoint start c) (bracedCodePoint start' c') := by
  obtain ⟨x, d, d', hx, hy, hd⟩ := abreast_hexUpTo 0x10ffff h
  unfold bracedCodePoint
  rw [hx, hy]
  cases x with
  | none => exact .error
  | some code =>
    rcases alike_eat? '}' (by decide) hd with ⟨hx, hy⟩ | ⟨e, e', hx, hy, he⟩
    · simp only [hx, hy]
      exact .error
    · simp only [hx, hy]
      exact .ok rfl he

theorem alike_lowSurrogate? {c c' : Cursor} (h : Abreast s s' c c') :
    Alike s s' (lowSurrogate? c) (lowSurrogate? c') := by
  unfold lowSurrogate?
  simp only [eatAll?]
  rcases alike_eat? '\\' (by decide) h with ⟨hx, hy⟩ | ⟨d, d', hx, hy, hd⟩
  · left
    simp [hx, hy]
  rcases alike_eat? 'u' (by decide) hd with ⟨hx', hy'⟩ | ⟨e, e', hx', hy', he⟩
  · left
    simp [hx, hy, hx', hy']
  simp only [hx, hy, hx', hy', Option.bind_some]
  rcases alike_hexDigits? 4 he with ⟨hx, hy⟩ | ⟨n, f, f', hx, hy, hf⟩
  · left
    simp [hx, hy, Option.filter]
  · by_cases hn : isLowSurrogate n
    · right
      exact ⟨n, f, f', by simp [hx, Option.filter, hn], by simp [hy, Option.filter, hn], hf⟩
    · left
      simp [hx, hy, Option.filter, hn]

theorem parallel_unicodeEscape {c c' : Cursor} (h : Abreast s s' c c') :
    Parallel s s' Eq (unicodeEscape unicode start c) (unicodeEscape unicode start' c') := by
  have hbrace : ((if unicode then c.eat? '{' else none) = none ∧
      (if unicode then c'.eat? '{' else none) = none) ∨
      ∃ d d', (if unicode then c.eat? '{' else none) = some d ∧
        (if unicode then c'.eat? '{' else none) = some d' ∧ Abreast s s' d d' := by
    cases unicode with
    | true => exact alike_eat? '{' (by decide) h
    | false => exact .inl ⟨rfl, rfl⟩
  unfold unicodeEscape
  rcases hbrace with ⟨hx, hy⟩ | ⟨d, d', hx, hy, hd⟩
  · rw [hx, hy]
    rcases alike_hexDigits? 4 h with ⟨hx, hy⟩ | ⟨n, d, d', hx, hy, hd⟩
    · simp only [hx, hy]
      cases unicode with
      | true => exact .error
      | false => exact .ok rfl h
    · simp only [hx, hy]
      by_cases hn : isHighSurrogate n
      · simp only [hn, if_true]
        rcases alike_lowSurrogate? hd with ⟨hx, hy⟩ | ⟨m, e, e', hx, hy, he⟩
        · simp only [hx, hy]
          exact .ok rfl hd
        · simp only [hx, hy]
          exact .ok rfl he
      · simp only [hn, Bool.false_eq_true, if_false]
        exact .ok rfl hd
  · rw [hx, hy]
    exact parallel_bracedCodePoint hd

/-- Both escapes begin with the same character, which is not the closing bracket. -/
theorem parallel_characterEscape {ch : Char} {c c' d d' : Cursor} (h : Abreast s s' c c')
    (hc : c.next? = some (ch, d)) (hc' : c'.next? = some (ch, d')) (hd : Abreast s s' d d') :
    Parallel s s' Eq (characterEscape unicode inClass start c)
      (characterEscape unicode inClass start' c') := by
  unfold characterEscape
  simp only [hc, hc']
  split
  · exact .ok rfl hd
  split
  · exact parallel_controlEscape h hd
  split
  · exact parallel_digitEscape h hc hc' hd
  split
  · exact parallel_hexEscape hd
  split
  · exact parallel_unicodeEscape hd
  split
  · exact .error
  · exact .ok rfl hd

/-- Members of a class that are the same but for where they stand. -/
def SameMember : ClassAtom → ClassAtom → Prop
  | .property p, .property q => p.unplaced = q.unplaced
  | a, b => a = b

theorem SameMember.eq_code {n : Nat} {a : ClassAtom} (h : SameMember (.code n) a) :
    a = .code n := by
  cases a <;> cases h
  rfl

theorem SameMember.item_unplaced {a b : ClassAtom} (h : SameMember a b) :
    a.item.unplaced = b.item.unplaced := by
  cases a with
  | code n => rw [h.eq_code]
  | escape kind =>
    cases b with
    | escape =>
      cases h
      rfl
    | _ => cases h
  | property p =>
    cases b with
    | property q => exact congrArg ClassItem.property h
    | _ => cases h

theorem parallel_propertyEscape {negated : Bool} {c c' : Cursor} (h : Abreast s s' c c') :
    Parallel s s' (fun p q => p.unplaced = q.unplaced) (propertyEscape negated start c)
      (propertyEscape negated start' c') := by
  unfold propertyEscape
  rcases alike_eat? '{' (by decide) h with ⟨hx, hy⟩ | ⟨d, d', hx, hy, hd⟩
  · simp only [hx, hy]
    exact .error
  obtain ⟨w, e, e', hx', hy', he⟩ := abreast_takeWhile (p := isPropertyCharacter) (by decide) hd
  simp only [hx, hy, hx', hy']
  rcases alike_eat? '}' (by decide) he with ⟨hx, hy⟩ | ⟨f, f', hx, hy, hf⟩
  · simp only [hx, hy]
    exact .error
  · simp only [hx, hy]
    cases nameAndValue? w with
    | none => exact .error
    | some p => exact .ok rfl hf

/-- An escaped bracket is read past the bracket at which the texts part. -/
theorem classEscapeAtom_bracket {c d : Cursor} (hc : c.next? = some (']', d)) :
    classEscapeAtom unicode opening start c = .ok (.code ']'.toNat, d) := by
  unfold classEscapeAtom characterEscape
  cases unicode <;> simp [hc, ClassEscape.ofLetter?, controlCode?, syntaxCharacters, Except.map]

theorem parallel_classEscapeAtom {c c' : Cursor} (h : Abreast s s' c c') :
    Parallel s s' SameMember (classEscapeAtom unicode opening start c)
      (classEscapeAtom unicode opening' start' c') := by
  rcases h.next?_cases with ⟨d, d', hc, -, hd, -⟩ | ⟨ch, d, d', hc, hc', hd⟩
  · rw [classEscapeAtom_bracket hc]
    exact .passed (Nat.le_of_eq (congrArg List.length hd))
  unfold classEscapeAtom
  simp only [hc, hc']
  split
  · exact .ok rfl hd
  split
  · exact .ok rfl hd
  split
  · exact (parallel_propertyEscape hd).map fun _ _ hp => hp
  split
  · exact .error
  · exact (parallel_characterEscape h hc hc' hd).map fun _ _ heq => by rw [heq]; rfl

theorem parallel_classAtom {c c' : Cursor} (h : Abreast s s' c c') :
    Parallel s s' SameMember (classAtom unicode opening c) (classAtom unicode opening' c') := by
  unfold classAtom
  rcases h.next?_cases with ⟨d, d', hc, hc', hd, -⟩ | ⟨ch, d, d', hc, hc', hd⟩
  · simp only [hc, hc', Char.reduceEq, if_false]
    exact .passed (Nat.le_of_eq (congrArg List.length hd))
  · simp only [hc, hc']
    split
    · exact parallel_classEscapeAtom hd
    · exact .ok rfl hd

theorem alike_rangeHyphen? {c c' : Cursor} (h : Abreast s s' c c') :
    (rangeHyphen? c = none ∧ rangeHyphen? c' = none) ∨
      ∃ d d', rangeHyphen? c = some d ∧ rangeHyphen? c' = some d' ∧ Abreast s s' d d' := by
  unfold rangeHyphen?
  rcases alike_eat? '-' (by decide) h with ⟨hx, hy⟩ | ⟨d, d', hx, hy, hd⟩
  · left
    simp [hx, hy]
  · simp only [hx, hy, hd.peek?_eq]
    split
    · exact .inl ⟨rfl, rfl⟩
    · exact .inr ⟨d, d', rfl, rfl, hd⟩

theorem parallel_joinAtoms {low low' high high' : ClassAtom} (hlow : SameMember low low')
    (hhigh : SameMember high high') {c c' : Cursor} (h : Abreast s s' c c') :
    Parallel s s' SameItems (joinAtoms unicode start low high c)
      (joinAtoms unicode start' low' high' c') := by
  have beside : Parallel s s' SameItems
      (if unicode then c.fail .invalidClassEscape start
        else .ok ([low.item, .char '-', high.item], c))
      (if unicode then c'.fail .invalidClassEscape start'
        else .ok ([low'.item, .char '-', high'.item], c')) := by
    cases unicode with
    | true => exact .error
    | false =>
      have hitems : SameItems [low.item, .char '-', high.item]
          [low'.item, .char '-', high'.item] := by
        simp only [SameItems, List.map_cons, List.map_nil, hlow.item_unplaced, hhigh.item_unplaced]
      exact .ok hitems h
  cases low with
  | code first =>
    obtain rfl := hlow.eq_code
    cases high with
    | code last =>
      obtain rfl := hhigh.eq_code
      unfold joinAtoms
      dsimp only
      split
      · exact .error
      · exact .ok rfl h
    | _ => cases high' <;> first | exact beside | cases hhigh
  | _ => cases low' <;> first | exact beside | cases hlow

theorem parallel_classMember {c c' : Cursor} (h : Abreast s s' c c') :
    Parallel s s' SameItems (classMember unicode opening c)
      (classMember unicode opening' c') := by
  have hatom {c c' : Cursor} (h : Abreast s s' c c') : Parallel s s' SameMember
      (classAtom unicode opening c) (classAtom unicode opening' c') := parallel_classAtom h
  intro items e hx hlt
  unfold classMember at hx
  split at hx
  next => cases hx
  next low d hlow =>
    split at hx
    next hhyphen =>
      cases hx
      obtain ⟨low', d', hlow', hsame, hd⟩ := hatom h _ _ hlow hlt
      rcases alike_rangeHyphen? hd with ⟨-, hnone⟩ | ⟨_, _, hsome, -⟩
      · refine ⟨[low'.item], d', ?_, congrArg ([·]) hsame.item_unplaced, hd⟩
        simp only [classMember, hlow', hnone]
      · rw [hhyphen] at hsome
        cases hsome
    next f hhyphen =>
      split at hx
      next => cases hx
      next high g hhigh =>
        cases eq_of_joinAtoms hx
        have hdf := (advances_of_rangeHyphen? hhyphen).length_lt
        have hfg := (advances_of_classAtom hhigh).length_lt
        obtain ⟨low', d', hlow', hsame, hd⟩ := hatom h _ _ hlow (by omega)
        rcases alike_rangeHyphen? hd with ⟨hnone, -⟩ | ⟨f₀, f', hsome, hf', hf⟩
        · rw [hhyphen] at hnone
          cases hnone
        · rw [hhyphen] at hsome
          cases hsome
          obtain ⟨high', g', hhigh', hsame', hg⟩ := hatom hf _ _ hhigh hlt
          have hitems : Parallel s s' SameItems
              (joinAtoms unicode c.position low high e)
              (joinAtoms unicode c'.position low' high' g') := parallel_joinAtoms hsame hsame' hg
          obtain ⟨items', g'', hjoin, hsameItems, hg'⟩ := hitems _ _ hx hlt
          refine ⟨items', g'', ?_, hsameItems, hg'⟩
          simp only [classMember, hlow', hf', hhigh', hjoin]

theorem classMembers_bracket {c : Cursor} (h : c.peek? = some ']') :
    classMembers unicode opening c = .ok ([], c) := by
  rw [classMembers_eq, h]
  rfl

theorem classMembers_cons {ch : Char} {items more : List ClassItem} {c d e : Cursor}
    (hpeek : c.peek? = some ch) (hch : ch ≠ ']')
    (hfirst : classMember unicode opening c = .ok (items, d))
    (hmore : classMembers unicode opening d = .ok (more, e)) :
    classMembers unicode opening c = .ok (items ++ more, e) := by
  rw [classMembers_eq, hpeek]
  split
  next hnone => cases hnone
  next hsome => exact absurd (Option.some.inj hsome) hch
  next => simp only [hfirst, hmore]

theorem parallel_classMembers {c c' : Cursor} (h : Abreast s s' c c') :
    Parallel s s' SameItems (classMembers unicode opening c)
      (classMembers unicode opening' c') := by
  intro items e hx hlt
  fun_induction classMembers unicode opening c generalizing c' items with
  | case1 => cases hx
  | case2 c hpeek =>
    cases hx
    rw [h.peek?_eq] at hpeek
    exact ⟨[], c', classMembers_bracket hpeek, rfl, h⟩
  | case3 => cases hx
  | case4 => cases hx
  | case5 c ch hne hpeek first d hfirst more f hmore ih =>
    cases hx
    have hdf := (reaches_of_classMembers hmore).length_le
    have hmember : Parallel s s' SameItems (classMember unicode opening c)
      (classMember unicode opening' c') := parallel_classMember h
    obtain ⟨first', d', hfirst', hsame, hd⟩ := hmember _ _ hfirst (by omega)
    obtain ⟨more', f', hmore', hsameMore, hf⟩ := ih hd _ hmore
    rw [h.peek?_eq] at hpeek
    exact ⟨first' ++ more', f', classMembers_cons hpeek hne hfirst' hmore',
      hsame.append hsameMore, hf⟩

end Grammar

end PatternBlocks
