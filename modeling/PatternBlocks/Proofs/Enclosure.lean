import PatternBlocks.Proofs.Erasure

/-!
Reading in a longer text. What stands before a closing parenthesis is read like the same text by
itself, up to spans: no reader looks past the parenthesis, and none depends on where it began.
-/
namespace PatternBlocks

/-! ### Cursors -/

namespace Cursor

/-- The cursor in a longer text, with `shift` bytes more before it, and with a closing parenthesis
and `after` behind what is left. -/
def enclose (shift : Nat) (after : List Char) (c : Cursor) : Cursor :=
  ⟨c.rest ++ ')' :: after, c.position + shift⟩

/-- What was read, with the cursor in the longer text. -/
def encloseRead {α : Type} (shift : Nat) (after : List Char) (read : α × Cursor) : α × Cursor :=
  (read.1, read.2.enclose shift after)

variable {shift : Nat} {after : List Char}

theorem enclose_cons (ch : Char) (rest : List Char) (position : Nat) :
    enclose shift after ⟨ch :: rest, position⟩ =
      ⟨ch :: (rest ++ ')' :: after), position + shift⟩ :=
  rfl

theorem enclose_skip (ch : Char) (rest : List Char) (position : Nat) :
    enclose shift after ⟨rest, position + ch.utf8Size⟩ =
      ⟨rest ++ ')' :: after, position + shift + ch.utf8Size⟩ := by
  rw [enclose, Nat.add_right_comm]

/-- The cursor in the longer text that stands before the same characters. -/
theorem eq_enclose {c d e : Cursor} (hcd : c.Reaches d) (h : (c.enclose shift after).Reaches e)
    (hrest : e.rest = d.rest ++ ')' :: after) : e = d.enclose shift after := by
  obtain ⟨v, hv, hposition⟩ := hcd
  obtain ⟨w, hw, hposition'⟩ := h
  obtain ⟨erest, eposition⟩ := e
  dsimp only at hrest
  subst hrest
  simp only [enclose, hv, List.append_assoc, List.append_cancel_right_eq] at hw
  subst hw
  simp only [enclose, hposition, mk.injEq, true_and] at hposition' ⊢
  omega

theorem next?_enclose {c d : Cursor} {ch : Char} (h : c.next? = some (ch, d)) :
    (c.enclose shift after).next? = some (ch, d.enclose shift after) := by
  obtain ⟨rest, position⟩ := c
  cases rest with
  | nil => cases h
  | cons ch rest =>
    cases h
    rw [enclose_skip]
    rfl

theorem filter_next?_enclose {p : Char → Bool} (hp : p ')' = false) (c : Cursor) :
    (c.enclose shift after).next?.filter (p ·.1) =
      (c.next?.filter (p ·.1)).map (encloseRead shift after) := by
  obtain ⟨rest, position⟩ := c
  cases rest with
  | nil => simp [enclose, next?, Option.filter, hp]
  | cons ch rest =>
    rw [next?_enclose (next?_cons ch rest position), next?_cons]
    cases hch : p ch <;> simp [Option.filter, hch, encloseRead]

theorem any_peek?_enclose {p : Char → Bool} (hp : p ')' = false) (c : Cursor) :
    (c.enclose shift after).peek?.any p = c.peek?.any p := by
  obtain ⟨rest, position⟩ := c
  cases rest <;> simp [enclose, peek?, hp]

theorem eat?_enclose {ch : Char} (hch : ch ≠ ')') (c : Cursor) :
    (c.enclose shift after).eat? ch = (c.eat? ch).map (enclose shift after) := by
  obtain ⟨rest, position⟩ := c
  cases rest with
  | nil => simp [enclose, eat?, hch.symm]
  | cons ch' rest =>
    rw [enclose_cons, eat?, eat?]
    split
    · rw [Option.map_some, enclose_skip]
    · rfl

theorem eat?_enclose_of_some {c d : Cursor} {ch : Char} (h : c.eat? ch = some d) :
    (c.enclose shift after).eat? ch = some (d.enclose shift after) := by
  obtain ⟨rest, position⟩ := c
  cases rest with
  | nil => cases h
  | cons ch' rest =>
    rw [enclose_cons, eat?]
    rw [eat?] at h
    split at h <;> cases h
    next hch => rw [if_pos hch, enclose_skip]

theorem eatAll?_enclose {expected : List Char} (h : ')' ∉ expected) (c : Cursor) :
    (c.enclose shift after).eatAll? expected =
      (c.eatAll? expected).map (enclose shift after) := by
  induction expected generalizing c with
  | nil => rfl
  | cons ch expected ih =>
    rw [List.mem_cons, not_or] at h
    rw [eatAll?, eatAll?, eat?_enclose (Ne.symm h.1)]
    cases c.eat? ch with
    | none => rfl
    | some d => exact ih h.2 d

theorem takeWhile_enclose {p : Char → Bool} (hp : p ')' = false) (c : Cursor) :
    (c.enclose shift after).takeWhile p = encloseRead shift after (c.takeWhile p) := by
  simp only [takeWhile, enclose, encloseRead, takeWhile_append_cons hp, dropWhile_append_cons hp,
    Nat.add_right_comm]

theorem groupName?_enclose (c : Cursor) :
    (c.enclose shift after).groupName? = c.groupName?.map (encloseRead shift after) := by
  have hstart : GroupName.isStart ')' = false := by decide +kernel
  have hcontinue : GroupName.isContinue ')' = false := by decide +kernel
  cases hc : c.next? with
  | none =>
    obtain ⟨rest, position⟩ := c
    cases rest with
    | nil => simp [groupName?, enclose, next?, hstart]
    | cons => cases hc
  | some next =>
    simp only [groupName?, next?_enclose hc, hc, takeWhile_enclose hcontinue]
    split <;> rfl

theorem digit?_enclose {base : Nat} (hb : PatternBlocks.digit? base ')' = none) (c : Cursor) :
    (c.enclose shift after).digit? base = (c.digit? base).map (encloseRead shift after) := by
  cases hc : c.next? with
  | none =>
    obtain ⟨rest, position⟩ := c
    cases rest with
    | nil => simp [digit?, enclose, next?, hb]
    | cons => cases hc
  | some next =>
    simp only [digit?, next?_enclose hc, hc, Option.map_map]
    rfl

theorem decimalFrom_enclose (value : Nat) (rest : List Char) (position : Nat) :
    decimalFrom value (rest ++ ')' :: after) (position + shift) =
      encloseRead shift after (decimalFrom value rest position) := by
  induction rest generalizing value position with
  | nil =>
    have hparenthesis : PatternBlocks.digit? 10 ')' = none := by decide
    simp only [List.nil_append, decimalFrom, hparenthesis]
    rfl
  | cons ch rest ih =>
    simp only [List.cons_append, decimalFrom]
    split
    · rfl
    · rw [Nat.add_right_comm, ih]

theorem decimal?_enclose (c : Cursor) :
    (c.enclose shift after).decimal? = c.decimal?.map (encloseRead shift after) := by
  have hdecimal : decimalFrom 0 (c.rest ++ ')' :: after) (c.position + shift) =
      encloseRead shift after (decimalFrom 0 c.rest c.position) := decimalFrom_enclose 0 ..
  unfold decimal?
  rw [digit?_enclose (by decide), Option.isSome_map]
  split
  · exact congrArg some hdecimal
  · rfl

theorem hexDigitsFrom?_enclose (count value : Nat) (c : Cursor) :
    hexDigitsFrom? count value (c.enclose shift after) =
      (hexDigitsFrom? count value c).map (encloseRead shift after) := by
  induction count generalizing value c with
  | zero => rfl
  | succ count ih =>
    simp only [hexDigitsFrom?]
    rw [digit?_enclose (by decide)]
    cases c.digit? 16 with
    | none => rfl
    | some read => exact ih ..

theorem hexDigits?_enclose (count : Nat) (c : Cursor) :
    (c.enclose shift after).hexDigits? count =
      (c.hexDigits? count).map (encloseRead shift after) :=
  hexDigitsFrom?_enclose count 0 c

theorem hexUpToFrom_enclose (limit value : Nat) (rest : List Char) (position : Nat) :
    hexUpToFrom limit value (rest ++ ')' :: after) (position + shift) =
      encloseRead shift after (hexUpToFrom limit value rest position) := by
  induction rest generalizing value position with
  | nil =>
    have hparenthesis : PatternBlocks.digit? 16 ')' = none := by decide
    simp only [List.nil_append, hexUpToFrom, hparenthesis]
    rfl
  | cons ch rest ih =>
    simp only [List.cons_append, hexUpToFrom]
    split
    · rfl
    · split
      · rw [Nat.add_right_comm, ih]
      · rfl

theorem hexUpTo_enclose (limit : Nat) (c : Cursor) :
    (c.enclose shift after).hexUpTo limit = encloseRead shift after (c.hexUpTo limit) := by
  unfold hexUpTo
  rw [digit?_enclose (by decide), Option.isSome_map]
  split
  · exact hexUpToFrom_enclose ..
  · rfl

theorem octalDigits_enclose (count value : Nat) (c : Cursor) :
    octalDigits count value (c.enclose shift after) =
      encloseRead shift after (octalDigits count value c) := by
  induction count generalizing value c with
  | zero => rfl
  | succ count ih =>
    simp only [octalDigits]
    rw [digit?_enclose (by decide)]
    cases c.digit? 8 with
    | none => rfl
    | some read => exact ih ..

theorem octalEscape?_enclose (c : Cursor) :
    (c.enclose shift after).octalEscape? = c.octalEscape?.map (encloseRead shift after) := by
  unfold octalEscape?
  rw [digit?_enclose (by decide)]
  cases c.digit? 8 with
  | none => rfl
  | some read => exact congrArg some (octalDigits_enclose ..)

end Cursor

open Cursor (encloseRead)

namespace Grammar

variable {mode : Mode} {unicode inClass : Bool} {shift start start' n : Nat} {after : List Char}
  {b c d e : Cursor} {ch : Char}

/-! ### Escapes -/

theorem legacyDecimal_enclose (hc : c.next? = some (ch, d)) :
    legacyDecimal (c.enclose shift after) = encloseRead shift after (legacyDecimal c) := by
  unfold legacyDecimal
  rw [Cursor.octalEscape?_enclose, Cursor.next?_enclose hc, hc]
  cases c.octalEscape? <;> rfl

theorem controlEscape_enclose (h : controlEscape unicode inClass start b c = .ok (n, d)) :
    controlEscape unicode inClass start' (b.enclose shift after) (c.enclose shift after) =
      .ok (n, d.enclose shift after) := by
  have hletter : isControlLetter unicode inClass ')' = false := by
    cases unicode <;> cases inClass <;> decide
  unfold controlEscape at h ⊢
  rw [Cursor.filter_next?_enclose hletter]
  split at h
  next hnext =>
    cases h
    simp only [hnext, Option.map_some, encloseRead]
  next hnext =>
    split at h <;> cases h
    next hunicode =>
      simp only [hnext, Option.map_none]
      rw [if_neg hunicode]

theorem digitEscape_enclose (hc : c.next? = some (ch, d))
    (h : digitEscape unicode start ch c d = .ok (n, e)) :
    digitEscape unicode start' ch (c.enclose shift after) (d.enclose shift after) =
      .ok (n, e.enclose shift after) := by
  unfold digitEscape at h ⊢
  rw [Cursor.any_peek?_enclose (by decide)]
  split at h
  next hzero =>
    cases h
    rw [if_pos hzero]
  next hzero =>
    rw [if_neg hzero]
    split at h
    next => cases h
    next hunicode =>
      cases h
      rw [if_neg hunicode, legacyDecimal_enclose hc]
      rfl

theorem hexEscape_enclose (h : hexEscape unicode start c = .ok (n, d)) :
    hexEscape unicode start' (c.enclose shift after) = .ok (n, d.enclose shift after) := by
  unfold hexEscape at h ⊢
  rw [Cursor.hexDigits?_enclose]
  split at h
  next hdigits =>
    cases h
    simp only [hdigits, Option.map_some, encloseRead]
  next hdigits =>
    split at h <;> cases h
    next hunicode =>
      simp only [hdigits, Option.map_none]
      rw [if_neg hunicode]

theorem bracedCodePoint_enclose (h : bracedCodePoint start c = .ok (n, d)) :
    bracedCodePoint start' (c.enclose shift after) = .ok (n, d.enclose shift after) := by
  unfold bracedCodePoint at h ⊢
  rw [Cursor.hexUpTo_enclose]
  split at h
  next => cases h
  next hcode =>
    split at h
    next => cases h
    next hclose =>
      cases h
      simp only [hcode, encloseRead, Cursor.eat?_enclose_of_some hclose]

theorem lowSurrogate?_enclose (c : Cursor) :
    lowSurrogate? (c.enclose shift after) = (lowSurrogate? c).map (encloseRead shift after) := by
  unfold lowSurrogate?
  rw [Cursor.eatAll?_enclose (by decide)]
  cases c.eatAll? ['\\', 'u'] with
  | none => rfl
  | some d =>
    simp only [Option.map_some, Cursor.hexDigits?_enclose, Option.filter_map]
    rfl

theorem unicodeEscape_enclose (h : unicodeEscape unicode start c = .ok (n, d)) :
    unicodeEscape unicode start' (c.enclose shift after) = .ok (n, d.enclose shift after) := by
  have hbrace : (if unicode then (c.enclose shift after).eat? '{' else none) =
      (if unicode then c.eat? '{' else none).map (Cursor.enclose shift after) := by
    rw [Cursor.eat?_enclose (by decide)]
    cases unicode <;> rfl
  unfold unicodeEscape at h ⊢
  rw [hbrace, Cursor.hexDigits?_enclose]
  split at h
  next hopen =>
    simp only [hopen, Option.map_some]
    exact bracedCodePoint_enclose h
  next hopen =>
    simp only [hopen, Option.map_none]
    split at h
    next hdigits =>
      split at h <;> cases h
      next hunicode =>
        simp only [hdigits, Option.map_none]
        rw [if_neg hunicode]
    next unit f hdigits =>
      have hlow : (if isHighSurrogate unit then lowSurrogate? (f.enclose shift after) else none) =
          (if isHighSurrogate unit then lowSurrogate? f else none).map
            (encloseRead shift after) := by
        rw [lowSurrogate?_enclose]
        split <;> rfl
      simp only [hdigits, Option.map_some, encloseRead, hlow]
      split at h
      next hpair =>
        cases h
        simp only [hpair, Option.map_none]
      next hpair =>
        simp only [Except.ok.injEq, Prod.mk.injEq] at h
        obtain ⟨rfl, rfl⟩ := h
        simp only [hpair, Option.map_some, encloseRead]

theorem characterEscape_enclose (h : characterEscape unicode inClass start c = .ok (n, d)) :
    characterEscape unicode inClass start' (c.enclose shift after) =
      .ok (n, d.enclose shift after) := by
  unfold characterEscape at h ⊢
  split at h
  next => cases h
  next hc =>
    rw [Cursor.next?_enclose hc]
    dsimp only
    split at h
    next =>
      cases h
      rfl
    next =>
      split at h
      next hif =>
        rw [if_pos hif]
        exact controlEscape_enclose h
      rw [if_neg ‹_›]
      split at h
      next hif =>
        rw [if_pos hif]
        exact digitEscape_enclose hc h
      rw [if_neg ‹_›]
      split at h
      next hif =>
        rw [if_pos hif]
        exact hexEscape_enclose h
      rw [if_neg ‹_›]
      split at h
      next hif =>
        rw [if_pos hif]
        exact unicodeEscape_enclose h
      rw [if_neg ‹_›]
      split at h
      next => cases h
      rw [if_neg ‹_›]
      cases h
      rfl

theorem propertyEscape_enclose {negated : Bool} {p : Property}
    (h : propertyEscape negated start c = .ok (p, d)) :
    ∃ p', propertyEscape negated start' (c.enclose shift after) =
      .ok (p', d.enclose shift after) ∧ (Regex.property p').erase = (Regex.property p).erase := by
  unfold propertyEscape at h ⊢
  split at h
  next => cases h
  next hopen =>
    rw [Cursor.eat?_enclose_of_some hopen]
    dsimp only at h ⊢
    rw [Cursor.takeWhile_enclose (by decide)]
    split at h
    next => cases h
    next hclose =>
      simp only [encloseRead, Cursor.eat?_enclose_of_some hclose]
      split at h
      next => cases h
      next =>
        cases h
        exact ⟨_, rfl, rfl⟩

/-! ### Atoms -/

/-- The reading in the longer text is the same up to spans. -/
def EnclosesTo (shift : Nat) (after : List Char) (y : Reading Regex) (r : Regex) (d : Cursor) :
    Prop :=
  ∃ r', y = .ok (r', d.enclose shift after) ∧ r'.erase = r.erase

variable {r : Regex}

theorem decimalEscape_enclose (hc : c.next? = some (ch, e))
    (h : decimalEscape mode start c = .ok (r, d)) :
    EnclosesTo shift after (decimalEscape mode start' (c.enclose shift after)) r d := by
  have hdigits : (c.enclose shift after).decimal?.getD (0, c.enclose shift after) =
      encloseRead shift after (c.decimal?.getD (0, c)) := by
    rw [Cursor.decimal?_enclose]
    cases c.decimal? <;> rfl
  unfold EnclosesTo
  unfold decimalEscape at h ⊢
  dsimp only at h ⊢
  rw [hdigits]
  dsimp only [encloseRead]
  split at h
  next =>
    cases h
    exact ⟨_, rfl, rfl⟩
  next =>
    split at h
    next => cases h
    next hunicode =>
      cases h
      rw [if_neg hunicode, legacyDecimal_enclose hc]
      exact ⟨_, rfl, rfl⟩

theorem namedBackref_enclose (h : namedBackref mode start c = .ok (r, d)) :
    EnclosesTo shift after (namedBackref mode start' (c.enclose shift after)) r d := by
  unfold EnclosesTo
  unfold namedBackref at h ⊢
  split at h
  next hplain =>
    cases h
    rw [if_pos hplain]
    exact ⟨_, rfl, rfl⟩
  next hplain =>
    rw [if_neg hplain]
    split at h
    next => cases h
    next hopen =>
      simp only [Cursor.eat?_enclose_of_some hopen, Cursor.groupName?_enclose]
      split at h
      next => cases h
      next hname =>
        split at h
        next => cases h
        next hclose =>
          cases h
          simp only [hname, Option.map_some, encloseRead, Cursor.eat?_enclose_of_some hclose]
          exact ⟨_, rfl, rfl⟩

theorem characterAtom_enclose (h : characterAtom unicode start c = .ok (r, d)) :
    EnclosesTo shift after (characterAtom unicode start' (c.enclose shift after)) r d := by
  unfold EnclosesTo
  unfold characterAtom at h ⊢
  split at h
  next => cases h
  next hcode =>
    rw [characterEscape_enclose hcode]
    split at h
    next => cases h
    next hchar =>
      cases h
      simp only [hchar]
      exact ⟨_, rfl, rfl⟩

theorem atomEscape_enclose (h : atomEscape mode start c = .ok (r, d)) :
    EnclosesTo shift after (atomEscape mode start' (c.enclose shift after)) r d := by
  unfold atomEscape at h ⊢
  split at h
  next => cases h
  next hc =>
    rw [Cursor.next?_enclose hc]
    dsimp only
    split at h
    next =>
      cases h
      exact ⟨_, rfl, rfl⟩
    next =>
      iterate 2
        split at h
        next hif =>
          cases h
          rw [if_pos hif]
          exact ⟨_, rfl, rfl⟩
        rw [if_neg ‹_›]
      split at h
      next hif =>
        rw [if_pos hif]
        obtain ⟨⟨p, f⟩, hp, heq⟩ := map_eq_ok.mp h
        cases heq
        obtain ⟨p', hp', herase⟩ := propertyEscape_enclose hp
        exact ⟨_, map_eq_ok.mpr ⟨_, hp', rfl⟩, herase⟩
      rw [if_neg ‹_›]
      split at h
      next hif =>
        rw [if_pos hif]
        exact namedBackref_enclose h
      rw [if_neg ‹_›]
      split at h
      next hif =>
        rw [if_pos hif]
        exact decimalEscape_enclose hc h
      rw [if_neg ‹_›]
      exact characterAtom_enclose h

/-- A class ends at its own bracket, so what stands behind it makes no difference. -/
theorem bracketBody_enclose {b : Bracket} (h : bracketBody unicode start c = .ok (b, d)) :
    ∃ b', bracketBody unicode start' (c.enclose shift after) =
      .ok (b', d.enclose shift after) ∧ (Regex.bracket b').erase = (Regex.bracket b).erase := by
  obtain ⟨inside, hrest, hinside, hblock⟩ := isInside_of_bracketBody h
  have hcursor : c.enclose shift after =
      ⟨inside ++ ']' :: (d.rest ++ ')' :: after), c.position + shift⟩ := by
    rw [Cursor.enclose, hrest, List.append_assoc, List.cons_append]
  obtain ⟨b', d', hread, hrest', hblock'⟩ :=
    bracketBody_of_isInside hinside start' (c.position + shift) (d.rest ++ ')' :: after)
  rw [← hcursor] at hread
  obtain rfl := Cursor.eq_enclose (reaches_of_bracketBody h) (reaches_of_bracketBody hread) hrest'
  refine ⟨b', hread, ?_⟩
  have hsame := hblock'.trans hblock.symm
  simp only [Block.ofBracket, Block.mkCharClass, CharClass.ofBody, Block.charClass.injEq,
    CharClass.mk.injEq, Option.some.injEq] at hsame
  simp only [Regex.erase, hsame]

/-! ### Quantifiers -/

theorem upperBound_enclose (least : Nat) (c : Cursor) :
    upperBound least (c.enclose shift after) = encloseRead shift after (upperBound least c) := by
  unfold upperBound
  rw [Cursor.eat?_enclose (by decide)]
  cases c.eat? ',' with
  | none => rfl
  | some d =>
    simp only [Option.map_some, Cursor.decimal?_enclose]
    cases d.decimal? <;> rfl

theorem bounds_enclose (c : Cursor) :
    bounds (c.enclose shift after) = encloseRead shift after (bounds c) := by
  unfold bounds
  rw [Cursor.decimal?_enclose]
  cases c.decimal? with
  | none => rfl
  | some least =>
    simp only [Option.map_some, encloseRead, upperBound_enclose]
    rw [Cursor.eat?_enclose (by decide)]
    cases (upperBound least.1 least.2).2.eat? '}' <;> rfl

theorem braces?_enclose {read : Option (Count × Cursor)} (h : braces? unicode c = .ok read) :
    braces? unicode (c.enclose shift after) = .ok (read.map (encloseRead shift after)) := by
  unfold braces? at h ⊢
  rw [Cursor.eat?_enclose (by decide)]
  split at h
  next hopen =>
    cases h
    simp only [hopen]
    rfl
  next hopen =>
    simp only [hopen, Option.map_some, bounds_enclose]
    split at h
    next hbounds =>
      split at h <;> cases h
      next hunicode =>
        simp only [hbounds, encloseRead]
        rw [if_neg hunicode]
        rfl
    next hbounds =>
      simp only [hbounds, encloseRead]
      split at h
      next => cases h
      rw [if_neg ‹_›]
      split at h <;> cases h
      rfl

theorem count?_enclose {read : Option (Count × Cursor)} (h : count? unicode c = .ok read) :
    count? unicode (c.enclose shift after) = .ok (read.map (encloseRead shift after)) := by
  obtain ⟨rest, position⟩ := c
  cases rest with
  | nil =>
    cases h
    rfl
  | cons ch rest =>
    unfold count? at h ⊢
    rw [Cursor.next?_enclose (Cursor.next?_cons ch rest position)]
    rw [Cursor.next?_cons] at h
    split at h
    case h_4 hstar hplus hmark =>
      split
      next heq =>
        cases heq
        exact absurd rfl (hstar _)
      next heq =>
        cases heq
        exact absurd rfl (hplus _)
      next heq =>
        cases heq
        exact absurd rfl (hmark _)
      next => exact braces?_enclose h
    all_goals
      next heq =>
        cases heq
        cases h
        rfl

theorem greediness_enclose (c : Cursor) :
    greediness (c.enclose shift after) = encloseRead shift after (greediness c) := by
  unfold greediness
  rw [Cursor.eat?_enclose (by decide)]
  cases c.eat? '?' <;> rfl

theorem quantifier?_enclose {read : Option ((Count × Bool) × Cursor)}
    (h : quantifier? unicode c = .ok read) :
    quantifier? unicode (c.enclose shift after) = .ok (read.map (encloseRead shift after)) := by
  unfold quantifier? at h ⊢
  split at h
  next => cases h
  next hcount =>
    cases h
    rw [count?_enclose hcount]
    rfl
  next hcount =>
    cases h
    rw [count?_enclose hcount]
    simp only [Option.map_some, encloseRead, greediness_enclose]
    rfl

theorem mayRepeat_erase (r : Regex) : mayRepeat unicode r.erase = mayRepeat unicode r := by
  cases r with
  | group kind => cases kind <;> rfl
  | _ => rfl

theorem repeated_enclose {a a' : Regex} (ha : a'.erase = a.erase)
    (h : repeated unicode start a c = .ok (r, d)) :
    EnclosesTo shift after (repeated unicode start' a' (c.enclose shift after)) r d := by
  have hmay : mayRepeat unicode a' = mayRepeat unicode a := by
    rw [← mayRepeat_erase a', ha, mayRepeat_erase]
  unfold repeated at h ⊢
  split at h
  next => cases h
  next hnone =>
    cases h
    rw [quantifier?_enclose hnone]
    exact ⟨a', rfl, ha⟩
  next hsome =>
    rw [quantifier?_enclose hsome]
    simp only [Option.map_some, encloseRead, hmay]
    split at h
    next hif =>
      cases h
      rw [if_pos hif]
      exact ⟨_, rfl, by simp only [Regex.erase, ha]⟩
    next => cases h

theorem braceAtom_enclose (h : braceAtom unicode c d = .ok (r, e)) :
    EnclosesTo shift after (braceAtom unicode (c.enclose shift after) (d.enclose shift after))
      r e := by
  unfold braceAtom at h ⊢
  split at h
  next => cases h
  next => cases h
  next hnone =>
    cases h
    rw [braces?_enclose hnone]
    exact ⟨_, rfl, rfl⟩

theorem plainAtom_enclose (h : plainAtom mode ch c d = .ok (r, e)) :
    EnclosesTo shift after (plainAtom mode ch (c.enclose shift after) (d.enclose shift after))
      r e := by
  unfold plainAtom at h ⊢
  dsimp only at h ⊢
  iterate 3
    split at h
    next hif =>
      cases h
      rw [if_pos hif]
      exact ⟨_, rfl, rfl⟩
    rw [if_neg ‹_›]
  split at h
  next hif =>
    rw [if_pos hif]
    obtain ⟨⟨b, f⟩, hb, heq⟩ := map_eq_ok.mp h
    cases heq
    obtain ⟨b', hb', herase⟩ := bracketBody_enclose hb
    exact ⟨_, map_eq_ok.mpr ⟨_, hb', rfl⟩, herase⟩
  rw [if_neg ‹_›]
  split at h
  next hif =>
    rw [if_pos hif]
    exact atomEscape_enclose h
  rw [if_neg ‹_›]
  split at h
  next => cases h
  rw [if_neg ‹_›]
  split at h
  next hif =>
    rw [if_pos hif]
    exact braceAtom_enclose h
  rw [if_neg ‹_›]
  split at h <;> cases h
  next hif =>
    rw [if_neg hif]
    exact ⟨_, rfl, rfl⟩

/-! ### Groups -/

/-- The state in the longer text, where the same references stand elsewhere. -/
def State.enclose (shift : Nat) (after : List Char) (references : List (String × Span))
    (s : State) : State :=
  ⟨s.cursor.enclose shift after, s.groups, references⟩

variable {s t : State} {o : Opening} {references : List (String × Span)}

theorem capture_enclose {name : Option String} (h : capture name start s = .ok (o, t)) :
    capture name start' (s.enclose shift after references) =
      .ok (o, t.enclose shift after references) := by
  unfold capture at h ⊢
  rw [State.enclose]
  split at h
  next => cases h
  next hregister =>
    cases h
    simp only [hregister]
    rfl

theorem markedOpening?_enclose (c : Cursor) :
    markedOpening? (c.enclose shift after) =
      (markedOpening? c).map (encloseRead shift after) := by
  have hmarks : ∀ x ∈ markedOpenings, ')' ∉ x.1 := by decide
  unfold markedOpening?
  generalize markedOpenings = marks at hmarks ⊢
  induction marks with
  | nil => rfl
  | cons x xs ih =>
    obtain ⟨mark, opening⟩ := x
    rw [List.forall_mem_cons] at hmarks
    simp only [List.findSome?_cons, Cursor.eatAll?_enclose hmarks.1]
    cases c.eatAll? mark with
    | none => exact ih hmarks.2
    | some d => rfl

theorem opening_enclose (h : opening start s = .ok (o, t)) :
    opening start' (s.enclose shift after references) =
      .ok (o, t.enclose shift after references) := by
  refine ReadsOpening.opening_eq ?_
  cases readsOpening_of_opening h with
  | plain noMark numbered =>
    have noMark' : (s.cursor.enclose shift after).eat? '?' = none := by
      rw [Cursor.eat?_enclose (by decide), noMark, Option.map_none]
    exact .plain noMark' (capture_enclose numbered)
  | @marked _ c d question mark =>
    have mark' : markedOpening? (c.enclose shift after) = some (o, d.enclose shift after) := by
      rw [markedOpening?_enclose, mark]
      rfl
    exact .marked (Cursor.eat?_enclose_of_some question) mark'
  | @named name _ c d e _ _ question noMark angle read close numbered =>
    have noMark' : markedOpening? (c.enclose shift after) = none := by
      rw [markedOpening?_enclose, noMark, Option.map_none]
    have read' : (d.enclose shift after).groupName? = some (name, e.enclose shift after) := by
      rw [Cursor.groupName?_enclose, read]
      rfl
    exact .named (Cursor.eat?_enclose_of_some question) noMark'
      (Cursor.eat?_enclose_of_some angle) read' (Cursor.eat?_enclose_of_some close)
      (capture_enclose numbered)

/-! ### Alternatives -/

theorem erase_close {body body' : Regex} (h : body'.erase = body.erase) (o : Opening)
    (span span' : Span) : (o.close body' span').erase = (o.close body span).erase := by
  cases o with
  | group kind => cases kind <;> simp only [Opening.close, Regex.erase, h]
  | look => simp only [Opening.close, Regex.erase, h]

theorem erase_choice {rs rs' : Regex × List Regex} (hfirst : rs'.1.erase = rs.1.erase)
    (hmore : Regex.eraseAll rs'.2 = Regex.eraseAll rs.2) (span span' : Span) :
    (choice rs' span').erase = (choice rs span).erase := by
  match rs, rs' with
  | (_, []), (_, []) => exact hfirst
  | (_, []), (_, _ :: _) => cases hmore
  | (_, _ :: _), (_, []) => cases hmore
  | (_, _ :: _), (_, _ :: _) =>
    simp only [choice, Regex.erase, Regex.eraseAll] at hfirst hmore ⊢
    rw [hfirst, hmore]

theorem endsAlternative_enclose (c : Cursor) :
    endsAlternative (c.enclose shift after) = endsAlternative c := by
  obtain ⟨rest, position⟩ := c
  cases rest <;> rfl

mutual

theorem ReadsTerm.enclose (shift : Nat) (after : List Char) (references : List (String × Span))
    {levels : Nat} {s t : State} {r : Regex} : ReadsTerm mode levels s r t →
    ∃ r' references', ReadsTerm mode levels (s.enclose shift after references) r'
      (t.enclose shift after references') ∧ r'.erase = r.erase
  | .plain first noGroup atom count => by
    obtain ⟨a', hatom, ha⟩ := plainAtom_enclose atom
    obtain ⟨r', hcount, hr⟩ := repeated_enclose ha count
    exact ⟨r', references ++ a'.reference?.toList,
      .plain (s := s.enclose shift after references) (Cursor.next?_enclose first) noGroup hatom
        hcount, hr⟩
  | @ReadsTerm.group _ _ _ t u o body _ _ d _ first opened inside closed count => by
    obtain ⟨body', references', hinside, hfirst, hmore⟩ := inside.enclose shift after references
    have hchoice := erase_choice hfirst hmore (u.cursor.spanSince t.cursor.position)
      ((u.cursor.enclose shift after).spanSince (t.cursor.enclose shift after).position)
    have hclose := erase_close hchoice o (d.spanSince s.cursor.position)
      ((d.enclose shift after).spanSince (s.cursor.enclose shift after).position)
    obtain ⟨r', hcount, hr⟩ := repeated_enclose hclose count
    exact ⟨r', references', .group (s := s.enclose shift after references)
      (u := u.enclose shift after references') (Cursor.next?_enclose first)
      (opening_enclose opened) hinside (Cursor.eat?_enclose_of_some closed) hcount, hr⟩

theorem ReadsTerms.enclose (shift : Nat) (after : List Char) (references : List (String × Span))
    {levels : Nat} {s t : State} {rs : List Regex} : ReadsTerms mode levels s rs t →
    ∃ rs' references', ReadsTerms mode levels (s.enclose shift after references) rs'
      (t.enclose shift after references') ∧ Regex.eraseAll rs' = Regex.eraseAll rs
  | .nil last => by
    rw [← endsAlternative_enclose] at last
    exact ⟨[], references, .nil last, rfl⟩
  | .cons more head tail => by
    rw [← endsAlternative_enclose] at more
    obtain ⟨r', references', hhead, hr⟩ := head.enclose shift after references
    obtain ⟨rs', references'', htail, hrs⟩ := tail.enclose shift after references'
    exact ⟨r' :: rs', references'', .cons more hhead htail,
      by simp only [Regex.eraseAll, hr, hrs]⟩

/-- What is read up to the end of a text is read up to a closing parenthesis in a longer one. -/
theorem ReadsAlternatives.enclose (shift : Nat) (after : List Char)
    (references : List (String × Span)) {levels : Nat} {s t : State} {rs : Regex × List Regex} :
    ReadsAlternatives mode levels s rs t →
    ∃ rs' references', ReadsAlternatives mode levels (s.enclose shift after references) rs'
        (t.enclose shift after references') ∧
      rs'.1.erase = rs.1.erase ∧ Regex.eraseAll rs'.2 = Regex.eraseAll rs.2
  | .last terms noBar => by
    obtain ⟨rs', references', hterms, hrs⟩ := terms.enclose shift after references
    refine ⟨_, references', .last hterms ?_, ?_, rfl⟩
    · rw [State.enclose, Cursor.eat?_enclose (by decide), noBar]
      rfl
    · rw [Regex.erase_sequence, Regex.erase_sequence, hrs]
  | .more terms bar tail => by
    obtain ⟨rs', references', hterms, hrs⟩ := terms.enclose shift after references
    obtain ⟨next', references'', htail, hfirst, hmore⟩ := tail.enclose shift after references'
    refine ⟨_, references'', .more hterms (Cursor.eat?_enclose_of_some bar) htail, ?_, ?_⟩
    · rw [Regex.erase_sequence, Regex.erase_sequence, hrs]
    · simp only [Regex.eraseAll, hfirst, hmore]

end

end Grammar

end PatternBlocks
