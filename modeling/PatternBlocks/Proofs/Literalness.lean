import PatternBlocks.Proofs.Arrival
import PatternBlocks.Proofs.ClassItems

/-!
What is rejected in unicode mode alone. Outside it nothing is rejected for these causes: where
unicode mode finds a malformed brace or escape, or a class at the end of a range, the same
characters are read literally.
-/
namespace PatternBlocks

/-- Whether the cause is something that is read literally outside unicode mode. -/
def SyntaxError.Cause.isStrict : SyntaxError.Cause → Bool
  | .loneQuantifierBrackets | .invalidEscape | .invalidDecimalEscape | .invalidClassEscape
  | .invalidUnicodeEscape | .invalidPropertyName => true
  | _ => false

namespace Cursor

theorem lt_of_octalDigits (count value : Nat) (c : Cursor) :
    (octalDigits count value c).1 < (value + 1) * 8 ^ count := by
  induction count generalizing value c with
  | zero => simp [octalDigits]
  | succ count ih =>
    unfold octalDigits
    split
    next =>
      calc value < (value + 1) * 1 := by omega
        _ ≤ (value + 1) * 8 ^ (count + 1) := Nat.mul_le_mul_left _ (Nat.one_le_pow _ _ (by decide))
    next digit d hd =>
      have hdigit := lt_of_digit? hd
      calc (octalDigits count (value * 8 + digit) d).1
          < (value * 8 + digit + 1) * 8 ^ count := ih _ _
        _ ≤ (value + 1) * 8 * 8 ^ count := Nat.mul_le_mul_right _ (by omega)
        _ = (value + 1) * 8 ^ (count + 1) := by rw [Nat.mul_assoc, pow_succ']

theorem lt_of_octalEscape? {code : Nat} {c d : Cursor} (h : c.octalEscape? = some (code, d)) :
    code < 256 := by
  unfold octalEscape? at h
  split at h
  next => cases h
  next first e he =>
    have hfirst := lt_of_digit? he
    have hlt := lt_of_octalDigits (if first ≤ 3 then 2 else 1) first e
    rw [Option.some.inj h] at hlt
    split at hlt <;> omega

end Cursor

namespace Grammar

variable {unicode inClass : Bool} {start opening : Nat} {α : Type}

/-! ### Escapes that are read literally -/

/-- What an escape that unicode mode rejects stands for without it, from behind its backslash on: a
decimal escape for the character with that octal code, `\c` without a letter for the backslash
alone, and any other character for itself. Brackets take digits and underscores for letters. -/
inductive LiteralEscape (inClass : Bool) (c : Cursor) : Nat → Cursor → Prop
  | octal {code : Nat} {d : Cursor} (digits : c.octalEscape? = some (code, d)) :
      LiteralEscape inClass c code d
  | self {ch : Char} {d : Cursor} (next : c.next? = some (ch, d)) (noControl : ch ≠ 'c')
      (noOctal : ch.isDigit → c.octalEscape? = none) : LiteralEscape inClass c ch.toNat d
  | backslash {d : Cursor} (next : c.next? = some ('c', d))
      (noLetter : ∀ x ∈ d.next?, isControlLetter false inClass x.1 = false) :
      LiteralEscape inClass c '\\'.toNat c
  | control {letter : Char} {d e : Cursor} (next : c.next? = some ('c', d))
      (after : d.next? = some (letter, e)) (inside : inClass)
      (noLetter : letter.isDigit ∨ letter = '_') : LiteralEscape inClass c (letter.toNat % 32) e

theorem toNat_ofNat_of_lt {code : Nat} (h : code < 256) : (Char.ofNat code).toNat = code := by
  have hvalid : code.isValidChar := .inl (by omega)
  exact toNat_of_char? (if_pos hvalid)

/-- The character that a decimal escape stands for. -/
theorem literalEscape_legacyDecimal {ch : Char} {c d : Cursor} (next : c.next? = some (ch, d))
    (hdigit : ch.isDigit) :
    LiteralEscape inClass c (legacyDecimal c).1.toNat (legacyDecimal c).2 := by
  unfold legacyDecimal
  split
  next code e hoctal =>
    rw [toNat_ofNat_of_lt (Cursor.lt_of_octalEscape? hoctal)]
    exact .octal hoctal
  next hnone =>
    rw [next]
    refine .self next ?_ fun _ => hnone
    rintro rfl
    cases hdigit

theorem LiteralEscape.exists_char {c d : Cursor} {n : Nat} (h : LiteralEscape inClass c n d) :
    ∃ value, char? n = some value ∧ value.toNat = n := by
  have hsmall {n : Nat} (hn : n < 256) : ∃ value, char? n = some value ∧ value.toNat = n := by
    obtain ⟨value, hvalue⟩ := exists_char?_of_lt (by omega : n < 0xd800)
    exact ⟨value, hvalue, toNat_of_char? hvalue⟩
  cases h with
  | octal digits => exact hsmall (Cursor.lt_of_octalEscape? digits)
  | self => exact ⟨_, char?_toNat _, rfl⟩
  | backslash => exact ⟨'\\', rfl, rfl⟩
  | control => exact hsmall (by omega)

/-- If the first reading fails for a strict cause, then the second one finds a literal escape. -/
def Relaxes (inClass : Bool) (c : Cursor) (x y : Reading Nat) : Prop :=
  ∀ e, x = .error e → e.cause.isStrict → ∃ n d, y = .ok (n, d) ∧ LiteralEscape inClass c n d

section Escapes

variable {ch : Char} {c d : Cursor}

theorem relaxes_controlEscape (next : c.next? = some ('c', d)) :
    Relaxes inClass c (controlEscape true inClass start c d)
      (controlEscape false inClass start c d) := by
  intro e h _
  unfold controlEscape at h ⊢
  cases hafter : d.next? with
  | none => exact ⟨_, _, rfl, .backslash next (by simp [hafter])⟩
  | some read =>
    obtain ⟨letter, f⟩ := read
    have halpha : letter.isAlpha = false := by
      rw [hafter, Option.filter_some] at h
      cases halpha : letter.isAlpha with
      | false => rfl
      | true => simp [isControlLetter, halpha] at h
    rw [Option.filter_some]
    cases hletter : isControlLetter false inClass letter with
    | true =>
      have hinside : inClass ∧ (letter.isDigit ∨ letter = '_') := by
        simpa [isControlLetter, halpha] using hletter
      exact ⟨_, _, rfl, .control next hafter hinside.1 hinside.2⟩
    | false => exact ⟨_, _, rfl, .backslash next (by simpa [hafter] using hletter)⟩

theorem relaxes_digitEscape (next : c.next? = some (ch, d)) (hdigit : ch.isDigit) :
    Relaxes inClass c (digitEscape true start ch c d) (digitEscape false start ch c d) := by
  intro e h _
  unfold digitEscape at h ⊢
  split at h
  next => cases h
  next hnull => exact ⟨_, _, if_neg hnull, literalEscape_legacyDecimal next hdigit⟩

theorem relaxes_hexEscape (next : c.next? = some ('x', d)) :
    Relaxes inClass c (hexEscape true start d) (hexEscape false start d) := by
  intro e h _
  unfold hexEscape at h ⊢
  split at h
  next => cases h
  next => exact ⟨_, _, rfl, .self next (by decide) nofun⟩

theorem hexDigits?_of_brace {count : Nat} (h : c.eat? '{' = some d) :
    c.hexDigits? (count + 1) = none := by
  obtain ⟨rest, position⟩ := c
  obtain rfl : rest = '{' :: d.rest := (Cursor.passes_of_eat? h).1
  rfl

theorem relaxes_unicodeEscape (next : c.next? = some ('u', d)) :
    Relaxes inClass c (unicodeEscape true start d) (unicodeEscape false start d) := by
  intro e h _
  have hself (hnone : d.hexDigits? 4 = none) : ∃ n f,
      unicodeEscape false start d = .ok (n, f) ∧ LiteralEscape inClass c n f := by
    refine ⟨'u'.toNat, d, ?_, .self next (by decide) nofun⟩
    simp only [unicodeEscape, Bool.false_eq_true, if_false, hnone]
  unfold unicodeEscape at h
  rw [if_pos rfl] at h
  split at h
  next hbrace => exact hself (hexDigits?_of_brace hbrace)
  next =>
    split at h
    next hnone => exact hself hnone
    next => split at h <;> cases h

theorem characterEscape_self (next : c.next? = some (ch, d)) (hcontrol : controlCode? ch = none)
    (hc : ch ≠ 'c') (hdigit : ch.isDigit = false) (hx : ch ≠ 'x') (hu : ch ≠ 'u') :
    characterEscape false inClass start c = .ok (ch.toNat, d) := by
  simp [characterEscape, next, hcontrol, hc, hdigit, hx, hu]

theorem characterEscape_digit (next : c.next? = some (ch, d)) (hdigit : ch.isDigit) :
    characterEscape unicode inClass start c = digitEscape unicode start ch c d := by
  have hcontrol : controlCode? ch = none := by
    unfold controlCode?
    split <;> first | rfl | cases hdigit
  have hc : ch ≠ 'c' := by
    rintro rfl
    cases hdigit
  simp only [characterEscape, next, hcontrol, hc, if_false, hdigit, if_true]

theorem digitEscape_of_ne_zero (hzero : ch ≠ '0') :
    digitEscape false start ch c d = .ok ((legacyDecimal c).1.toNat, (legacyDecimal c).2) := by
  simp [digitEscape, hzero]

theorem relaxes_characterEscape :
    Relaxes inClass c (characterEscape true inClass start c)
      (characterEscape false inClass start c) := by
  intro e h hstrict
  unfold characterEscape at h ⊢
  cases next : c.next? with
  | none =>
    rw [next] at h
    cases h
    cases hstrict
  | some read =>
    obtain ⟨ch, d⟩ := read
    simp only [next] at h ⊢
    split at h
    next => cases h
    next hcontrol =>
      split at h
      next hc =>
        subst hc
        exact relaxes_controlEscape next e h hstrict
      next hc =>
        rw [if_neg hc]
        split at h
        next hdigit =>
          rw [if_pos hdigit]
          exact relaxes_digitEscape next hdigit e h hstrict
        next hdigit =>
          rw [if_neg hdigit]
          split at h
          next hx =>
            subst hx
            exact relaxes_hexEscape next e h hstrict
          next hx =>
            rw [if_neg hx]
            split at h
            next hu =>
              subst hu
              exact relaxes_unicodeEscape next e h hstrict
            next hu =>
              rw [if_neg hu]
              exact ⟨_, _, rfl, .self next hc fun hch => absurd hch hdigit⟩

end Escapes

section Readings

variable {scan : Capture.Scan} {c d : Cursor} {e : SyntaxError}

/-- An escape for a property is one for its letter. -/
theorem characterEscape_property {ch : Char} (next : c.next? = some (ch, d))
    (hch : ch = 'p' ∨ ch = 'P') :
    characterEscape false inClass start c = .ok (ch.toNat, d) ∧
      LiteralEscape inClass c ch.toNat d := by
  rcases hch with rfl | rfl
  · exact ⟨characterEscape_self next rfl (by decide) rfl (by decide) (by decide),
      .self next (by decide) nofun⟩
  · exact ⟨characterEscape_self next rfl (by decide) rfl (by decide) (by decide),
      .self next (by decide) nofun⟩

/-! ### Members of brackets -/

theorem classEscapeAtom_relaxes (h : classEscapeAtom true opening start c = .error e)
    (hstrict : e.cause.isStrict) :
    ∃ n d, classEscapeAtom false opening start c = .ok (.code n, d) ∧
      LiteralEscape true c n d := by
  unfold classEscapeAtom at h ⊢
  cases next : c.next? with
  | none =>
    rw [next] at h
    cases h
    cases hstrict
  | some read =>
    obtain ⟨ch, d⟩ := read
    simp only [next, Bool.true_and, Bool.false_and, Bool.false_eq_true, if_false] at h ⊢
    split at h
    next => cases h
    split at h
    next => cases h
    next hb =>
      rw [if_neg hb]
      split at h
      next hproperty =>
        have hch : ch = 'p' ∨ ch = 'P' := by simpa using hproperty
        obtain ⟨hread, hliteral⟩ := characterEscape_property next hch
        exact ⟨_, _, by rw [hread]; rfl, hliteral⟩
      next =>
        split at h
        next hdigit =>
          obtain ⟨hdigit, hzero⟩ : ch.isDigit ∧ ch ≠ '0' := by simpa using hdigit
          rw [characterEscape_digit next hdigit, digitEscape_of_ne_zero hzero]
          exact ⟨_, _, rfl, literalEscape_legacyDecimal next hdigit⟩
        next =>
          obtain ⟨n, f, hread, hliteral⟩ := relaxes_characterEscape e (map_eq_error.mp h) hstrict
          exact ⟨n, f, by rw [hread]; rfl, hliteral⟩

/-- An escape in brackets that unicode mode rejects is one for a character without it. -/
theorem classAtom_relaxes (h : classAtom true opening c = .error e)
    (hstrict : e.cause.isStrict) :
    ∃ d n f, c.next? = some ('\\', d) ∧ classAtom false opening c = .ok (.code n, f) ∧
      LiteralEscape true d n f := by
  unfold classAtom at h ⊢
  cases next : c.next? with
  | none =>
    rw [next] at h
    cases h
    cases hstrict
  | some read =>
    obtain ⟨ch, d⟩ := read
    simp only [next] at h ⊢
    split at h
    next hch =>
      subst hch
      obtain ⟨n, f, hread, hliteral⟩ := classEscapeAtom_relaxes h hstrict
      exact ⟨d, n, f, rfl, hread, hliteral⟩
    next => cases h

/-- The hyphen beside a class is a member of its own. -/
theorem classMember_beside_class {low high : ClassAtom} {f g : Cursor}
    (hlow : classAtom false opening c = .ok (low, d)) (hhyphen : rangeHyphen? d = some f)
    (hhigh : classAtom false opening f = .ok (high, g))
    (hclass : ∃ kind, low = .escape kind ∨ high = .escape kind) :
    classMember false opening c = .ok ([low.item, .char '-', high.item], g) := by
  unfold classMember
  simp only [hlow, hhyphen, hhigh]
  obtain ⟨kind, rfl | rfl⟩ := hclass
  · rfl
  · cases low <;> rfl

/-! ### Braces -/

theorem next?_of_eat? {ch : Char} (h : c.eat? ch = some d) : c.next? = some (ch, d) := by
  obtain ⟨rest, position⟩ := c
  cases rest with
  | nil => cases h
  | cons x rest =>
    rw [Cursor.eat?] at h
    split at h <;> cases h
    next hx => rw [hx, Cursor.next?]

theorem braces?_relaxes (h : braces? true c = .error e) (hstrict : e.cause.isStrict) :
    ∃ d, c.next? = some ('{', d) ∧ braces? false c = .ok none := by
  unfold braces? at h ⊢
  split at h
  next => cases h
  next d hbrace =>
    refine ⟨d, next?_of_eat? hbrace, ?_⟩
    split at h
    next => rfl
    next =>
      split at h
      next =>
        cases h
        cases hstrict
      next =>
        split at h <;> cases h
        cases hstrict

/-- Behind an atom a brace that unicode mode rejects is not read yet. -/
theorem repeated_relaxes {r : Regex} (h : repeated true start r c = .error e)
    (hstrict : e.cause.isStrict) :
    ∃ d, c.next? = some ('{', d) ∧ braces? false c = .ok none ∧
      repeated false start r c = .ok (r, c) := by
  have hcount : count? true c = .error e := by
    unfold repeated at h
    split at h
    next hquantifier =>
      cases h
      unfold quantifier? at hquantifier
      split at hquantifier <;> cases hquantifier
      assumption
    next => cases h
    next =>
      split at h <;> cases h
      cases hstrict
  have hbraces : braces? true c = .error e := by
    unfold count? at hcount
    split at hcount
    case h_4 => exact hcount
    all_goals cases hcount
  obtain ⟨d, next, hnone⟩ := braces?_relaxes hbraces hstrict
  refine ⟨d, next, hnone, ?_⟩
  simp [repeated, quantifier?, count?, next, hnone]

/-! ### Atoms -/

theorem characterAtom_of_literal {n : Nat} (h : characterEscape false false start c = .ok (n, d))
    (hliteral : LiteralEscape false c n d) :
    ∃ value d, characterAtom false start c = .ok (.char value true (d.spanSince start), d) ∧
      LiteralEscape false c value.toNat d := by
  obtain ⟨value, hvalue, rfl⟩ := hliteral.exists_char
  exact ⟨value, d, by simp only [characterAtom, h, hvalue], hliteral⟩

theorem characterAtom_relaxes (h : characterAtom true start c = .error e)
    (hstrict : e.cause.isStrict) :
    ∃ value d, characterAtom false start c = .ok (.char value true (d.spanSince start), d) ∧
      LiteralEscape false c value.toNat d := by
  unfold characterAtom at h
  split at h
  next herror =>
    cases h
    obtain ⟨n, d, hread, hliteral⟩ := relaxes_characterEscape e herror hstrict
    exact characterAtom_of_literal hread hliteral
  next =>
    split at h <;> cases h
    cases hstrict

theorem cause_of_namedBackref {mode : Mode} (h : namedBackref mode start c = .error e) :
    e.cause = .invalidNamedReference := by
  unfold namedBackref at h
  repeat' split at h
  all_goals cases h
  all_goals rfl

/-- A decimal escape is a reference in both modes or in neither. -/
theorem decimalEscape_relaxes (h : decimalEscape ⟨true, scan⟩ start c = .error e) :
    decimalEscape ⟨false, scan⟩ start c =
      .ok (.char (legacyDecimal c).1 true ((legacyDecimal c).2.spanSince start),
        (legacyDecimal c).2) := by
  have hnone : groupNumber? ⟨false, scan⟩ (c.decimal?.getD (0, c)).1 = none := by
    unfold decimalEscape at h
    dsimp only at h
    split at h
    next => cases h
    next hnone => exact hnone
  simp only [decimalEscape, hnone, Bool.false_eq_true, if_false]

theorem atomEscape_relaxes (h : atomEscape ⟨true, scan⟩ start c = .error e)
    (hstrict : e.cause.isStrict) :
    ∃ value d, atomEscape ⟨false, scan⟩ start c = .ok (.char value true (d.spanSince start), d) ∧
      LiteralEscape false c value.toNat d := by
  unfold atomEscape at h ⊢
  cases next : c.next? with
  | none =>
    rw [next] at h
    cases h
    cases hstrict
  | some read =>
    obtain ⟨ch, d⟩ := read
    simp only [next, Bool.true_and, Bool.false_and, Bool.false_eq_true, if_false] at h ⊢
    split at h
    next => cases h
    split at h
    next => cases h
    next hb =>
    rw [if_neg hb]
    split at h
    next => cases h
    next hB =>
    rw [if_neg hB]
    split at h
    next hproperty =>
      have hch : ch = 'p' ∨ ch = 'P' := by simpa using hproperty
      obtain ⟨hread, hliteral⟩ := characterEscape_property next hch
      rcases hch with rfl | rfl <;> exact characterAtom_of_literal hread hliteral
    split at h
    next =>
      rw [cause_of_namedBackref h] at hstrict
      cases hstrict
    next hk =>
    rw [if_neg hk]
    split at h
    next hdigit =>
      rw [if_pos hdigit, decimalEscape_relaxes h]
      have hdigit : ch.isDigit := (Bool.and_eq_true_iff.mp hdigit).1
      exact ⟨_, _, rfl, literalEscape_legacyDecimal next hdigit⟩
    next hdigit =>
      rw [if_neg hdigit]
      exact characterAtom_relaxes h hstrict

theorem braceAtom_relaxes (h : braceAtom true c d = .error e) (hstrict : e.cause.isStrict) :
    braceAtom false c d = .ok (.char '{' false (d.spanSince c.position), d) := by
  unfold braceAtom at h
  split at h
  next hbraces =>
    cases h
    obtain ⟨-, -, hnone⟩ := braces?_relaxes hbraces hstrict
    simp only [braceAtom, hnone]
  next =>
    cases h
    cases hstrict
  next => cases h

/-- An atom outside brackets that unicode mode rejects is a character without it. -/
theorem plainAtom_relaxes {ch : Char} (hch : ch ≠ '[')
    (h : plainAtom ⟨true, scan⟩ ch c d = .error e) (hstrict : e.cause.isStrict) :
    ∃ value escaped f,
      plainAtom ⟨false, scan⟩ ch c d = .ok (.char value escaped (f.spanSince c.position), f) ∧
        if escaped then ch = '\\' ∧ LiteralEscape false d value.toNat f
        else value = ch ∧ f = d := by
  unfold plainAtom at h ⊢
  simp only [if_neg hch, Bool.true_and, Bool.false_and, Bool.false_eq_true, if_false] at h ⊢
  iterate 3
    split at h
    next => cases h
    rw [if_neg ‹_›]
  split at h
  next hbackslash =>
    obtain ⟨value, f, hread, hliteral⟩ := atomEscape_relaxes h hstrict
    rw [if_pos hbackslash]
    exact ⟨value, true, f, hread, hbackslash, hliteral⟩
  rw [if_neg ‹_›]
  split at h
  next =>
    cases h
    cases hstrict
  rw [if_neg ‹_›]
  split at h
  next hbrace =>
    rw [if_pos hbrace]
    exact ⟨'{', false, d, braceAtom_relaxes h hstrict, hbrace.symm, rfl⟩
  next hbrace =>
    rw [if_neg hbrace]
    exact ⟨ch, false, d, rfl, rfl, rfl⟩

end Readings

/-! ### Readings that tolerate -/

/-- The reading does not fail for a strict cause. -/
def Tolerates (x : Except SyntaxError α) : Prop := ∀ e, x = .error e → e.cause.isStrict = false

theorem Tolerates.ok {a : α} : Tolerates (.ok a) := nofun

theorem Tolerates.of_error {β : Type} {x : Except SyntaxError α} {e : SyntaxError}
    (h : Tolerates x) (he : x = .error e) : Tolerates (.error e : Except SyntaxError β) := by
  rintro _ ⟨⟩
  exact h e he

theorem Tolerates.map {β : Type} {x : Except SyntaxError α} (h : Tolerates x) (f : α → β) :
    Tolerates (x.map f) := by
  cases hx : x with
  | error e => exact h.of_error hx
  | ok => exact .ok

theorem tolerates_fail {cause : SyntaxError.Cause} {c : Cursor} (h : cause.isStrict = false) :
    Tolerates (c.fail cause start : Except SyntaxError α) := by
  rintro _ ⟨⟩
  exact h

section Tolerates

variable {mode : Mode} {scan : Capture.Scan} {b c d : Cursor} {s : State}

theorem tolerates_controlEscape : Tolerates (controlEscape false inClass start b c) := by
  unfold controlEscape
  split <;> exact .ok

theorem tolerates_digitEscape {first : Char} :
    Tolerates (digitEscape false start first c d) := by
  unfold digitEscape
  split <;> exact .ok

theorem tolerates_hexEscape : Tolerates (hexEscape false start c) := by
  unfold hexEscape
  split <;> exact .ok

theorem tolerates_unicodeEscape : Tolerates (unicodeEscape false start c) := by
  unfold unicodeEscape
  rw [if_neg Bool.false_ne_true]
  dsimp only
  split
  · exact .ok
  · split <;> exact .ok

theorem tolerates_characterEscape : Tolerates (characterEscape false inClass start c) := by
  unfold characterEscape
  split
  · exact tolerates_fail rfl
  split
  · exact .ok
  split
  · exact tolerates_controlEscape
  split
  · exact tolerates_digitEscape
  split
  · exact tolerates_hexEscape
  split
  · exact tolerates_unicodeEscape
  · exact .ok

theorem tolerates_classAtom : Tolerates (classAtom false opening c) := by
  unfold classAtom
  split
  · exact tolerates_fail rfl
  split
  next =>
    unfold classEscapeAtom
    split
    · exact tolerates_fail rfl
    split
    · exact .ok
    split
    · exact .ok
    · exact tolerates_characterEscape.map _
  next => exact .ok

theorem tolerates_joinAtoms {low high : ClassAtom} :
    Tolerates (joinAtoms false start low high c) := by
  unfold joinAtoms
  split
  · split
    · exact tolerates_fail rfl
    · exact .ok
  · exact .ok

theorem tolerates_classMember : Tolerates (classMember false opening c) := by
  unfold classMember
  split
  next he => exact tolerates_classAtom.of_error he
  split
  · exact .ok
  split
  next he => exact tolerates_classAtom.of_error he
  · exact tolerates_joinAtoms

theorem tolerates_classMembers : Tolerates (classMembers false opening c) := by
  fun_induction classMembers false opening c with
  | case1 => exact tolerates_fail rfl
  | case2 => exact .ok
  | case3 _ _ _ _ _ he => exact tolerates_classMember.of_error he
  | case4 _ _ _ _ _ _ _ _ he ih => exact ih.of_error he
  | case5 => exact .ok

theorem tolerates_bracketBody : Tolerates (bracketBody false opening c) := by
  unfold bracketBody
  dsimp only
  split
  next he => exact tolerates_classMembers.of_error he
  split
  · exact tolerates_fail rfl
  · exact .ok

theorem tolerates_braces? : Tolerates (braces? false c) := by
  unfold braces?
  split
  · exact .ok
  split
  · exact .ok
  split
  · exact tolerates_fail rfl
  split
  · exact tolerates_fail rfl
  · exact .ok

theorem tolerates_repeated {r : Regex} : Tolerates (repeated false start r c) := by
  have hcount : Tolerates (count? false c) := by
    unfold count?
    split
    case h_4 => exact tolerates_braces?
    all_goals exact .ok
  have hquantifier : Tolerates (quantifier? false c) := by
    unfold quantifier?
    split
    next he => exact hcount.of_error he
    · exact .ok
    · exact .ok
  unfold repeated
  split
  next he => exact hquantifier.of_error he
  · exact .ok
  split
  · exact .ok
  · exact tolerates_fail rfl

theorem tolerates_namedBackref : Tolerates (namedBackref mode start c) := by
  intro e he
  rw [cause_of_namedBackref he]
  rfl

theorem tolerates_decimalEscape : Tolerates (decimalEscape ⟨false, scan⟩ start c) := by
  unfold decimalEscape
  dsimp only
  split <;> exact .ok

theorem tolerates_characterAtom : Tolerates (characterAtom false start c) := by
  unfold characterAtom
  split
  next he => exact tolerates_characterEscape.of_error he
  split
  · exact tolerates_fail rfl
  · exact .ok

theorem tolerates_atomEscape : Tolerates (atomEscape ⟨false, scan⟩ start c) := by
  unfold atomEscape
  simp only [Bool.false_and, Bool.false_eq_true, if_false]
  split
  · exact tolerates_fail rfl
  iterate 3
    split
    · exact .ok
  split
  · exact tolerates_namedBackref
  split
  · exact tolerates_decimalEscape
  · exact tolerates_characterAtom

theorem tolerates_braceAtom : Tolerates (braceAtom false c d) := by
  unfold braceAtom
  split
  next he => exact tolerates_braces?.of_error he
  · exact tolerates_fail rfl
  · exact .ok

theorem tolerates_plainAtom {ch : Char} : Tolerates (plainAtom ⟨false, scan⟩ ch c d) := by
  unfold plainAtom
  simp only [Bool.false_and, Bool.false_eq_true, if_false]
  iterate 3
    split
    · exact .ok
  split
  · exact tolerates_bracketBody.map _
  split
  · exact tolerates_atomEscape
  split
  · exact tolerates_fail rfl
  split
  · exact tolerates_braceAtom
  · exact .ok

/-- Whatever the mode, the opening of a group fails for causes of its own. -/
theorem tolerates_opening : Tolerates (Grammar.opening start s) := by
  have hcapture {name : Option String} {s : State} : Tolerates (capture name start s) := by
    unfold capture
    split
    · exact tolerates_fail rfl
    · exact .ok
  have hnamed {s : State} : Tolerates (namedOpening start s) := by
    unfold namedOpening
    split
    · exact tolerates_fail rfl
    split
    · exact tolerates_fail rfl
    · exact hcapture
  unfold Grammar.opening
  split
  · exact hcapture
  split
  · exact .ok
  split
  · exact hnamed
  · exact tolerates_fail rfl

theorem FailsAt.isStrict_eq_false {levels : Nat} {e : SyntaxError}
    (h : FailsAt ⟨false, scan⟩ levels s e) : e.cause.isStrict = false := by
  cases h with
  | plain first noGroup fails => exact tolerates_plainAtom e fails
  | tooDeep => rfl
  | opening first fails => exact tolerates_opening e fails
  | unclosed => rfl
  | count read fails => exact tolerates_repeated e fails

end Tolerates

end Grammar

open Grammar (plainAtom classAtom classMember rangeHyphen? repeated LiteralEscape)

/-- Outside unicode mode no pattern is rejected for a strict cause. An atom that unicode mode
rejects for one is a character that stands for itself or for a literal escape, a member of a class
is such an escape, a class at an end of a range stands beside a hyphen, and a brace behind an atom
is left for the next one. -/
theorem Pattern.strict_causes_read_literally :
    (∀ text e, Pattern.parse false text = .error e → e.cause.isStrict = false) ∧
    (∀ scan ch c d e, c.next? = some (ch, d) → ch ≠ '[' →
      plainAtom ⟨true, scan⟩ ch c d = .error e → e.cause.isStrict →
      ∃ value escaped f,
        plainAtom ⟨false, scan⟩ ch c d = .ok (.char value escaped (f.spanSince c.position), f) ∧
          if escaped then ch = '\\' ∧ LiteralEscape false d value.toNat f
          else value = ch ∧ f = d) ∧
    (∀ opening c e, classAtom true opening c = .error e → e.cause.isStrict →
      ∃ d n f, c.next? = some ('\\', d) ∧ classAtom false opening c = .ok (.code n, f) ∧
        LiteralEscape true d n f) ∧
    (∀ opening c low d f high g, classAtom false opening c = .ok (low, d) →
      rangeHyphen? d = some f → classAtom false opening f = .ok (high, g) →
      (∃ kind, low = .escape kind ∨ high = .escape kind) →
      classMember false opening c = .ok ([low.item, .char '-', high.item], g)) ∧
    ∀ start r c e, repeated true start r c = .error e → e.cause.isStrict →
      repeated false start r c = .ok (r, c) ∧ ∃ d, c.next? = some ('{', d) ∧
        ∀ scan, plainAtom ⟨false, scan⟩ '{' c d =
          .ok (.char '{' false (d.spanSince c.position), d) := by
  refine ⟨?_, ?_, ?_, ?_, ?_⟩
  · intro text e h
    obtain ⟨levels, s, -, hfails⟩ | hcause | ⟨name, hcause⟩ := Pattern.exists_failsAt h
    · exact hfails.isStrict_eq_false
    · rw [hcause]
      rfl
    · rw [hcause]
      rfl
  · intro scan ch c d e _ hch h hstrict
    exact Grammar.plainAtom_relaxes hch h hstrict
  · intro opening c e h hstrict
    exact Grammar.classAtom_relaxes h hstrict
  · intro opening c low d f high g hlow hhyphen hhigh hclass
    exact Grammar.classMember_beside_class hlow hhyphen hhigh hclass
  · intro start r c e h hstrict
    obtain ⟨d, next, hnone, hread⟩ := Grammar.repeated_relaxes h hstrict
    refine ⟨hread, d, next, fun scan => ?_⟩
    simp [plainAtom, Grammar.braceAtom, hnone]

/-- A control and a decimal escape, a class at an end of a range, and braces without a bound. -/
theorem Pattern.strict_causes_read_literally_mixed :
    (∃ text e, text = "\\c1[\\d-z\\8].{,5}{2,1}" ∧ Pattern.parse false text = .error e ∧
      e.cause.isStrict = false) ∧
    (∃ value escaped f,
      plainAtom ⟨false, ⟨0, false⟩⟩ '\\' (.ofString "\\c1") ⟨['c', '1'], 1⟩ =
        .ok (.char value escaped (f.spanSince 0), f) ∧
      if escaped then '\\' = '\\' ∧ LiteralEscape false ⟨['c', '1'], 1⟩ value.toNat f
      else value = '\\' ∧ f = ⟨['c', '1'], 1⟩) ∧
    (∃ d n f, (Cursor.ofString "\\8]").next? = some ('\\', d) ∧
      classAtom false 0 (.ofString "\\8]") = .ok (.code n, f) ∧ LiteralEscape true d n f) ∧
    (∃ g, classMember false 0 (.ofString "\\d-z]") =
      .ok ([.escape .digit, .char '-', .char 'z'], g)) ∧
    ∃ c, c = ⟨['{', ',', '5', '}'], 1⟩ ∧
      repeated false 0 (.dot ⟨0, 1⟩) c = .ok (.dot ⟨0, 1⟩, c) := by
  obtain ⟨hparse, hatom, hmember, hrange, hbrace⟩ := Pattern.strict_causes_read_literally
  refine ⟨?_, ?_, ?_, ?_, ?_⟩
  · have hfails : ¬(Pattern.parse false "\\c1[\\d-z\\8].{,5}{2,1}").isOk := by decide +kernel
    cases h : Pattern.parse false "\\c1[\\d-z\\8].{,5}{2,1}" with
    | ok p => exact absurd (by rw [h]; rfl) hfails
    | error e => exact ⟨_, e, rfl, h, hparse _ e h⟩
  · exact hatom ⟨0, false⟩ '\\' (.ofString "\\c1") ⟨['c', '1'], 1⟩ ⟨.invalidEscape, ⟨0, 2⟩⟩ rfl
      (by decide) rfl rfl
  · exact hmember 0 (.ofString "\\8]") ⟨.invalidClassEscape, ⟨0, 1⟩⟩ rfl rfl
  · exact ⟨_, hrange 0 (.ofString "\\d-z]") (.escape .digit) _ _ (.code 'z'.toNat) _ rfl rfl rfl
      ⟨.digit, .inl rfl⟩⟩
  · exact ⟨_, rfl, (hbrace 0 (.dot ⟨0, 1⟩) ⟨['{', ',', '5', '}'], 1⟩
      ⟨.loneQuantifierBrackets, ⟨1, 2⟩⟩ rfl rfl).1⟩

end PatternBlocks
