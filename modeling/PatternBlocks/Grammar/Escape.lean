import PatternBlocks.Cursor.Reach
import PatternBlocks.Regex.Basic
import PatternBlocks.Regex.SyntaxError
import PatternBlocks.Text.CodePoint

/-!
Escapes that stand for a character or a property. `start` is the position of the backslash. A
character escape is read as a code point, or as a code unit if it names a lone surrogate.
-/
namespace PatternBlocks.Grammar

/-- Characters that a backslash makes literal in unicode mode. -/
def syntaxCharacters : List Char :=
  ['^', '$', '\\', '.', '*', '+', '?', '(', ')', '[', ']', '{', '}', '|', '/']

def controlCode? : Char → Option Nat
  | 't' => some 0x09
  | 'n' => some 0x0a
  | 'v' => some 0x0b
  | 'f' => some 0x0c
  | 'r' => some 0x0d
  | _ => none

/-- Reads an octal escape, or else the next digit as itself. -/
def legacyDecimal (c : Cursor) : Char × Cursor :=
  match c.octalEscape? with
  | some (code, d) => (Char.ofNat code, d)
  | none => c.next?.getD ('\x00', c)

/-- Brackets outside unicode mode also take digits and underscores for control letters. -/
def isControlLetter (unicode inClass : Bool) (ch : Char) : Bool :=
  ch.isAlpha || (inClass && !unicode && (ch.isDigit || ch = '_'))

/-- Reads the letter after `\c`. Without one the backslash is literal, and reading goes on
after it. -/
def controlEscape (unicode inClass : Bool) (start : Nat) (afterBackslash c : Cursor) :
    Reading Nat :=
  match c.next?.filter (isControlLetter unicode inClass ·.1) with
  | some (letter, d) => .ok (letter.toNat % 32, d)
  | none => if unicode then c.fail .invalidEscape start else .ok ('\\'.toNat, afterBackslash)

def digitEscape (unicode : Bool) (start : Nat) (first : Char) (c d : Cursor) : Reading Nat :=
  if first = '0' && !d.peek?.any Char.isDigit then .ok (0, d)
  else if unicode then d.fail .invalidDecimalEscape start
  else
    let (ch, e) := legacyDecimal c
    .ok (ch.toNat, e)

def hexEscape (unicode : Bool) (start : Nat) (c : Cursor) : Reading Nat :=
  match c.hexDigits? 2 with
  | some (code, d) => .ok (code, d)
  | none => if unicode then c.fail .invalidEscape start else .ok ('x'.toNat, c)

/-- Reads the code point of `\u{…}` after its opening brace. -/
def bracedCodePoint (start : Nat) (c : Cursor) : Reading Nat :=
  match c.hexUpTo 0x10ffff with
  | (none, d) => d.fail .invalidUnicodeEscape start
  | (some code, d) =>
    match d.eat? '}' with
    | none => d.fail .invalidUnicodeEscape start
    | some e => .ok (code, e)

/-- Reads the second half of a surrogate pair. -/
def lowSurrogate? (c : Cursor) : Option (Nat × Cursor) :=
  match c.eatAll? ['\\', 'u'] with
  | none => none
  | some d => (d.hexDigits? 4).filter (isLowSurrogate ·.1)

/-- Reads what follows `\u`. -/
def unicodeEscape (unicode : Bool) (start : Nat) (c : Cursor) : Reading Nat :=
  match if unicode then c.eat? '{' else none with
  | some d => bracedCodePoint start d
  | none =>
    match c.hexDigits? 4 with
    | none => if unicode then c.fail .invalidUnicodeEscape start else .ok ('u'.toNat, c)
    | some (unit, d) =>
      match if isHighSurrogate unit then lowSurrogate? d else none with
      | none => .ok (unit, d)
      | some (low, e) => .ok (surrogatePair unit low, e)

/-- Reads what follows a backslash as one character. -/
def characterEscape (unicode inClass : Bool) (start : Nat) (c : Cursor) : Reading Nat :=
  match c.next? with
  | none => c.fail .trailingBackslash start
  | some (ch, d) =>
    match controlCode? ch with
    | some code => .ok (code, d)
    | none =>
      if ch = 'c' then controlEscape unicode inClass start c d
      else if ch.isDigit then digitEscape unicode start ch c d
      else if ch = 'x' then hexEscape unicode start d
      else if ch = 'u' then unicodeEscape unicode start d
      else if unicode && !(inClass && ch = '-') && !syntaxCharacters.contains ch then
        d.fail .invalidEscape start
      else .ok (ch.toNat, d)

def isPropertyCharacter (ch : Char) : Bool := ch.isAlphanum || ch = '_' || ch = '='

/-- Splits `Name` or `Name=Value`; neither part may be empty. -/
def nameAndValue? (body : List Char) : Option (String × Option String) :=
  let name := body.takeWhile (· ≠ '=')
  match body.dropWhile (· ≠ '=') with
  | [] => if name.isEmpty then none else some (String.ofList name, none)
  | _ :: value =>
    if name.isEmpty || value.isEmpty || value.contains '=' then none
    else some (String.ofList name, some (String.ofList value))

/-- Reads the braces after `\p` or `\P`. -/
def propertyEscape (negated : Bool) (start : Nat) (c : Cursor) : Reading Property :=
  match c.eat? '{' with
  | none => c.fail .invalidPropertyName start
  | some d =>
    let body := d.takeWhile isPropertyCharacter
    match body.2.eat? '}' with
    | none => body.2.fail .invalidPropertyName start
    | some e =>
      match nameAndValue? body.1 with
      | none => e.fail .invalidPropertyName start
      | some (name, value) => .ok (⟨negated, name, value, e.spanSince start⟩, e)

theorem reaches_legacyDecimal (c : Cursor) : c.Reaches (legacyDecimal c).2 := by
  unfold legacyDecimal
  split
  next hd => exact (Cursor.advances_of_octalEscape? hd).reaches
  next =>
    cases h : c.next? with
    | none => exact .refl _
    | some next => exact (Cursor.advances_of_next? h).reaches

theorem reaches_of_controlEscape {unicode inClass : Bool} {start n : Nat} {b c d : Cursor}
    (hbc : b.Reaches c) (h : controlEscape unicode inClass start b c = .ok (n, d)) :
    b.Reaches d := by
  unfold controlEscape at h
  split at h
  next he =>
    cases h
    obtain ⟨he, -⟩ := Option.filter_eq_some_iff.mp he
    exact hbc.trans (Cursor.advances_of_next? he).reaches
  next =>
    split at h
    next => cases h
    next =>
      cases h
      exact .refl _

theorem reaches_of_digitEscape {unicode : Bool} {start n : Nat} {first : Char} {c d e : Cursor}
    (hcd : c.Reaches d) (h : digitEscape unicode start first c d = .ok (n, e)) :
    c.Reaches e := by
  unfold digitEscape at h
  split at h
  next =>
    cases h
    exact hcd
  next =>
    split at h
    next => cases h
    next =>
      cases h
      exact reaches_legacyDecimal c

theorem reaches_of_hexEscape {unicode : Bool} {start n : Nat} {c d : Cursor}
    (h : hexEscape unicode start c = .ok (n, d)) : c.Reaches d := by
  unfold hexEscape at h
  split at h
  next he =>
    cases h
    exact Cursor.reaches_of_hexDigits? he
  next =>
    split at h <;> cases h
    exact .refl _

theorem reaches_of_bracedCodePoint {start n : Nat} {c d : Cursor}
    (h : bracedCodePoint start c = .ok (n, d)) : c.Reaches d := by
  have hc := Cursor.reaches_hexUpTo 0x10ffff c
  unfold bracedCodePoint at h
  split at h
  next => cases h
  next he =>
    rw [he] at hc
    split at h
    next => cases h
    next hf =>
      cases h
      exact hc.trans (Cursor.advances_of_eat? hf).reaches

theorem reaches_of_lowSurrogate? {n : Nat} {c d : Cursor}
    (h : lowSurrogate? c = some (n, d)) : c.Reaches d := by
  unfold lowSurrogate? at h
  split at h
  next => cases h
  next he =>
    obtain ⟨h, -⟩ := Option.filter_eq_some_iff.mp h
    exact Cursor.Reaches.trans ⟨_, Cursor.passes_of_eatAll? he⟩ (Cursor.reaches_of_hexDigits? h)

theorem reaches_of_unicodeEscape {unicode : Bool} {start n : Nat} {c d : Cursor}
    (h : unicodeEscape unicode start c = .ok (n, d)) : c.Reaches d := by
  unfold unicodeEscape at h
  split at h
  next he =>
    split at he
    next => exact (Cursor.advances_of_eat? he).reaches.trans (reaches_of_bracedCodePoint h)
    next => cases he
  next =>
    split at h
    next =>
      split at h <;> cases h
      exact .refl _
    next hd =>
      have hcd := Cursor.reaches_of_hexDigits? hd
      split at h
      next =>
        cases h
        exact hcd
      next he =>
        simp only [Except.ok.injEq, Prod.mk.injEq] at h
        obtain ⟨-, rfl⟩ := h
        split at he
        next => exact hcd.trans (reaches_of_lowSurrogate? he)
        next => cases he

theorem reaches_of_characterEscape {unicode inClass : Bool} {start n : Nat} {c d : Cursor}
    (h : characterEscape unicode inClass start c = .ok (n, d)) : c.Reaches d := by
  unfold characterEscape at h
  split at h
  next => cases h
  next ch e he =>
    have hce := (Cursor.advances_of_next? he).reaches
    split at h
    next =>
      cases h
      exact hce
    next =>
      split at h
      next => exact reaches_of_controlEscape hce h
      split at h
      next => exact reaches_of_digitEscape hce h
      split at h
      next => exact hce.trans (reaches_of_hexEscape h)
      split at h
      next => exact hce.trans (reaches_of_unicodeEscape h)
      split at h
      next => cases h
      next =>
        cases h
        exact hce

theorem reaches_of_propertyEscape {negated : Bool} {start : Nat} {p : Property} {c d : Cursor}
    (h : propertyEscape negated start c = .ok (p, d)) : c.Reaches d := by
  unfold propertyEscape at h
  split at h
  next => cases h
  next e he =>
    dsimp only at h
    split at h
    next => cases h
    next hf =>
      split at h
      next => cases h
      next =>
        cases h
        have hbody : e.Reaches _ := ⟨_, Cursor.passes_takeWhile isPropertyCharacter e⟩
        exact (Cursor.advances_of_eat? he).reaches.trans
          (hbody.trans (Cursor.advances_of_eat? hf).reaches)

end PatternBlocks.Grammar
