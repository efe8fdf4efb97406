import PatternBlocks.Capture.Scan
import PatternBlocks.Grammar.Bracket
import PatternBlocks.Grammar.Quantifier

/-! Atoms that open no group. -/
namespace PatternBlocks.Grammar

/-- What the reading of a pattern depends on throughout. -/
structure Mode where
  unicode : Bool
  scan : Capture.Scan
  deriving DecidableEq, Repr

/-- The group that a decimal escape refers to, provided the pattern has that many groups. -/
def groupNumber? (mode : Mode) (value : Nat) : Option UInt32 :=
  if 0 < value ∧ value ≤ mode.scan.count then word? value else none

/-- Reads a backreference by number, or else a legacy escape. -/
def decimalEscape (mode : Mode) (start : Nat) (c : Cursor) : Reading Regex :=
  let digits := c.decimal?.getD (0, c)
  match groupNumber? mode digits.1 with
  | some n => .ok (.backref (.number n) (digits.2.spanSince start), digits.2)
  | none =>
    if mode.unicode then digits.2.fail .invalidDecimalEscape start
    else
      let (ch, d) := legacyDecimal c
      .ok (.char ch true (d.spanSince start), d)

/-- Reads what follows `\k`, which is a plain letter in a lenient pattern without named groups. -/
def namedBackref (mode : Mode) (start : Nat) (c : Cursor) : Reading Regex :=
  if !mode.unicode && !mode.scan.anyNamed then .ok (.char 'k' true (c.spanSince start), c)
  else
    match c.eat? '<' with
    | none => c.fail .invalidNamedReference start
    | some d =>
      match d.groupName? with
      | none => d.fail .invalidNamedReference start
      | some (name, e) =>
        match e.eat? '>' with
        | none => e.fail .invalidNamedReference start
        | some f => .ok (.backref (.name name) (f.spanSince start), f)

def characterAtom (unicode : Bool) (start : Nat) (c : Cursor) : Reading Regex :=
  match characterEscape unicode false start c with
  | .error e => .error e
  | .ok (code, d) =>
    match char? code with
    | none => d.fail .loneSurrogate start
    | some ch => .ok (.char ch true (d.spanSince start), d)

/-- Reads an escape after its backslash. -/
def atomEscape (mode : Mode) (start : Nat) (c : Cursor) : Reading Regex :=
  match c.next? with
  | none => c.fail .trailingBackslash start
  | some (ch, d) =>
    match ClassEscape.ofLetter? ch with
    | some kind => .ok (.classEscape kind (d.spanSince start), d)
    | none =>
      if ch = 'b' then .ok (.assertion .wordBoundary (d.spanSince start), d)
      else if ch = 'B' then .ok (.assertion .notWordBoundary (d.spanSince start), d)
      else if mode.unicode && (ch = 'p' || ch = 'P') then
        (propertyEscape (ch = 'P') start d).map fun (p, e) => (.property p, e)
      else if ch = 'k' then namedBackref mode start d
      else if ch.isDigit && ch ≠ '0' then decimalEscape mode start c
      else characterAtom mode.unicode start c

/-- Reads an opening brace that no atom stands before. -/
def braceAtom (unicode : Bool) (c d : Cursor) : Reading Regex :=
  match braces? unicode c with
  | .error e => .error e
  | .ok (some (_, e)) => e.fail .nothingToRepeat c.position
  | .ok none => .ok (.char '{' false (d.spanSince c.position), d)

/-- Reads the atom that `ch`, the character between `c` and `d`, begins. -/
def plainAtom (mode : Mode) (ch : Char) (c d : Cursor) : Reading Regex :=
  let span := d.spanSince c.position
  if ch = '^' then .ok (.assertion .start span, d)
  else if ch = '$' then .ok (.assertion .stop span, d)
  else if ch = '.' then .ok (.dot span, d)
  else if ch = '[' then
    (bracketBody mode.unicode c.position d).map fun (b, e) => (.bracket b, e)
  else if ch = '\\' then atomEscape mode c.position d
  else if ch = '*' ∨ ch = '+' ∨ ch = '?' then d.fail .nothingToRepeat c.position
  else if ch = '{' then braceAtom mode.unicode c d
  else if mode.unicode && (ch = '}' || ch = ']') then
    d.fail .loneQuantifierBrackets c.position
  else .ok (.char ch false span, d)

theorem reaches_of_decimalEscape {mode : Mode} {start : Nat} {r : Regex} {c d : Cursor}
    (h : decimalEscape mode start c = .ok (r, d)) : c.Reaches d := by
  have hc : c.Reaches (c.decimal?.getD (0, c)).2 := by
    cases hd : c.decimal? with
    | none => exact .refl _
    | some digits => exact (Cursor.advances_of_decimal? hd).reaches
  unfold decimalEscape at h
  dsimp only at h
  split at h
  next =>
    cases h
    exact hc
  next =>
    split at h
    next => cases h
    next =>
      cases h
      exact reaches_legacyDecimal c

theorem reaches_of_namedBackref {mode : Mode} {start : Nat} {r : Regex} {c d : Cursor}
    (h : namedBackref mode start c = .ok (r, d)) : c.Reaches d := by
  unfold namedBackref at h
  split at h
  next =>
    cases h
    exact .refl _
  split at h
  next => cases h
  next he =>
    split at h
    next => cases h
    next hf =>
      split at h
      next => cases h
      next hg =>
        cases h
        have hname : Cursor.Reaches _ _ := ⟨_, Cursor.passes_of_groupName? hf⟩
        exact (Cursor.advances_of_eat? he).reaches.trans
          (hname.trans (Cursor.advances_of_eat? hg).reaches)

theorem reaches_of_characterAtom {unicode : Bool} {start : Nat} {r : Regex} {c d : Cursor}
    (h : characterAtom unicode start c = .ok (r, d)) : c.Reaches d := by
  unfold characterAtom at h
  split at h
  next => cases h
  next he =>
    split at h <;> cases h
    exact reaches_of_characterEscape he

theorem reaches_of_atomEscape {mode : Mode} {start : Nat} {r : Regex} {c d : Cursor}
    (h : atomEscape mode start c = .ok (r, d)) : c.Reaches d := by
  unfold atomEscape at h
  split at h
  next => cases h
  next ch e he =>
    have hce := (Cursor.advances_of_next? he).reaches
    split at h
    next =>
      cases h
      exact hce
    split at h
    next =>
      cases h
      exact hce
    split at h
    next =>
      cases h
      exact hce
    split at h
    next =>
      cases hp : propertyEscape (ch = 'P') start e with
      | error => simp [hp, Except.map] at h
      | ok p =>
        simp only [hp, Except.map, Except.ok.injEq, Prod.mk.injEq] at h
        obtain ⟨-, rfl⟩ := h
        exact hce.trans (reaches_of_propertyEscape hp)
    split at h
    next => exact hce.trans (reaches_of_namedBackref h)
    split at h
    next => exact reaches_of_decimalEscape h
    next => exact reaches_of_characterAtom h

theorem advances_of_braceAtom {unicode : Bool} {r : Regex} {c d e : Cursor}
    (hcd : c.Advances d) (h : braceAtom unicode c d = .ok (r, e)) : c.Advances e := by
  unfold braceAtom at h
  split at h <;> cases h
  exact hcd

theorem advances_of_plainAtom {mode : Mode} {ch : Char} {r : Regex} {c d e : Cursor}
    (hcd : c.Advances d) (h : plainAtom mode ch c d = .ok (r, e)) : c.Advances e := by
  unfold plainAtom at h
  dsimp only at h
  iterate 3
    split at h
    next =>
      cases h
      exact hcd
  split at h
  next =>
    cases hb : bracketBody mode.unicode c.position d with
    | error => simp [hb, Except.map] at h
    | ok b =>
      simp only [hb, Except.map, Except.ok.injEq, Prod.mk.injEq] at h
      obtain ⟨-, rfl⟩ := h
      exact hcd.trans_reaches (reaches_of_bracketBody hb)
  split at h
  next => exact hcd.trans_reaches (reaches_of_atomEscape h)
  split at h
  next => cases h
  split at h
  next => exact advances_of_braceAtom hcd h
  split at h
  next => cases h
  next =>
    cases h
    exact hcd

end PatternBlocks.Grammar
