import PatternBlocks.Proofs.ClassText
import PatternBlocks.Proofs.Repeats

/-!
The texts of atoms without parentheses are read back as these atoms: characters, shorthands,
assertions, classes and references.
-/
namespace PatternBlocks.Grammar

variable {mode : Mode}

/-- In front of `rest` the text `w` is read as an atom that contributes `p`, and which may repeat
if `repeats` holds. -/
def ReadsAtom (mode : Mode) (w rest : List Char) (p : Piece) (repeats : Prop) : Prop :=
  ∀ position, ∃ ch c a d, Cursor.next? ⟨w ++ rest, position⟩ = some (ch, c) ∧
    ch ∉ ['(', ')', '|'] ∧ plainAtom mode ch ⟨w ++ rest, position⟩ c = .ok (a, d) ∧
    d.rest = rest ∧ a.piece = .ok p ∧ (repeats → mayRepeat mode.unicode a)

/-- An escape is read as an atom if what stands behind its backslash is. -/
theorem readsAtom_escape {w rest : List Char} {p : Piece} {repeats : Prop}
    (h : ∀ start position, ∃ a d, atomEscape mode start ⟨w ++ rest, position⟩ = .ok (a, d) ∧
      d.rest = rest ∧ a.piece = .ok p ∧ (repeats → mayRepeat mode.unicode a)) :
    ReadsAtom mode ('\\' :: w) rest p repeats := by
  intro position
  obtain ⟨a, d, hread, hd, ha, hmay⟩ := h position (position + '\\'.utf8Size)
  refine ⟨'\\', ⟨w ++ rest, position + '\\'.utf8Size⟩, a, d, rfl, by decide, ?_, hd, ha, hmay⟩
  simp only [plainAtom, Char.reduceEq, if_false, if_true]
  exact hread

/-! ### Characters -/

theorem characterEscape_special {ch : Char} (h : ch ∈ literalSpecials) (unicode inClass : Bool)
    (start position : Nat) (rest : List Char) :
    characterEscape unicode inClass start ⟨ch :: rest, position⟩ =
      .ok (ch.toNat, ⟨rest, position + ch.utf8Size⟩) := by
  have hall : literalSpecials.all fun ch => controlCode? ch = none ∧ ch ≠ 'c' ∧
      ch.isDigit = false ∧ ch ≠ 'x' ∧ ch ≠ 'u' ∧ syntaxCharacters.contains ch = true := by decide
  obtain ⟨hcontrol, hc, hdigit, hx, hu, hsyntax⟩ :=
    of_decide_eq_true (List.all_eq_true.mp hall ch h)
  simp only [characterEscape, Cursor.next?, hcontrol, hc, hdigit, hx, hu, hsyntax]
  simp

theorem atomEscape_of_characterEscape {ch x : Char} {start position : Nat} {rest : List Char}
    {d : Cursor} (hletter : ClassEscape.ofLetter? ch = none)
    (hch : ch ∉ ['b', 'B', 'p', 'P', 'k']) (hdigit : ch.isDigit = false)
    (h : characterEscape mode.unicode false start ⟨ch :: rest, position⟩ = .ok (x.toNat, d)) :
    atomEscape mode start ⟨ch :: rest, position⟩ =
      .ok (.char x true (d.spanSince start), d) := by
  simp only [List.mem_cons, List.not_mem_nil, or_false, not_or] at hch
  obtain ⟨hb, hB, hp, hP, hk⟩ := hch
  simp [atomEscape, Cursor.next?, hletter, hb, hB, hp, hP, hk, hdigit, characterAtom, h,
    char?_toNat]

/-- Quoted or not, a character is read as itself. -/
theorem readsAtom_quote (ch : Char) (rest : List Char) :
    ReadsAtom mode (quote literalSpecials [ch]) rest (.char ch) True := by
  by_cases hspecial : ch ∈ literalSpecials
  · have hquote : quote literalSpecials [ch] = ['\\', ch] := by simp [quote, hspecial]
    have hall : literalSpecials.all fun ch => ClassEscape.ofLetter? ch = none ∧
        ch ∉ ['b', 'B', 'p', 'P', 'k'] ∧ ch.isDigit = false := by decide
    obtain ⟨hletter, hch, hdigit⟩ := of_decide_eq_true (List.all_eq_true.mp hall ch hspecial)
    rw [hquote]
    apply readsAtom_escape
    intro start position
    exact ⟨.char ch true ⟨start, position + ch.utf8Size⟩, ⟨rest, position + ch.utf8Size⟩,
      atomEscape_of_characterEscape hletter hch hdigit (characterEscape_special hspecial ..), rfl,
      rfl, fun _ => rfl⟩
  · have hquote : quote literalSpecials [ch] = [ch] := by simp [quote, hspecial]
    rw [hquote]
    simp only [literalSpecials, List.mem_cons, List.not_mem_nil, or_false, not_or] at hspecial
    intro position
    refine ⟨ch, ⟨rest, position + ch.utf8Size⟩, .char ch false ⟨position, position + ch.utf8Size⟩,
      ⟨rest, position + ch.utf8Size⟩, rfl, ?_, ?_, rfl, rfl, fun _ => rfl⟩
    · simp [hspecial]
    · simp [plainAtom, hspecial, Cursor.spanSince]

/-- A digit in hexadecimal is read as the digit. -/
theorem readsAtom_hex {ch : Char} (h : ch.isDigit) (rest : List Char) :
    ReadsAtom mode ('\\' :: 'x' :: Nat.toDigits 16 ch.toNat) rest (.char ch) True := by
  apply readsAtom_escape
  intro start position
  obtain ⟨d, hread, hd⟩ := Cursor.hexDigits?_of_isDigit h rest (position + 'x'.utf8Size)
  have hcode : characterEscape mode.unicode false start
      ⟨'x' :: (Nat.toDigits 16 ch.toNat ++ rest), position⟩ = .ok (ch.toNat, d) := by
    simp [characterEscape, Cursor.next?, controlCode?, hexEscape, hread, Char.isDigit]
  exact ⟨_, d, atomEscape_of_characterEscape rfl (by decide) (by decide) hcode, hd, rfl,
    fun _ => rfl⟩

theorem literalText_digit {ch : Char} (h : ch.isDigit) :
    Block.literalText true [ch] = '\\' :: 'x' :: Nat.toDigits 16 ch.toNat := by
  simp [Block.literalText, Block.guardedText, h, quote]

theorem literalText_quote {afterNumber : Bool} {ch : Char} (h : afterNumber → ¬ch.isDigit) :
    Block.literalText afterNumber [ch] = quote literalSpecials [ch] := by
  cases afterNumber with
  | false => rfl
  | true => simp [Block.literalText, Block.guardedText, h rfl]

/-- A character of a literal, which behind a number is not written as a digit. -/
theorem readsAtom_literalText (afterNumber : Bool) (ch : Char) (rest : List Char) :
    ReadsAtom mode (Block.literalText afterNumber [ch]) rest (.char ch) True := by
  by_cases h : afterNumber ∧ ch.isDigit
  · rw [h.1, literalText_digit h.2]
    exact readsAtom_hex h.2 rest
  · rw [literalText_quote (not_and.mp h)]
    exact readsAtom_quote ch rest

/-! ### Shorthands and assertions -/

theorem readsAtom_shorthand (which : Shorthand) (rest : List Char) :
    ReadsAtom mode which.render rest (.block (.mkShorthand which)) True := by
  have hescape (letter : Char) (kind : ClassEscape)
      (h : ClassEscape.ofLetter? letter = some kind) :
      ReadsAtom mode ['\\', letter] rest (.block (.mkShorthand (.ofClassEscape kind))) True := by
    apply readsAtom_escape
    intro start position
    refine ⟨.classEscape kind ⟨start, position + letter.utf8Size⟩,
      ⟨rest, position + letter.utf8Size⟩, ?_, rfl, rfl, fun _ => rfl⟩
    simp [atomEscape, Cursor.next?, h, Cursor.spanSince]
  cases which with
  | digit => exact hescape 'd' .digit rfl
  | nonDigit => exact hescape 'D' .notDigit rfl
  | word => exact hescape 'w' .word rfl
  | nonWord => exact hescape 'W' .notWord rfl
  | space => exact hescape 's' .space rfl
  | nonSpace => exact hescape 'S' .notSpace rfl
  | any =>
    intro position
    exact ⟨'.', _, _, _, rfl, by decide, rfl, rfl, rfl, fun _ => rfl⟩

theorem readsAtom_anchor (which : Anchor) (rest : List Char) :
    ReadsAtom mode which.render rest (.block (.mkAnchor which)) False := by
  intro position
  cases which with
  | start => exact ⟨'^', _, _, _, rfl, by decide, rfl, rfl, rfl, False.elim⟩
  | stop => exact ⟨'$', _, _, _, rfl, by decide, rfl, rfl, rfl, False.elim⟩

theorem readsAtom_boundary (which : Boundary) (rest : List Char) :
    ReadsAtom mode which.render rest (.block (.mkBoundary which)) False := by
  cases which with
  | word => exact readsAtom_escape fun _ _ => ⟨_, _, rfl, rfl, rfl, False.elim⟩
  | nonWord => exact readsAtom_escape fun _ _ => ⟨_, _, rfl, rfl, rfl, False.elim⟩

/-! ### Classes and references -/

theorem plainAtom_bracket {b : Bracket} {c d e : Cursor}
    (h : bracketBody mode.unicode c.position d = .ok (b, e)) :
    plainAtom mode '[' c d = .ok (.bracket b, e) := by
  simp only [plainAtom, Char.reduceEq, if_false, if_true, h]
  rfl

theorem readsAtom_charClass {c : CharClass} (h : CharClass.IsInside mode.unicode c.inside)
    (rest : List Char) :
    ReadsAtom mode c.render rest (.block (.mkCharClass c.reread)) True := by
  intro position
  obtain ⟨b, d, hread, hd, hblock⟩ :=
    bracketBody_of_isInside h position (position + '['.utf8Size) rest
  refine ⟨'[', ⟨c.inside ++ ']' :: rest, position + '['.utf8Size⟩, .bracket b, d, ?_, by decide,
    plainAtom_bracket hread, hd, ?_, fun _ => rfl⟩
  · simp [CharClass.render_eq, Cursor.next?]
  · exact congrArg (fun b => Except.ok (Piece.block b)) hblock

theorem decimalDigits_eq_cons {n : UInt32} (h : n ≠ 0) :
    ∃ ch ds, decimalDigits n = ch :: ds ∧ ch.isDigit ∧ ch ≠ '0' := by
  cases hdigits : decimalDigits n with
  | nil => exact absurd hdigits (decimalDigits_ne_nil n)
  | cons ch ds =>
    refine ⟨ch, ds, rfl, isDigit_of_mem_decimalDigits (hdigits ▸ List.mem_cons_self), ?_⟩
    rintro rfl
    refine head?_toDigits_ne (n := n.toNat) ?_ (congrArg List.head? hdigits)
    intro hzero
    exact h (UInt32.toNat_inj.mp hzero)

/-- What cannot begin a letter escape of any kind is left to the decimal escapes. -/
theorem atomEscape_digit {ch : Char} (hdigit : ch.isDigit) (hzero : ch ≠ '0')
    (start position : Nat) (rest : List Char) :
    atomEscape mode start ⟨ch :: rest, position⟩ =
      decimalEscape mode start ⟨ch :: rest, position⟩ := by
  have hletter : ClassEscape.ofLetter? ch = none := by
    unfold ClassEscape.ofLetter?
    split
    all_goals first | rfl | exact absurd hdigit (by decide)
  have hne {x : Char} (hx : x.isDigit = false) : ch ≠ x := by
    rintro rfl
    rw [hx] at hdigit
    cases hdigit
  have hb : ch ≠ 'b' := hne (by decide)
  have hB : ch ≠ 'B' := hne (by decide)
  have hp : ch ≠ 'p' := hne (by decide)
  have hP : ch ≠ 'P' := hne (by decide)
  have hk : ch ≠ 'k' := hne (by decide)
  simp [atomEscape, Cursor.next?, hletter, hb, hB, hp, hP, hk, hdigit, hzero]

theorem piece_number (n : GroupNumber) (span : Span) :
    (Regex.backref (.number n.value) span).piece = .ok (.block (.backref (.index n) .one)) := by
  simp [Regex.piece, Block.ofReference, Block.mkNumberReference, GroupNumber.ofUInt32?, n.ne_zero,
    Except.map]

/-- A reference by number ends where no digit follows. -/
theorem readsAtom_number {n : GroupNumber} (hcount : n.value.toNat ≤ mode.scan.count)
    {rest : List Char} (hrest : BeginsWithout Char.isDigit rest) :
    ReadsAtom mode (Target.index n).render rest (.block (.backref (.index n) .one)) True := by
  apply readsAtom_escape
  intro start position
  obtain ⟨ch, ds, hdigits, hdigit, hzero⟩ := decimalDigits_eq_cons n.ne_zero
  have hpos : 0 < n.value.toNat := by
    have := mt UInt32.toNat_inj.mp n.ne_zero
    rw [UInt32.toNat_zero] at this
    omega
  have hgroup : groupNumber? mode n.value.toNat = some n.value := by
    rw [groupNumber?, if_pos ⟨hpos, hcount⟩, word?_toNat]
  have hread := Cursor.decimal?_decimalDigits n.value hrest position
  refine ⟨.backref (.number n.value) ⟨start, position + utf8Length (decimalDigits n.value)⟩,
    ⟨rest, position + utf8Length (decimalDigits n.value)⟩, ?_, rfl, piece_number n _,
    fun _ => rfl⟩
  rw [hdigits] at hread ⊢
  rw [List.cons_append] at hread ⊢
  rw [atomEscape_digit hdigit hzero, decimalEscape, hread]
  simp only [Option.getD_some, hgroup]
  rfl

theorem eq_cons_of_isName {s : String} (h : GroupName.IsName s) :
    ∃ first more, s.toList = first :: more ∧ GroupName.isStart first ∧
      more.takeWhile GroupName.isContinue = more ∧ more.dropWhile GroupName.isContinue = [] := by
  obtain ⟨c, hread, hend⟩ := h
  unfold Cursor.groupName? at hread
  split at hread
  next => cases hread
  next first d hfirst =>
    split at hread
    next hstart =>
      simp only [Option.some.injEq, Prod.mk.injEq] at hread
      obtain ⟨-, rfl⟩ := hread
      have hs : s.toList = first :: d.rest := (Cursor.passes_of_next? hfirst).1
      have hnil : d.rest.dropWhile GroupName.isContinue = [] := List.isEmpty_iff.mp hend
      have hall : d.rest.takeWhile GroupName.isContinue = d.rest := by
        simpa [hnil] using List.takeWhile_append_dropWhile (p := GroupName.isContinue) (l := d.rest)
      exact ⟨first, d.rest, hs, hstart, hall, hnil⟩
    next => cases hread

/-- A name is read to its end before the closing angle bracket. -/
theorem groupName?_of_isName {s : String} (h : GroupName.IsName s) (rest : List Char)
    (position : Nat) :
    ∃ d, Cursor.groupName? ⟨s.toList ++ '>' :: rest, position⟩ = some (s, d) ∧
      d.rest = '>' :: rest := by
  obtain ⟨first, more, hs, hstart, hall, hnil⟩ := eq_cons_of_isName h
  have hangle : GroupName.isContinue '>' = false := by decide +kernel
  have htake : (more ++ '>' :: rest).takeWhile GroupName.isContinue = more :=
    (Cursor.takeWhile_append_cons hangle more rest).trans hall
  have hdrop : (more ++ '>' :: rest).dropWhile GroupName.isContinue = '>' :: rest := by
    rw [Cursor.dropWhile_append_cons hangle, hnil, List.nil_append]
  refine ⟨⟨'>' :: rest, position + first.utf8Size + utf8Length more⟩, ?_, rfl⟩
  have hname : String.ofList (first :: more) = s := by rw [← hs, String.ofList_toList]
  simp [Cursor.groupName?, hs, Cursor.next?, hstart, Cursor.takeWhile, htake, hdrop, hname]

/-- A reference by name is read wherever names are. -/
theorem readsAtom_name {s : String} (hnamed : mode.scan.anyNamed) (hs : GroupName.IsName s)
    (rest : List Char) :
    ReadsAtom mode (Target.name s).render rest (.block (.mkNameReference s)) True := by
  apply readsAtom_escape
  intro start position
  obtain ⟨⟨drest, dposition⟩, hread, hd⟩ :=
    groupName?_of_isName hs rest (position + 'k'.utf8Size + '<'.utf8Size)
  dsimp only at hd
  subst hd
  refine ⟨.backref (.name s) ⟨start, dposition + '>'.utf8Size⟩, ⟨rest, dposition + '>'.utf8Size⟩,
    ?_, rfl, rfl, fun _ => rfl⟩
  have hname : namedBackref mode start ⟨'<' :: (s.toList ++ '>' :: rest), position + 'k'.utf8Size⟩ =
      .ok (.backref (.name s) ⟨start, dposition + '>'.utf8Size⟩,
        ⟨rest, dposition + '>'.utf8Size⟩) := by
    simp [namedBackref, hnamed, Cursor.eat?, hread, Cursor.spanSince]
  rw [← hname]
  simp [atomEscape, Cursor.next?, ClassEscape.ofLetter?]

end PatternBlocks.Grammar
