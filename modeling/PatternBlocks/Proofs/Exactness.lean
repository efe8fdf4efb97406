import PatternBlocks.Proofs.Arrival
import PatternBlocks.Proofs.Braces
import PatternBlocks.Proofs.Tiling

/-!
Numbers in patterns stand for the numbers that their digits spell, however many digits there are.
Counts in braces keep the values of their bounds or make the pattern fail, and a reference by number
keeps the value of all its digits.
-/
namespace PatternBlocks

namespace Grammar

variable {mode : Mode} {unicode : Bool} {b : Braces}

/-! ### Counts -/

theorem repeated_of_inRange (h : b.InRange) {a : Regex} (may : mayRepeat unicode a) (start : Nat)
    (rest : List Char) (position : Nat) :
    ∃ greedy d, repeated unicode start a ⟨b.render ++ rest, position⟩ =
        .ok (.repetition b.count greedy a (d.spanSince start), d) ∧
      (greedy ↔ rest.head? ≠ some '?') ∧
      Cursor.Passes ⟨b.render ++ rest, position⟩ (b.render ++ if greedy then [] else ['?']) d := by
  have hcount : count? unicode ⟨b.render ++ rest, position⟩ =
      .ok (some (b.count, ⟨rest, position + utf8Length b.render⟩)) :=
    braces?_of_inRange h rest position
  have hbraces : Cursor.Passes ⟨b.render ++ rest, position⟩ b.render
      ⟨rest, position + utf8Length b.render⟩ := ⟨rfl, rfl⟩
  by_cases hmark : rest.head? = some '?'
  · obtain ⟨tail, rfl⟩ := List.head?_eq_some_iff.mp hmark
    have hlazy : greediness ⟨'?' :: tail, position + utf8Length b.render⟩ =
        (false, ⟨tail, position + utf8Length b.render + '?'.utf8Size⟩) := rfl
    refine ⟨false, _, ?_, by simp, hbraces.trans (Cursor.passes_of_eat? rfl)⟩
    simp only [repeated, quantifier?, hcount, hlazy, may, if_true]
  · have hgreedy : greediness ⟨rest, position + utf8Length b.render⟩ =
        (true, ⟨rest, position + utf8Length b.render⟩) := by
      simp [greediness, Cursor.eat?_eq_none hmark]
    refine ⟨true, _, ?_, by simpa using hmark, by simpa using hbraces⟩
    simp only [repeated, quantifier?, hcount, hgreedy, may, if_true]

/-! ### References -/

theorem toNat_of_groupNumber? {value : Nat} {n : UInt32} (h : groupNumber? mode value = some n) :
    n.toNat = value := by
  unfold groupNumber? at h
  split at h
  next => exact word?_eq_some h
  next => cases h

theorem number_of_decimalEscape {start : Nat} {n : UInt32} {span : Span} {c d : Cursor}
    (h : decimalEscape mode start c = .ok (.backref (.number n) span, d)) :
    c.decimal? = some (n.toNat, d) ∧ span = d.spanSince start := by
  unfold decimalEscape at h
  dsimp only at h
  split at h
  next hn =>
    cases h
    cases hdigits : c.decimal? with
    | none =>
      rw [hdigits] at hn
      cases hn
    | some digits =>
      rw [hdigits] at hn
      exact ⟨congrArg some (Prod.ext (toNat_of_groupNumber? hn).symm rfl), rfl⟩
  next => split at h <;> cases h

theorem ne_number_of_namedBackref {start : Nat} {n : UInt32} {span : Span} {c d : Cursor} :
    namedBackref mode start c ≠ .ok (.backref (.number n) span, d) := by
  intro h
  unfold namedBackref at h
  repeat' split at h
  all_goals cases h

theorem ne_number_of_characterAtom {start : Nat} {n : UInt32} {span : Span} {c d : Cursor} :
    characterAtom unicode start c ≠ .ok (.backref (.number n) span, d) := by
  intro h
  unfold characterAtom at h
  repeat' split at h
  all_goals cases h

theorem number_of_atomEscape {start : Nat} {n : UInt32} {span : Span} {c d : Cursor}
    (h : atomEscape mode start c = .ok (.backref (.number n) span, d)) :
    c.decimal? = some (n.toNat, d) ∧ span = d.spanSince start := by
  unfold atomEscape at h
  split at h
  next => cases h
  next ch e he =>
    iterate 3
      split at h
      next => cases h
    split at h
    next =>
      obtain ⟨p, -, heq⟩ := map_eq_ok.mp h
      cases heq
    split at h
    next => exact absurd h ne_number_of_namedBackref
    split at h
    next => exact number_of_decimalEscape h
    next => exact absurd h ne_number_of_characterAtom

/-- Only a decimal escape is a reference by number. -/
theorem number_of_plainAtom {ch : Char} {n : UInt32} {span : Span} {c d e : Cursor}
    (h : plainAtom mode ch c d = .ok (.backref (.number n) span, e)) :
    ch = '\\' ∧ d.decimal? = some (n.toNat, e) ∧ span = e.spanSince c.position := by
  unfold plainAtom at h
  dsimp only at h
  iterate 3
    split at h
    next => cases h
  split at h
  next =>
    obtain ⟨p, -, heq⟩ := map_eq_ok.mp h
    cases heq
  split at h
  next hch => exact ⟨hch, number_of_atomEscape h⟩
  split at h
  next => cases h
  split at h
  next =>
    unfold braceAtom at h
    split at h <;> cases h
  split at h <;> cases h

end Grammar

open Grammar (State atom term innerReader mayRepeat)

/-- The expression `r` repeats `a` as often as the braces say. -/
def Braces.Counts (b : Braces) (greedy : Bool) (a r : Regex) : Prop :=
  ∃ least most span, r = .repetition (.range least most) greedy a span ∧
    least.toNat = b.least.value ∧ most.map UInt32.toNat = b.most?.map Numeral.value

theorem Braces.InRange.counts {b : Braces} (h : b.InRange) (greedy : Bool) (a : Regex)
    (span : Span) : b.Counts greedy a (.repetition b.count greedy a span) := by
  obtain ⟨⟨hleast, hmost⟩, -⟩ := Braces.inRange_iff.mp h
  refine ⟨_, _, span, rfl, UInt32.toNat_ofNat_of_lt' hleast, ?_⟩
  cases hmem : b.most? with
  | none => rfl
  | some most => exact congrArg some (UInt32.toNat_ofNat_of_lt' (hmost most hmem))

/-- Parsing comes to braces right behind an atom that may repeat. The atom `a` is read from `s` up
to `t`, and `rest` follows the braces. -/
structure Pattern.ComesToBraces (unicode : Bool) (text : String) (b : Braces) (levels : Nat)
    (s : State) (a : Regex) (t : State) (rest : List Char) : Prop where
  comes : Pattern.ComesTo unicode text levels s
  atom : atom ⟨unicode, .ofString text⟩ (innerReader ⟨unicode, .ofString text⟩ levels) s =
    .ok (a, t)
  may : mayRepeat unicode a
  braces : t.cursor.rest = b.render ++ rest

/-- A backslash and all digits of the number stand at the span. -/
def Span.SpellsNumber (text : String) (d : Numeral) (s : Span) : Prop :=
  ∃ before after, text.toList = before ++ '\\' :: d.digits ++ after ∧
    BeginsWithout Char.isDigit after ∧ s.start = utf8Length before ∧
    s.stop = utf8Length (before ++ '\\' :: d.digits)

def Regex.isNumberReference : Regex → Bool
  | .backref (.number _) _ => true
  | _ => false

namespace Pattern

variable {unicode : Bool} {text : String} {b : Braces} {levels : Nat} {s t : State} {a : Regex}
  {rest : List Char}

theorem ComesToBraces.term_of_inRange
    (h : ComesToBraces unicode text b levels s a t rest) (hrange : b.InRange) :
    ∃ greedy r u, term ⟨unicode, .ofString text⟩
        (innerReader ⟨unicode, .ofString text⟩ levels) s = .ok (r, u) ∧
      b.Counts greedy a r ∧ (greedy ↔ rest.head? ≠ some '?') ∧
      t.cursor.Passes (b.render ++ if greedy then [] else ['?']) u.cursor := by
  obtain ⟨-, hatom, hmay, hbraces⟩ := h
  obtain ⟨⟨trest, position⟩, groups, references⟩ := t
  dsimp only at hbraces
  subst hbraces
  obtain ⟨greedy, d, hrepeated, hmark, hpasses⟩ :=
    Grammar.repeated_of_inRange hrange hmay s.cursor.position rest position
  refine ⟨greedy, _, ⟨d, groups, references⟩, ?_,
    hrange.counts greedy a (d.spanSince s.cursor.position), hmark, hpasses⟩
  simp only [term, hatom, hrepeated, Grammar.keepGroups]

theorem ComesToBraces.parse_of_not_inRange
    (h : ComesToBraces unicode text b levels s a t rest) (hrange : ¬b.InRange) :
    ∃ span, Pattern.parse unicode text = .error ⟨b.fault, span⟩ ∧ span.Spells text b.render := by
  obtain ⟨hcomes, hatom, hmay, hbraces⟩ := h
  obtain ⟨⟨trest, position⟩⟩ := t
  dsimp only at hbraces
  subst hbraces
  refine ⟨⟨position, position + utf8Length b.render⟩, hcomes.parse_eq_error ?_, ?_⟩
  · simp only [term, hatom, Grammar.repeated_of_not_inRange hrange, Grammar.keepGroups]
  · have hreaches := hcomes.reaches.trans
      (Grammar.advances_of_atom (Grammar.peek?_ne_none hcomes.more) hatom).reaches
    exact Cursor.Passes.spells (d := ⟨rest, position + utf8Length b.render⟩) hreaches ⟨rfl, rfl⟩

theorem number_of_mem_subtrees {p : Pattern} (h : Pattern.parse unicode text = .ok p)
    {n : UInt32} {span : Span} (hmem : .backref (.number n) span ∈ p.root.subtrees) :
    ∃ d : Numeral, n.toNat = d.value ∧ span.SpellsNumber text d := by
  obtain ⟨levels, s, ch, c, e, hcomes, hnext, hatom⟩ := exists_plainAtom h hmem rfl
  obtain ⟨rfl, hread, rfl⟩ := Grammar.number_of_plainAtom hatom
  obtain ⟨d, hvalue, hdigits, hend⟩ := Cursor.exists_numeral hread
  refine ⟨d, ?_, ?_⟩
  · have hword : d.saturated < UInt32.size := hvalue ▸ n.toNat_lt
    rw [hvalue, Numeral.saturated_eq (Numeral.saturated_lt_word_iff.mp hword)]
  · have hescape := (Cursor.passes_of_next? hnext).trans hdigits
    obtain ⟨before, htext, hposition⟩ := Cursor.IsOn.passes hcomes.reaches
    refine ⟨before, e.rest, ?_, hend, hposition, ?_⟩
    · simp [htext, hescape.1]
    · rw [utf8Length_append, ← hposition]
      exact hescape.2

/-- Numbers are exact, in either mode and for any number of digits. -/
theorem numbers_exact (unicode : Bool) (text : String) :
    (∀ b levels s a t rest, ComesToBraces unicode text b levels s a t rest →
      (b.InRange → ∃ greedy r u, term ⟨unicode, .ofString text⟩
          (innerReader ⟨unicode, .ofString text⟩ levels) s = .ok (r, u) ∧
        b.Counts greedy a r ∧ (greedy ↔ rest.head? ≠ some '?') ∧
        t.cursor.Passes (b.render ++ if greedy then [] else ['?']) u.cursor ∧
        ∀ p, Pattern.parse unicode text = .ok p → r ∈ p.root.subtrees) ∧
      (¬b.InRange → ∃ span, Pattern.parse unicode text = .error ⟨b.fault, span⟩ ∧
        span.Spells text b.render)) ∧
    ∀ p n span, Pattern.parse unicode text = .ok p →
      .backref (.number n) span ∈ p.root.subtrees →
      ∃ d : Numeral, n.toNat = d.value ∧ span.SpellsNumber text d := by
  refine ⟨fun b levels s a t rest h => ⟨fun hrange => ?_, h.parse_of_not_inRange⟩,
    fun p n span hparse hmem => number_of_mem_subtrees hparse hmem⟩
  obtain ⟨greedy, r, u, hterm, hcounts, hmark, hpasses⟩ := h.term_of_inRange hrange
  exact ⟨greedy, r, u, hterm, hcounts, hmark, hpasses, fun p => h.comes.mem_subtrees hterm⟩

/-- The braces `{007,12}`. -/
def padded : Braces :=
  .between ⟨['0', '0', '7'], by decide, List.all_eq_true.mp rfl⟩
    ⟨['1', '2'], by decide, List.all_eq_true.mp rfl⟩

/-- The braces `{99999999999999999999,99999999999999999998}`. -/
def huge : Braces :=
  .between ⟨List.replicate 20 '9', by decide, List.all_eq_true.mp rfl⟩
    ⟨List.replicate 19 '9' ++ ['8'], by decide, List.all_eq_true.mp rfl⟩

/-- Bounds with leading zeros inside a group, and a reference behind it; and in a later branch,
bounds that are too large for the reader. -/
theorem numbers_exact_long :
    (∃ p greedy a r n span d, Pattern.parse true "(b{007,12}?)\\1" = .ok p ∧
      padded.Counts greedy a r ∧ r ∈ p.root.subtrees ∧
      .backref (.number n) span ∈ p.root.subtrees ∧ n.toNat = Numeral.value d ∧
      span.SpellsNumber "(b{007,12}?)\\1" d) ∧
    ∃ span, Pattern.parse false "a|b{99999999999999999999,99999999999999999998}" =
      .error ⟨huge.fault, span⟩ ∧
      span.Spells "a|b{99999999999999999999,99999999999999999998}" huge.render := by
  constructor
  · have hcursor : Cursor.ofString "(b{007,12}?)\\1" =
        ⟨'(' :: 'b' :: (padded.render ++ ['?', ')', '\\', '1']), 0⟩ := by decide +kernel
    have hcomes : ComesToBraces true "(b{007,12}?)\\1" padded 127
        ⟨⟨'b' :: (padded.render ++ ['?', ')', '\\', '1']), 1⟩, Capture.Registry.push {} none, []⟩
        (.char 'b' false ⟨1, 2⟩)
        ⟨⟨padded.render ++ ['?', ')', '\\', '1'], 2⟩, Capture.Registry.push {} none, []⟩
        ['?', ')', '\\', '1'] := by
      refine ⟨?_, rfl, rfl, rfl⟩
      rw [Pattern.ComesTo, hcursor]
      exact .group .nil rfl rfl (.here .nil (by decide))
    have hrange : padded.InRange := ⟨by decide, by decide, by decide⟩
    have hparse : (Pattern.parse true "(b{007,12}?)\\1").toOption.any fun p =>
        p.root.subtrees.any Regex.isNumberReference := by
      decide +kernel
    obtain ⟨p, hp, hreference⟩ := exists_of_any hparse
    obtain ⟨x, hx, hnumber⟩ := List.any_eq_true.mp hreference
    unfold Regex.isNumberReference at hnumber
    split at hnumber
    next n span =>
      obtain ⟨hcounts, hreferences⟩ := numbers_exact true "(b{007,12}?)\\1"
      obtain ⟨greedy, r, -, -, hr, -, -, htree⟩ := (hcounts _ _ _ _ _ _ hcomes).1 hrange
      obtain ⟨d, hd, hspan⟩ := hreferences p n span hp hx
      exact ⟨p, greedy, _, r, n, span, d, hp, hr, htree p hp, hx, hd, hspan⟩
    next => cases hnumber
  · have hcursor : Cursor.ofString "a|b{99999999999999999999,99999999999999999998}" =
        ⟨'a' :: '|' :: 'b' :: (huge.render ++ []), 0⟩ := by decide +kernel
    have hcomes : ComesToBraces false "a|b{99999999999999999999,99999999999999999998}" huge 128
        { cursor := ⟨'b' :: (huge.render ++ []), 2⟩ } (.char 'b' false ⟨2, 3⟩)
        { cursor := ⟨huge.render ++ [], 3⟩ } [] := by
      refine ⟨?_, rfl, rfl, rfl⟩
      rw [Pattern.ComesTo, hcursor]
      exact .bar (.cons (by decide) (.plain rfl (by decide) rfl rfl) (.nil rfl)) rfl
        (.here .nil (by decide))
    have hrange : ¬huge.InRange := fun h => absurd h.least_le (by decide)
    exact ((numbers_exact false _).1 _ _ _ _ _ _ hcomes).2 hrange

end Pattern

end PatternBlocks
