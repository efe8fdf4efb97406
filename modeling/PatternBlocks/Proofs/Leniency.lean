import PatternBlocks.Proofs.GroupText

/-!
Unicode mode only restricts. Where it accepts a text without the escapes that it alone knows, the
lenient reading takes the same way through the text: each leniency stands where the strict reading
fails.
-/
namespace PatternBlocks

/-- No escape in the text is a code point in braces or a property. -/
structure Neutral (cs : List Char) : Prop where
  noCodePoint : ¬['\\', 'u', '{'] <:+: cs
  noProperty : ¬['\\', 'p'] <:+: cs
  noComplement : ¬['\\', 'P'] <:+: cs

theorem Neutral.of_reaches {c d : Cursor} (h : Neutral c.rest) (hcd : c.Reaches d) :
    Neutral d.rest := by
  obtain ⟨w, hw, -⟩ := hcd
  have hsuffix : d.rest <:+ c.rest := ⟨w, hw.symm⟩
  exact ⟨fun hx => h.noCodePoint (hx.trans hsuffix.isInfix),
    fun hx => h.noProperty (hx.trans hsuffix.isInfix),
    fun hx => h.noComplement (hx.trans hsuffix.isInfix)⟩

/-- What may follow a backslash in such a text. -/
theorem Neutral.escape {c d : Cursor} {ch : Char} (h : Neutral ('\\' :: c.rest))
    (hc : c.next? = some (ch, d)) :
    ch ≠ 'p' ∧ ch ≠ 'P' ∧ (ch = 'u' → d.rest.head? ≠ some '{') := by
  rw [(Cursor.passes_of_next? hc).1, List.singleton_append] at h
  refine ⟨?_, ?_, ?_⟩
  · rintro rfl
    exact h.noProperty (List.prefix_append ['\\', 'p'] d.rest).isInfix
  · rintro rfl
    exact h.noComplement (List.prefix_append ['\\', 'P'] d.rest).isInfix
  · rintro rfl hbrace
    obtain ⟨rest, hrest⟩ := List.head?_eq_some_iff.mp hbrace
    rw [hrest] at h
    exact h.noCodePoint (List.prefix_append ['\\', 'u', '{'] rest).isInfix

namespace Grammar

/-- Whatever the first reading accepts, the second one accepts with the same result. -/
def Within {ε α : Type} (x y : Except ε α) : Prop := ∀ a, x = .ok a → y = .ok a

section Within

variable {ε α : Type}

theorem Within.refl (x : Except ε α) : Within x x := fun _ h => h

theorem Within.error {e : ε} {y : Except ε α} : Within (.error e) y := nofun

theorem Within.map {β : Type} {x y : Except ε α} (h : Within x y) (f : α → β) :
    Within (x.map f) (y.map f) := by
  intro b hx
  obtain ⟨a, ha, hb⟩ := map_eq_ok.mp hx
  exact map_eq_ok.mpr ⟨a, h a ha, hb⟩

end Within

variable {inClass : Bool} {start opening : Nat}

/-! ### Escapes -/

theorem controlEscape_within {b c : Cursor} :
    Within (controlEscape true inClass start b c) (controlEscape false inClass start b c) := by
  unfold controlEscape
  cases hc : c.next? with
  | none => exact .error
  | some next =>
    obtain ⟨letter, d⟩ := next
    cases hletter : letter.isAlpha with
    | true =>
      simp only [Option.filter, isControlLetter, hletter, Bool.true_or, if_true]
      exact .refl _
    | false =>
      simp only [Option.filter, isControlLetter, hletter, Bool.not_true, Bool.and_false,
        Bool.false_and, Bool.or_false, Bool.false_eq_true, if_false]
      exact .error

theorem digitEscape_within {first : Char} {c d : Cursor} :
    Within (digitEscape true start first c d) (digitEscape false start first c d) := by
  unfold digitEscape
  split
  · exact .refl _
  · exact .error

theorem hexEscape_within {c : Cursor} :
    Within (hexEscape true start c) (hexEscape false start c) := by
  unfold hexEscape
  split
  · exact .refl _
  · exact .error

/-- Without a brace both modes read the same four digits. -/
theorem unicodeEscape_within {c : Cursor} (h : c.rest.head? ≠ some '{') :
    Within (unicodeEscape true start c) (unicodeEscape false start c) := by
  have hbrace : c.eat? '{' = none := Cursor.eat?_eq_none h _
  unfold unicodeEscape
  simp only [hbrace, if_true, Bool.false_eq_true, if_false]
  cases c.hexDigits? 4 with
  | none => exact .error
  | some => exact .refl _

theorem characterEscape_within {c : Cursor} (h : Neutral ('\\' :: c.rest)) :
    Within (characterEscape true inClass start c) (characterEscape false inClass start c) := by
  unfold characterEscape
  cases hc : c.next? with
  | none => exact .error
  | some next =>
    obtain ⟨ch, d⟩ := next
    obtain ⟨-, -, hbrace⟩ := h.escape hc
    dsimp only
    split
    · exact .refl _
    split
    · exact controlEscape_within
    split
    · exact digitEscape_within
    split
    · exact hexEscape_within
    split
    next hu => exact unicodeEscape_within (hbrace hu)
    rw [Bool.false_and, Bool.false_and, if_neg Bool.false_ne_true]
    split
    · exact .error
    · exact .refl _

/-! ### Bracket expressions -/

theorem classEscapeAtom_within {c : Cursor} (h : Neutral ('\\' :: c.rest)) :
    Within (classEscapeAtom true opening start c) (classEscapeAtom false opening start c) := by
  unfold classEscapeAtom
  cases hc : c.next? with
  | none => exact .error
  | some next =>
    obtain ⟨ch, d⟩ := next
    obtain ⟨hproperty, hcomplement, -⟩ := h.escape hc
    simp only [hproperty, hcomplement, decide_false, Bool.or_self, Bool.and_false, Bool.false_and,
      Bool.false_eq_true, if_false]
    split
    · exact .refl _
    split
    · exact .refl _
    split
    · exact .error
    · exact (characterEscape_within h).map _

theorem classAtom_within {c : Cursor} (h : Neutral c.rest) :
    Within (classAtom true opening c) (classAtom false opening c) := by
  unfold classAtom
  cases hc : c.next? with
  | none => exact .error
  | some next =>
    obtain ⟨ch, d⟩ := next
    dsimp only
    split
    next hbackslash =>
      rw [(Cursor.passes_of_next? hc).1, hbackslash, List.singleton_append] at h
      exact classEscapeAtom_within h
    next => exact .refl _

theorem joinAtoms_within {low high : ClassAtom} {c : Cursor} :
    Within (joinAtoms true start low high c) (joinAtoms false start low high c) := by
  unfold joinAtoms
  split
  · exact .refl _
  · exact .error

theorem classMember_within {c : Cursor} (h : Neutral c.rest) :
    Within (classMember true opening c) (classMember false opening c) := by
  rintro ⟨items, d⟩ hread
  unfold classMember at hread ⊢
  split at hread
  next => cases hread
  next low e hlow =>
    rw [classAtom_within h _ hlow]
    dsimp only
    split at hread
    next => exact hread
    next f hhyphen =>
      split at hread
      next => cases hread
      next high g hhigh =>
        have hf : Neutral f.rest := h.of_reaches
          ((advances_of_classAtom hlow).reaches.trans (advances_of_rangeHyphen? hhyphen).reaches)
        rw [classAtom_within hf _ hhigh]
        exact joinAtoms_within _ hread

theorem classMembers_within {c : Cursor} (h : Neutral c.rest) :
    Within (classMembers true opening c) (classMembers false opening c) := by
  rintro ⟨items, d⟩ hread
  fun_induction classMembers true opening c generalizing items with
  | case1 => cases hread
  | case2 c hpeek =>
    cases hread
    exact classMembers_bracket hpeek
  | case3 => cases hread
  | case4 => cases hread
  | case5 c ch hne hpeek first e hfirst more f hmore ih =>
    cases hread
    have he : Neutral e.rest := h.of_reaches (advances_of_classMember hfirst).reaches
    exact classMembers_cons hpeek hne (classMember_within h _ hfirst) (ih he _ hmore)

theorem bracketBody_within {c : Cursor} (h : Neutral c.rest) :
    Within (bracketBody true opening c) (bracketBody false opening c) := by
  have hfrom : Neutral (negation c).2.rest := h.of_reaches (reaches_negation c)
  intro b hread
  unfold bracketBody at hread ⊢
  dsimp only at hread ⊢
  split at hread
  next => cases hread
  next hmembers =>
    rw [classMembers_within hfrom _ hmembers]
    exact hread

/-! ### Quantifiers -/

theorem braces?_within {c : Cursor} : Within (braces? true c) (braces? false c) := by
  unfold braces?
  split
  · exact .refl _
  · split
    · exact .error
    · exact .refl _

theorem count?_within {c : Cursor} : Within (count? true c) (count? false c) := by
  unfold count?
  split
  case h_4 => exact braces?_within
  all_goals exact .refl _

theorem quantifier?_within {c : Cursor} : Within (quantifier? true c) (quantifier? false c) := by
  intro q hread
  unfold quantifier? at hread ⊢
  split at hread
  next => cases hread
  next hcount =>
    rw [count?_within _ hcount]
    exact hread
  next hcount =>
    rw [count?_within _ hcount]
    exact hread

theorem mayRepeat_within {r : Regex} (h : mayRepeat true r) : mayRepeat false r := by
  cases r with
  | assertion => cases h
  | look => simp [mayRepeat] at h
  | _ => rfl

theorem repeated_within {r : Regex} {c : Cursor} :
    Within (repeated true start r c) (repeated false start r c) := by
  intro x hread
  unfold repeated at hread ⊢
  split at hread
  next => cases hread
  next hnone =>
    rw [quantifier?_within _ hnone]
    exact hread
  next hsome =>
    rw [quantifier?_within _ hsome]
    dsimp only
    split at hread
    next hmay =>
      rw [if_pos (mayRepeat_within hmay)]
      exact hread
    next => cases hread

/-! ### Atoms -/

variable {scan : Capture.Scan}

theorem decimalEscape_within {c : Cursor} :
    Within (decimalEscape ⟨true, scan⟩ start c) (decimalEscape ⟨false, scan⟩ start c) := by
  have hnumber (value : Nat) :
      groupNumber? ⟨true, scan⟩ value = groupNumber? ⟨false, scan⟩ value := rfl
  unfold decimalEscape
  simp only [hnumber]
  split
  · exact .refl _
  · exact .error

/-- References by name are read in both modes if the pattern has named groups. -/
theorem namedBackref_within {c : Cursor} (h : scan.anyNamed) :
    Within (namedBackref ⟨true, scan⟩ start c) (namedBackref ⟨false, scan⟩ start c) := by
  unfold namedBackref
  simp only [h, Bool.not_true, Bool.and_false, Bool.false_eq_true, if_false]
  exact .refl _

theorem name_of_namedBackref {c d : Cursor} {r : Regex}
    (h : namedBackref ⟨true, scan⟩ start c = .ok (r, d)) :
    ∃ name span, r = .backref (.name name) span := by
  unfold namedBackref at h
  rw [if_neg (by simp)] at h
  split at h
  next => cases h
  next =>
    split at h
    next => cases h
    next =>
      split at h <;> cases h
      exact ⟨_, _, rfl⟩

theorem characterAtom_within {c : Cursor} (h : Neutral ('\\' :: c.rest)) :
    Within (characterAtom true start c) (characterAtom false start c) := by
  intro x hread
  unfold characterAtom at hread ⊢
  split at hread
  next => cases hread
  next hcode =>
    rw [characterEscape_within h _ hcode]
    exact hread

/-- The pattern has named groups if the expression refers to any. -/
def RefersWithin (scan : Capture.Scan) (r : Regex) : Prop :=
  r.namedReferences ≠ [] → scan.anyNamed

theorem atomEscape_within {r : Regex} {c d : Cursor} (hneutral : Neutral ('\\' :: c.rest))
    (hrefs : RefersWithin scan r) (h : atomEscape ⟨true, scan⟩ start c = .ok (r, d)) :
    atomEscape ⟨false, scan⟩ start c = .ok (r, d) := by
  unfold atomEscape at h ⊢
  cases hc : c.next? with
  | none => simp [hc, Cursor.fail] at h
  | some next =>
    obtain ⟨ch, e⟩ := next
    obtain ⟨hproperty, hcomplement, -⟩ := hneutral.escape hc
    simp only [hc, hproperty, hcomplement, decide_false, Bool.or_self, Bool.and_false,
      Bool.false_eq_true, if_false] at h ⊢
    split at h
    next => exact h
    split at h
    next hb => rwa [if_pos hb]
    rw [if_neg ‹_›]
    split at h
    next hb => rwa [if_pos hb]
    rw [if_neg ‹_›]
    split at h
    next hk =>
      rw [if_pos hk]
      obtain ⟨name, span, rfl⟩ := name_of_namedBackref h
      exact namedBackref_within (hrefs (List.cons_ne_nil _ _)) _ h
    rw [if_neg ‹_›]
    split at h
    next hdigit =>
      rw [if_pos hdigit]
      exact decimalEscape_within _ h
    next hdigit =>
      rw [if_neg hdigit]
      exact characterAtom_within hneutral _ h

theorem braceAtom_within {c d : Cursor} : Within (braceAtom true c d) (braceAtom false c d) := by
  intro x hread
  unfold braceAtom at hread ⊢
  split at hread
  next => cases hread
  next => cases hread
  next hnone =>
    rw [braces?_within _ hnone]
    exact hread

theorem plainAtom_within {r : Regex} {ch : Char} {c d e : Cursor} (hneutral : Neutral c.rest)
    (first : c.next? = some (ch, d)) (hrefs : RefersWithin scan r)
    (h : plainAtom ⟨true, scan⟩ ch c d = .ok (r, e)) :
    plainAtom ⟨false, scan⟩ ch c d = .ok (r, e) := by
  have hd : Neutral d.rest := hneutral.of_reaches (Cursor.advances_of_next? first).reaches
  unfold plainAtom at h ⊢
  dsimp only at h ⊢
  split at h
  next hch => rwa [if_pos hch]
  rw [if_neg ‹_›]
  split at h
  next hch => rwa [if_pos hch]
  rw [if_neg ‹_›]
  split at h
  next hch => rwa [if_pos hch]
  rw [if_neg ‹_›]
  split at h
  next hch =>
    rw [if_pos hch]
    exact (bracketBody_within hd).map _ _ h
  rw [if_neg ‹_›]
  split at h
  next hch =>
    rw [if_pos hch]
    rw [(Cursor.passes_of_next? first).1, hch, List.singleton_append] at hneutral
    exact atomEscape_within hneutral hrefs h
  rw [if_neg ‹_›]
  split at h
  next => cases h
  rw [if_neg ‹_›]
  split at h
  next hch =>
    rw [if_pos hch]
    exact braceAtom_within _ h
  rw [if_neg ‹_›]
  split at h
  next => cases h
  next => exact h

/-! ### Patterns -/

mutual

theorem ReadsTerm.lenient {levels : Nat} {s t : State} {r : Regex} :
    ReadsTerm ⟨true, scan⟩ levels s r t → Neutral s.cursor.rest → RefersWithin scan r →
    ReadsTerm ⟨false, scan⟩ levels s r t
  | .plain first noGroup atom count, hs, hrefs => by
    rw [RefersWithin, namedReferences_of_repeated count] at hrefs
    exact .plain first noGroup (plainAtom_within hs first hrefs atom) (repeated_within _ count)
  | .group first opened inside closed count, hs, hrefs => by
    rw [RefersWithin, namedReferences_of_repeated count, namedReferences_close,
      namedReferences_choice] at hrefs
    have hinside := hs.of_reaches
      ((Cursor.advances_of_next? first).reaches.trans (reaches_of_opening opened))
    exact .group first opened (inside.lenient hinside hrefs) closed (repeated_within _ count)

theorem ReadsTerms.lenient {levels : Nat} {s t : State} {rs : List Regex} :
    ReadsTerms ⟨true, scan⟩ levels s rs t → Neutral s.cursor.rest →
    (Regex.namedReferencesOfAll rs ≠ [] → scan.anyNamed) → ReadsTerms ⟨false, scan⟩ levels s rs t
  | .nil last, _, _ => .nil last
  | .cons more head tail, hs, hrefs => by
    have hhead := hs.of_reaches (head.advances more).reaches
    refine .cons more (head.lenient hs fun h => hrefs ?_) (tail.lenient hhead fun h => hrefs ?_)
    · exact List.append_ne_nil_of_left_ne_nil h _
    · exact List.append_ne_nil_of_right_ne_nil _ h

/-- The derivation of a strict reading is one of a lenient reading. -/
theorem ReadsAlternatives.lenient {levels : Nat} {s t : State} {rs : Regex × List Regex} :
    ReadsAlternatives ⟨true, scan⟩ levels s rs t → Neutral s.cursor.rest →
    (Regex.namedReferencesOfAll (rs.1 :: rs.2) ≠ [] → scan.anyNamed) →
    ReadsAlternatives ⟨false, scan⟩ levels s rs t
  | .last terms noBar, hs, hrefs => by
    simp only [Regex.namedReferencesOfAll, namedReferences_sequence, List.append_nil] at hrefs
    exact .last (terms.lenient hs hrefs) noBar
  | .more terms bar tail, hs, hrefs => by
    rw [Regex.namedReferencesOfAll, namedReferences_sequence] at hrefs
    have hbar := hs.of_reaches (terms.reaches.trans (Cursor.advances_of_eat? bar).reaches)
    refine .more (terms.lenient hs fun h => hrefs ?_) bar (tail.lenient hbar fun h => hrefs ?_)
    · exact List.append_ne_nil_of_left_ne_nil h _
    · exact List.append_ne_nil_of_right_ne_nil _ h

end

end Grammar

/-- A pattern that refers to groups by name has named groups, and the count ahead of parsing knows
it. -/
theorem Pattern.anyNamed_of_namedReferences {unicode : Bool} {text : String} {p : Pattern}
    (h : Pattern.parse unicode text = .ok p) (hrefs : p.root.namedReferences ≠ []) :
    (Capture.Scan.ofString text).anyNamed := by
  obtain ⟨rs, t, -, -, -, -, hnames, hregistered⟩ := Pattern.parse_eq_ok h
  obtain ⟨-, hcaptures, hscan⟩ := Pattern.groups_of_parse h
  obtain ⟨x, hx⟩ := List.exists_mem_of_ne_nil _ hrefs
  have hname := Capture.Registry.hasName_iff_mem_names.mp (hregistered x hx)
  rw [← hnames, hcaptures, List.mem_filterMap] at hname
  obtain ⟨g, hg, hname⟩ := hname
  rw [hscan, Capture.Scan.behind, Bool.or_false, List.any_eq_true]
  exact ⟨g, hg, by rw [hname]; rfl⟩

/-- What unicode mode accepts is accepted without it as the same pattern, unless the text has an
escape that unicode mode alone knows. -/
theorem Pattern.parse_lenient {text : String} {p : Pattern} (hneutral : Neutral text.toList)
    (h : Pattern.parse true text = .ok p) : Pattern.parse false text = .ok p := by
  obtain ⟨rs, t, hrs, hend, hroot, hcaptures, hnames, hregistered⟩ := Pattern.parse_eq_ok h
  have hrefs : p.root.namedReferences ≠ [] → (Capture.Scan.ofString text).anyNamed :=
    Pattern.anyNamed_of_namedReferences h
  rw [hroot, Grammar.namedReferences_choice] at hrefs
  exact Pattern.parse_eq_ok_of_reads (hrs.lenient hneutral hrefs) hend hroot hcaptures hnames
    hregistered

/-- A pattern whose escapes, braces and references by name all have lenient readings. -/
theorem Pattern.parse_lenient_mixed :
    ∃ text p, text = "\\k<n>{2}(?<n>[\\b\\-\\cA-\\x7F]|\\uD83D\\uDE00\\/)(?!\\1\\0)" ∧
      Neutral text.toList ∧ Pattern.parse true text = .ok p ∧ Pattern.parse false text = .ok p := by
  have hneutral :
      Neutral "\\k<n>{2}(?<n>[\\b\\-\\cA-\\x7F]|\\uD83D\\uDE00\\/)(?!\\1\\0)".toList :=
    ⟨by decide +kernel, by decide +kernel, by decide +kernel⟩
  have hok : (Pattern.parse true
      "\\k<n>{2}(?<n>[\\b\\-\\cA-\\x7F]|\\uD83D\\uDE00\\/)(?!\\1\\0)").isOk := by decide +kernel
  obtain ⟨p, hp⟩ := Pattern.exists_of_isOk hok
  exact ⟨_, p, rfl, hneutral, hp, Pattern.parse_lenient hneutral hp⟩

end PatternBlocks
