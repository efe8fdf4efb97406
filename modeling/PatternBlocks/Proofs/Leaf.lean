import PatternBlocks.Proofs.Prescan

/-! What the atoms without parentheses and the quantifiers behind atoms can be. -/
namespace PatternBlocks

/-- The bounds of a counted quantifier are in order. -/
def Count.InOrder : Count → Prop
  | .range least (some most) => least ≤ most
  | _ => True

namespace Grammar

/-- The trees of atoms that open no group. -/
inductive Leaf (mode : Mode) : Regex → Prop
  | char (value : Char) (escaped : Bool) (span : Span) : Leaf mode (.char value escaped span)
  | dot (span : Span) : Leaf mode (.dot span)
  | classEscape (kind : ClassEscape) (span : Span) : Leaf mode (.classEscape kind span)
  | property (p : Property) (strict : mode.unicode) : Leaf mode (.property p)
  | bracket {b : Bracket} {opening : Nat} {c d : Cursor}
      (body : bracketBody mode.unicode opening c = .ok (b, d)) : Leaf mode (.bracket b)
  | assertion (kind : Assertion) (span : Span) : Leaf mode (.assertion kind span)
  | number {n : UInt32} (span : Span) (pos : n ≠ 0) (le : n.toNat ≤ mode.scan.count) :
      Leaf mode (.backref (.number n) span)
  | name {s : String} {c d : Cursor} (span : Span) (read : c.groupName? = some (s, d)) :
      Leaf mode (.backref (.name s) span)

theorem word?_eq_some {n : Nat} {w : UInt32} (h : word? n = some w) : w.toNat = n := by
  unfold word? at h
  split at h <;> cases h
  next hn => exact UInt32.toNat_ofNat_of_lt' hn

theorem groupNumber?_eq_some {mode : Mode} {value : Nat} {n : UInt32}
    (h : groupNumber? mode value = some n) : n ≠ 0 ∧ n.toNat ≤ mode.scan.count := by
  unfold groupNumber? at h
  split at h
  next hv =>
    have hn := word?_eq_some h
    refine ⟨?_, by omega⟩
    rintro rfl
    simp only [UInt32.toNat_zero] at hn
    omega
  next => cases h

theorem leaf_of_decimalEscape {mode : Mode} {start : Nat} {r : Regex} {c d : Cursor}
    (h : decimalEscape mode start c = .ok (r, d)) : Leaf mode r := by
  unfold decimalEscape at h
  dsimp only at h
  split at h
  next n hn =>
    cases h
    obtain ⟨hpos, hle⟩ := groupNumber?_eq_some hn
    exact .number _ hpos hle
  next =>
    split at h <;> cases h
    exact .char ..

theorem leaf_of_namedBackref {mode : Mode} {start : Nat} {r : Regex} {c d : Cursor}
    (h : namedBackref mode start c = .ok (r, d)) : Leaf mode r := by
  unfold namedBackref at h
  split at h
  next =>
    cases h
    exact .char ..
  split at h
  next => cases h
  next =>
    split at h
    next => cases h
    next hname =>
      split at h <;> cases h
      exact .name _ hname

theorem leaf_of_characterAtom {mode : Mode} {start : Nat} {r : Regex} {c d : Cursor}
    (h : characterAtom mode.unicode start c = .ok (r, d)) : Leaf mode r := by
  unfold characterAtom at h
  split at h
  next => cases h
  next =>
    split at h <;> cases h
    exact .char ..

theorem leaf_of_atomEscape {mode : Mode} {start : Nat} {r : Regex} {c d : Cursor}
    (h : atomEscape mode start c = .ok (r, d)) : Leaf mode r := by
  unfold atomEscape at h
  split at h
  next => cases h
  next ch e he =>
    split at h
    next =>
      cases h
      exact .classEscape ..
    iterate 2
      split at h
      next =>
        cases h
        exact .assertion ..
    split at h
    next hp =>
      obtain ⟨p, -, heq⟩ := map_eq_ok.mp h
      cases heq
      exact .property _ (by simpa using (Bool.and_eq_true_iff.mp hp).1)
    split at h
    next => exact leaf_of_namedBackref h
    split at h
    next => exact leaf_of_decimalEscape h
    next => exact leaf_of_characterAtom h

theorem leaf_of_plainAtom {mode : Mode} {ch : Char} {r : Regex} {c d e : Cursor}
    (h : plainAtom mode ch c d = .ok (r, e)) : Leaf mode r := by
  unfold plainAtom at h
  dsimp only at h
  iterate 2
    split at h
    next =>
      cases h
      exact .assertion ..
  split at h
  next =>
    cases h
    exact .dot _
  split at h
  next =>
    obtain ⟨b, hb, heq⟩ := map_eq_ok.mp h
    cases heq
    exact .bracket hb
  split at h
  next => exact leaf_of_atomEscape h
  split at h
  next => cases h
  split at h
  next =>
    unfold braceAtom at h
    split at h <;> cases h
    exact .char ..
  split at h <;> cases h
  exact .char ..

theorem inOrder_of_countOf? {least : Nat} {most : Option Nat} {count : Count}
    (hle : ¬most.any (· < least)) (h : countOf? least most = some count) : count.InOrder := by
  unfold countOf? at h
  split at h
  next =>
    obtain ⟨w, -, rfl⟩ := Option.map_eq_some_iff.mp h
    trivial
  next most =>
    split at h
    next l m hl hm =>
      cases h
      have hl := word?_eq_some hl
      have hm := word?_eq_some hm
      simp only [Option.any_some, decide_eq_true_eq, Nat.not_lt] at hle
      show l ≤ m
      rw [UInt32.le_iff_toNat_le]
      omega
    next => cases h

theorem inOrder_of_count? {unicode : Bool} {c d : Cursor} {count : Count}
    (h : count? unicode c = .ok (some (count, d))) : count.InOrder := by
  unfold count? at h
  split at h
  case h_4 =>
    unfold braces? at h
    split at h
    next => simp at h
    next =>
      split at h
      next => split at h <;> simp [Cursor.fail] at h
      next =>
        split at h
        next => simp [Cursor.fail] at h
        next hle =>
          split at h
          next => simp [Cursor.fail] at h
          next hcount =>
            simp only [Except.ok.injEq, Option.some.injEq, Prod.mk.injEq] at h
            obtain ⟨rfl, -⟩ := h
            exact inOrder_of_countOf? hle hcount
  all_goals
    cases h
    trivial

/-- Behind an atom stands nothing, or a quantifier that may apply to it. -/
theorem repeated_eq_ok {unicode : Bool} {start : Nat} {r r' : Regex} {c d : Cursor}
    (h : repeated unicode start r c = .ok (r', d)) :
    (r' = r ∧ d = c) ∨ ∃ count greedy, r' = .repetition count greedy r (d.spanSince start) ∧
      mayRepeat unicode r ∧ count.InOrder := by
  unfold repeated at h
  split at h
  next => cases h
  next =>
    cases h
    exact .inl ⟨rfl, rfl⟩
  next count greedy e he =>
    split at h
    next hr =>
      cases h
      refine .inr ⟨count, greedy, rfl, hr, ?_⟩
      unfold quantifier? at he
      split at he
      next => simp at he
      next => simp at he
      next hcount =>
        simp only [Except.ok.injEq, Option.some.injEq, Prod.mk.injEq] at he
        obtain ⟨⟨rfl, -⟩, -⟩ := he
        exact inOrder_of_count? hcount
    next => cases h

end Grammar

end PatternBlocks
