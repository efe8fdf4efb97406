import PatternBlocks.Proofs.Braces
import PatternBlocks.Proofs.NamedReferences
import PatternBlocks.Proofs.Reread

/-! The text of a quantifier is read back as the quantifier, behind any atom that may repeat. -/
namespace PatternBlocks

/-- The piece of an atom with a quantifier behind it. -/
def Piece.repeated (q : Quantifier) (p : Piece) : Piece :=
  if q = .one then p else .block (p.toBlock.setQuant q)

/-- A block without a quantifier takes the one behind it. -/
theorem Piece.repeated_block {b : Block} (h : b.setQuant .one = b) (q : Quantifier) :
    (Piece.block b).repeated q = .block (b.setQuant q) := by
  unfold repeated
  split
  next hq => rw [hq, h]
  next => rfl

namespace Quantifier

/-- Bounds that are equal are read as a single number. -/
def asRead : Quantifier → Quantifier
  | .range least most greedy =>
    if most = least then .exactly least greedy else .range least most greedy
  | q => q

/-- The bounds are in the wrong order. -/
def Reversed : Quantifier → Prop
  | .range least most _ => most < least
  | _ => False

theorem InOrder.not_reversed {q : Quantifier} (h : q.InOrder) : ¬q.Reversed := by
  cases q with
  | range => exact UInt32.not_lt.mpr (UInt32.le_of_lt h)
  | _ => exact id

theorem InOrder.asRead_eq {q : Quantifier} (h : q.InOrder) : q.asRead = q := by
  cases q with
  | range => exact if_neg (UInt32.ne_of_lt h).symm
  | _ => rfl

theorem asRead_ne_one {q : Quantifier} (h : q ≠ .one) : q.asRead ≠ .one := by
  cases q with
  | range least most greedy =>
    rw [asRead]
    split <;> nofun
  | one => exact absurd rfl h
  | _ => nofun

/-- The braces with which a quantifier is written. -/
def braces? : Quantifier → Option Braces
  | .exactly n _ => some (.exactly (.ofWord n))
  | .atLeast n _ => some (.atLeast (.ofWord n))
  | .range least most _ => some (.between (.ofWord least) (.ofWord most))
  | _ => none

theorem countMark_of_braces? {q : Quantifier} {b : Braces} (h : q.braces? = some b) :
    q.countMark = b.render := by
  cases q <;> cases h <;>
    simp [countMark, Braces.render, Braces.least, Braces.upperText, Numeral.ofWord]

theorem fits_of_braces? {q : Quantifier} {b : Braces} (h : q.braces? = some b) : b.Fits := by
  have hword (n : UInt32) : (Numeral.ofWord n).value < UInt32.size :=
    Numeral.value_ofWord n ▸ n.toNat_lt
  cases q <;> cases h <;> simp [Braces.Fits, Braces.least, Braces.most?, hword]

/-- The reader sees the order of bounds that fit into a word. -/
theorem isReversed_of_braces? {q : Quantifier} {b : Braces} (h : q.braces? = some b) :
    b.isReversed ↔ q.Reversed := by
  have hmax (n : UInt32) : n.toNat < Cursor.maxDecimal := Nat.lt_trans n.toNat_lt (by decide)
  cases q <;> cases h <;>
    simp [Braces.isReversed, Braces.least, Braces.most?, Numeral.value_ofWord, hmax, Reversed,
      UInt32.lt_iff_toNat_lt]

theorem ofCount_of_braces? {q : Quantifier} {b : Braces} (h : q.braces? = some b) :
    ofCount q.isGreedy b.count = q.asRead := by
  cases q with
  | exactly | atLeast | range =>
    cases h
    simp [Braces.count, Braces.least, Braces.most?, Numeral.value_ofWord, ofCount, isGreedy, asRead]
  | one | zeroOrOne | oneOrMore | zeroOrMore => cases h

end Quantifier

namespace Grammar

variable {unicode : Bool}

/-- The characters with which a quantifier may begin. -/
def startsQuantifier (ch : Char) : Bool := ch = '*' || ch = '+' || ch = '?' || ch = '{'

theorem word?_toNat (n : UInt32) : word? n.toNat = some n := by
  rw [word?, if_pos n.toNat_lt, UInt32.ofNat_toNat]

theorem count?_render (b : Braces) (rest : List Char) (position : Nat) :
    count? unicode ⟨b.render ++ rest, position⟩ = braces? unicode ⟨b.render ++ rest, position⟩ :=
  rfl

/-- The suffix of a quantifier without the mark of laziness is read as its count. -/
theorem count?_countMark {q : Quantifier} (hq : q ≠ .one) (hreversed : ¬q.Reversed)
    (rest : List Char) (position : Nat) :
    ∃ count d, count? unicode ⟨q.countMark ++ rest, position⟩ = .ok (some (count, d)) ∧
      d.rest = rest ∧ Quantifier.ofCount q.isGreedy count = q.asRead := by
  cases hbraces : q.braces? with
  | some b =>
    have hrange : b.InRange := Braces.inRange_iff.mpr ⟨Quantifier.fits_of_braces? hbraces,
      mt (Quantifier.isReversed_of_braces? hbraces).mp hreversed⟩
    rw [Quantifier.countMark_of_braces? hbraces, count?_render]
    exact ⟨_, _, braces?_of_inRange hrange rest position, rfl,
      Quantifier.ofCount_of_braces? hbraces⟩
  | none =>
    cases q with
    | one => exact absurd rfl hq
    | zeroOrOne greedy => exact ⟨.zeroOrOne, _, rfl, rfl, rfl⟩
    | oneOrMore greedy => exact ⟨.oneOrMore, _, rfl, rfl, rfl⟩
    | zeroOrMore greedy => exact ⟨.zeroOrMore, _, rfl, rfl, rfl⟩
    | exactly | atLeast | range => cases hbraces

theorem greediness_mark (greedy : Bool) {rest : List Char}
    (hrest : BeginsWithout startsQuantifier rest) (position : Nat) :
    ∃ d, greediness ⟨(if greedy then [] else ['?']) ++ rest, position⟩ = (greedy, d) ∧
      d.rest = rest := by
  cases greedy with
  | false => exact ⟨_, rfl, rfl⟩
  | true =>
    have hhead : rest.head? ≠ some '?' := fun hmark => hrest '?' hmark (by decide)
    exact ⟨⟨rest, position⟩, by simp [greediness, Cursor.eat?_eq_none hhead], rfl⟩

theorem quantifier?_render {q : Quantifier} (hq : q ≠ .one) (hreversed : ¬q.Reversed)
    {rest : List Char} (hrest : BeginsWithout startsQuantifier rest) (position : Nat) :
    ∃ count d, quantifier? unicode ⟨q.render ++ rest, position⟩ =
      .ok (some ((count, q.isGreedy), d)) ∧ d.rest = rest ∧
      Quantifier.ofCount q.isGreedy count = q.asRead := by
  obtain ⟨count, ⟨drest, dposition⟩, hcount, hd, hof⟩ := count?_countMark hq hreversed
    ((if q.isGreedy then [] else ['?']) ++ rest) position
  dsimp only at hd
  subst hd
  obtain ⟨e, he, herest⟩ := greediness_mark q.isGreedy hrest dposition
  refine ⟨count, e, ?_, herest, hof⟩
  rw [Quantifier.render, List.append_assoc, quantifier?, hcount]
  simp only [he]

theorem quantifier?_eq_none {rest : List Char} (hrest : BeginsWithout startsQuantifier rest)
    (position : Nat) : quantifier? unicode ⟨rest, position⟩ = .ok none := by
  have hcount : count? unicode ⟨rest, position⟩ = .ok none := by
    cases rest with
    | nil => rfl
    | cons ch rest =>
      have hch := beginsWithout_cons.mp hrest
      simp only [startsQuantifier, Bool.or_eq_true, decide_eq_true_eq, not_or] at hch
      obtain ⟨⟨⟨hstar, hplus⟩, hmark⟩, hbrace⟩ := hch
      simp [count?, Cursor.next?, hstar, hplus, hmark, braces?, Cursor.eat?, hbrace]
  rw [quantifier?, hcount]

/-- An atom with the suffix of a quantifier behind it is read as the atom so quantified. -/
theorem repeated_render {q : Quantifier} (hreversed : ¬q.Reversed) {a : Regex} {p : Piece}
    (ha : a.piece = .ok p) (hmay : q = .one ∨ mayRepeat unicode a) {rest : List Char}
    (hrest : BeginsWithout startsQuantifier rest) (start position : Nat) :
    ∃ r d, repeated unicode start a ⟨q.render ++ rest, position⟩ = .ok (r, d) ∧ d.rest = rest ∧
      r.piece = .ok (p.repeated q.asRead) ∧ r.namedReferences = a.namedReferences := by
  by_cases hq : q = .one
  · subst hq
    refine ⟨a, ⟨rest, position⟩, ?_, rfl, ha, rfl⟩
    have hnone : quantifier? unicode ⟨Quantifier.one.render ++ rest, position⟩ = .ok none :=
      quantifier?_eq_none hrest position
    rw [repeated, hnone]
    rfl
  · obtain ⟨count, d, hread, hd, hof⟩ := quantifier?_render hq hreversed hrest position
    refine ⟨.repetition count q.isGreedy a (d.spanSince start), d, ?_, hd, ?_, ?_⟩
    · rw [repeated, hread]
      simp only [hmay.resolve_left hq, if_true]
    · simp [Regex.piece, ha, Except.map, hof, Piece.repeated, Quantifier.asRead_ne_one hq]
    · rw [Regex.namedReferences]

/-- Bounds out of range are an error behind any atom. -/
theorem repeated_of_not_inRange {b : Braces} (h : ¬b.InRange) (a : Regex) (start : Nat)
    (rest : List Char) (position : Nat) :
    repeated unicode start a ⟨b.render ++ rest, position⟩ =
      .error ⟨b.fault, ⟨position, position + utf8Length b.render⟩⟩ := by
  have hcount : count? unicode ⟨b.render ++ rest, position⟩ =
      .error ⟨b.fault, ⟨position, position + utf8Length b.render⟩⟩ :=
    braces?_of_not_inRange h rest position
  rw [repeated, quantifier?, hcount]

theorem repeated_of_reversed {q : Quantifier} (h : q.Reversed) (a : Regex) (start : Nat)
    (rest : List Char) (position : Nat) :
    ∃ span, repeated unicode start a ⟨q.render ++ rest, position⟩ =
      .error ⟨.quantifierOutOfOrder, span⟩ := by
  cases hbraces : q.braces? with
  | some b =>
    have hreversed := (Quantifier.isReversed_of_braces? hbraces).mpr h
    have hrange : ¬b.InRange := fun hrange => (Braces.inRange_iff.mp hrange).2 hreversed
    have hfault : b.fault = .quantifierOutOfOrder := if_pos hreversed
    rw [Quantifier.render, Quantifier.countMark_of_braces? hbraces, List.append_assoc, ← hfault]
    exact ⟨_, repeated_of_not_inRange hrange a start _ position⟩
  | none =>
    cases q with
    | range => cases hbraces
    | _ => exact h.elim

end Grammar

end PatternBlocks
