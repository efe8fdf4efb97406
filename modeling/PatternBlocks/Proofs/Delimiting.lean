import PatternBlocks.Proofs.HandBuilt
import PatternBlocks.Proofs.Justification
import PatternBlocks.Proofs.Placement

/-!
Where a class ends. However long the escapes are that its members are read from, a scan that knows
backslashes only finds the same closing bracket, and the text up to there is the class wherever it
stands.
-/
namespace PatternBlocks

/-! ### The closing bracket -/

/-- What stands before and behind the first closing bracket, where a backslash and the character
behind it are passed together. -/
def closing? : List Char → Option (List Char × List Char)
  | [] => none
  | ']' :: rest => some ([], rest)
  | '\\' :: ch :: rest => (closing? rest).map fun p => ('\\' :: ch :: p.1, p.2)
  | ch :: rest => (closing? rest).map fun p => (ch :: p.1, p.2)

/-- Takes a text apart that begins with a class: whether there is a hat, what is between the
brackets, and what stands behind them. -/
def bracketParts? : List Char → Option (Bool × List Char × List Char)
  | '[' :: '^' :: text => (closing? text).map fun p => (true, p)
  | '[' :: text => (closing? text).map fun p => (false, p)
  | _ => none

theorem bracketParts?_of_head?_ne {text : List Char} (h : text.head? ≠ some '^') :
    bracketParts? ('[' :: text) = (closing? text).map fun p => (false, p) := by
  rw [bracketParts?]
  rintro rest rfl
  exact h rfl

/-- The scan for the closing bracket passes over `w` if `behind` follows. -/
def Passed (w behind : List Char) : Prop :=
  closing? (w ++ behind) = (closing? behind).map fun p => (w ++ p.1, p.2)

section

variable {v w behind : List Char} {ch : Char}

theorem Passed.nil (behind : List Char) : Passed [] behind := by
  simp [Passed]

theorem Passed.append (h : Passed v (w ++ behind)) (k : Passed w behind) :
    Passed (v ++ w) behind := by
  unfold Passed at h k ⊢
  rw [List.append_assoc, h, k, Option.map_map]
  simp only [Function.comp_def, List.append_assoc]

theorem passed_pair (ch : Char) (behind : List Char) : Passed ['\\', ch] behind := rfl

theorem passed_single (hclose : ch ≠ ']') (hescape : ch ≠ '\\') : Passed [ch] behind := by
  unfold Passed
  rw [List.singleton_append, closing?]
  · rfl
  · exact hclose
  · rintro _ _ rfl
    exact absurd rfl hescape

/-- Characters of a kind to which neither the bracket nor the backslash belongs. -/
theorem passed_of_forall {p : Char → Bool} (hp : (p ']' || p '\\') = false)
    (h : ∀ ch ∈ w, p ch) : Passed w behind := by
  induction w with
  | nil => exact .nil behind
  | cons ch w ih =>
    obtain ⟨hch, hw⟩ := List.forall_mem_cons.mp h
    obtain ⟨hclose, hescape⟩ := Bool.or_eq_false_iff.mp hp
    have hsingle : Passed [ch] (w ++ behind) := by
      apply passed_single
      · rintro rfl
        rw [hch] at hclose
        cases hclose
      · rintro rfl
        rw [hch] at hescape
        cases hescape
    exact hsingle.append (ih hw)

theorem passed_escape (ch : Char) (h : Passed w behind) : Passed ('\\' :: ch :: w) behind :=
  (passed_pair ch (w ++ behind)).append h

end

namespace Grammar

open Cursor

/-! ### Members -/

theorem ClassAtomText.passed {behind t : List Char} {a : ClassAtom}
    (h : ClassAtomText behind t a) (hopen : t.head? ≠ some ']') : Passed t behind := by
  cases h with
  | plain hch =>
    apply passed_single _ hch
    rintro rfl
    exact hopen rfl
  | backslash hc =>
    -- The scan takes the letter behind the backslash too, which it passes anyway.
    obtain ⟨rest, rfl⟩ := List.head?_eq_some_iff.mp hc
    have hletter : Passed ['c'] rest := passed_single (by decide) (by decide)
    unfold Passed at hletter ⊢
    rw [List.singleton_append] at hletter
    rw [hletter, Option.map_map]
    rfl
  | classEscape => exact passed_pair _ _
  | escaped => exact passed_pair _ _
  | @control letter hletter =>
    have hword : isPropertyCharacter letter := by
      rcases hletter with halphanum | rfl
      · simp [isPropertyCharacter, halphanum]
      · rfl
    exact passed_escape 'c' (passed_of_forall (by decide) (List.forall_mem_singleton.mpr hword))
  | coded _ code =>
    exact passed_escape _ (passed_of_forall (by decide) (List.forall_mem_cons.mp code).2)
  | @pair v w _ high low =>
    have hlow : Passed ('\\' :: 'u' :: w) behind :=
      passed_escape 'u' (passed_of_forall (by decide) low)
    exact (passed_escape 'u' (passed_of_forall (by decide) high)).append hlow
  | @property first w p _ name =>
    have hclose : Passed ['}'] behind := passed_single (by decide) (by decide)
    have hname : Passed (w ++ ['}']) behind := (passed_of_forall (by decide) name).append hclose
    have hopened : Passed ['{'] (w ++ ['}'] ++ behind) := passed_single (by decide) (by decide)
    exact passed_escape first (hopened.append hname)

/-- The scan for the closing bracket gets from one cursor to the other. -/
def PassedTo (c d : Cursor) : Prop := ∃ w, c.Passes w d ∧ Passed w d.rest

section

variable {unicode : Bool} {opening : Nat} {c d e : Cursor}

theorem PassedTo.trans (h : PassedTo c d) (k : PassedTo d e) : PassedTo c e := by
  obtain ⟨v, hv, hvPassed⟩ := h
  obtain ⟨w, hw, hwPassed⟩ := k
  rw [hw.1] at hvPassed
  exact ⟨v ++ w, hv.trans hw, hvPassed.append hwPassed⟩

theorem passedTo_of_classAtom {a : ClassAtom} (hopen : c.peek? ≠ some ']')
    (h : classAtom unicode opening c = .ok (a, d)) : PassedTo c d := by
  obtain ⟨t, ht, htext⟩ := classAtomText_of_classAtom h
  refine ⟨t, ht, htext.passed ?_⟩
  intro hhead
  apply hopen
  rw [peek?, ht.1, List.head?_append, hhead]
  rfl

theorem passedTo_of_rangeHyphen? (h : rangeHyphen? c = some d) :
    PassedTo c d ∧ d.peek? ≠ some ']' := by
  unfold rangeHyphen? at h
  split at h
  next => cases h
  next hhyphen =>
    split at h <;> cases h
    next hmore =>
      refine ⟨⟨['-'], passes_of_eat? hhyphen, passed_single (by decide) (by decide)⟩, ?_⟩
      intro hpeek
      rw [hpeek] at hmore
      exact hmore rfl

theorem passedTo_of_classMember {items : List ClassItem} (hopen : c.peek? ≠ some ']')
    (h : classMember unicode opening c = .ok (items, d)) : PassedTo c d := by
  unfold classMember at h
  split at h
  next => cases h
  next low e hlow =>
    have hce := passedTo_of_classAtom hopen hlow
    split at h
    next =>
      cases h
      exact hce
    next f hhyphen =>
      obtain ⟨hef, hmore⟩ := passedTo_of_rangeHyphen? hhyphen
      split at h
      next => cases h
      next high g hhigh =>
        cases eq_of_joinAtoms h
        exact hce.trans (hef.trans (passedTo_of_classAtom hmore hhigh))

/-- The members of a class have no closing bracket that the scan would stop at. -/
theorem passedTo_of_classMembers {items : List ClassItem}
    (h : classMembers unicode opening c = .ok (items, d)) : PassedTo c d := by
  fun_induction classMembers unicode opening c generalizing items with
  | case1 => cases h
  | case2 =>
    cases h
    exact ⟨[], .refl _, .nil _⟩
  | case3 => cases h
  | case4 => cases h
  | case5 c ch hne hpeek first e hfirst more f hmore ih =>
    cases h
    have hopen : c.peek? ≠ some ']' := by
      rw [hpeek]
      exact fun heq => hne (Option.some.inj heq)
    exact (passedTo_of_classMember hopen hfirst).trans (ih hmore)

end

/-! ### Classes -/

variable {unicode : Bool} {opening : Nat} {c d : Cursor} {b : Bracket}

theorem head?_ne_of_eat? {ch : Char} (h : c.eat? ch = none) : c.rest.head? ≠ some ch := by
  obtain ⟨rest, position⟩ := c
  cases rest with
  | nil => nofun
  | cons x rest =>
    rintro ⟨⟩
    rw [eat?, if_pos rfl] at h
    cases h

/-- A class is what the scan finds between the brackets. -/
theorem bracketParts?_of_bracketBody (h : bracketBody unicode opening c = .ok (b, d)) :
    '[' :: c.rest = b.source ++ d.rest ∧
      bracketParts? ('[' :: c.rest) = some (b.negated, b.raw.toList, d.rest) := by
  obtain ⟨items, e, hmembers, hnext, rfl⟩ := bracketBody_eq_ok h
  obtain ⟨w, hw, hpassed⟩ := passedTo_of_classMembers hmembers
  have he : e.rest = ']' :: d.rest := (passes_of_next? hnext).1
  have hclosing : closing? (negation c).2.rest = some (w, d.rest) := by
    rw [hw.1, hpassed, he]
    simp [closing?]
  have hmark := (passes_negation c).1
  dsimp only
  rw [hw.textTo_eq, String.toList_ofList]
  constructor
  · rw [hmark, hw.1, he]
    simp [Bracket.source]
  · cases hhat : c.eat? '^' with
    | none =>
      simp only [negation, hhat] at hclosing ⊢
      rw [bracketParts?_of_head?_ne (head?_ne_of_eat? hhat), hclosing]
      rfl
    | some f =>
      simp only [negation, hhat] at hclosing ⊢
      have hrest : c.rest = '^' :: f.rest := (passes_of_eat? hhat).1
      rw [hrest, bracketParts?, hclosing]
      rfl

theorem eq_of_ofBracket {b b' : Bracket} (h : Block.ofBracket b = Block.ofBracket b') :
    b.negated = b'.negated ∧ b.raw = b'.raw := by
  have hclass := (Block.charClass.inj h).1
  exact ⟨congrArg CharClass.negate hclass, Option.some.inj (congrArg CharClass.raw hclass)⟩

/-- The text of a class that was read is the same class before any other text. -/
theorem bracketBody_of_source (h : bracketBody unicode opening c = .ok (b, d))
    (opening' position : Nat) (rest : List Char) :
    ∃ inside b' d', b.source = '[' :: inside ++ [']'] ∧
      bracketBody unicode opening' ⟨inside ++ ']' :: rest, position⟩ = .ok (b', d') ∧
      d'.rest = rest ∧ b'.negated = b.negated ∧ b'.raw = b.raw ∧ SameItems b'.items b.items := by
  obtain ⟨inside, hrest, -, hblock⟩ := isInside_of_bracketBody h
  have hsource : b.source = '[' :: inside ++ [']'] := by
    have htext : '[' :: inside ++ [']'] ++ d.rest = b.source ++ d.rest := by
      rw [← (bracketParts?_of_bracketBody h).1, hrest, List.append_assoc]
      rfl
    exact (List.append_cancel_right htext).symm
  have hcursor : c = ⟨inside ++ ']' :: d.rest, c.position⟩ := by rw [← hrest]
  rw [hcursor] at h
  obtain ⟨b', d', hread, hd', hblock', hitems⟩ :=
    bracketBody_elsewhere h rfl opening' position rest
  obtain ⟨hnegated, hraw⟩ := eq_of_ofBracket (hblock'.trans hblock.symm)
  exact ⟨inside, b', d', hsource, hread, hd', hnegated, hraw, hitems.symm⟩

theorem bracketParts?_source (h : bracketBody unicode opening c = .ok (b, d)) (rest : List Char) :
    bracketParts? (b.source ++ rest) = some (b.negated, b.raw.toList, rest) := by
  obtain ⟨inside, b', d', hsource, hread, rfl, hnegated, hraw, -⟩ :=
    bracketBody_of_source h 0 0 rest
  have hparts := (bracketParts?_of_bracketBody hread).2
  rw [hnegated, hraw] at hparts
  rw [hsource, List.append_assoc]
  exact hparts

example : bracketParts? "[^\\]\\p{L}[]]".toList = some (true, "\\]\\p{L}[".toList, [']']) := by
  decide

end Grammar

namespace Pattern

variable {unicode : Bool} {text : String} {p : Pattern} {b : Bracket}

/-- A class in a pattern that is accepted is a pattern by itself: the same class, but for where its
properties stand. In the text it ends at the bracket that the scan finds. -/
theorem bracket_delimited (h : Pattern.parse unicode text = .ok p)
    (hb : .bracket b ∈ p.root.subtrees) :
    (∃ b', Pattern.parse unicode (String.ofList b.source) = .ok ⟨.bracket b', 0, []⟩ ∧
      b'.negated = b.negated ∧ b'.raw = b.raw ∧ SameItems b'.items b.items) ∧
    ∃ before behind, text.toList = before ++ b.source ++ behind ∧
      b.span = ⟨utf8Length before, utf8Length (before ++ b.source)⟩ ∧
      bracketParts? (b.source ++ behind) = some (b.negated, b.raw.toList, behind) := by
  cases (Pattern.isDisjunction_of_parse h).leaf_of_mem hb rfl with
  | bracket body =>
    constructor
    · obtain ⟨inside, b', ⟨rest, position⟩, hsource, hread, rfl, hsame⟩ :=
        Grammar.bracketBody_of_source body 0 (0 + '['.utf8Size) []
      refine ⟨b', ?_, hsame⟩
      rw [hsource]
      exact Pattern.parse_of_bracketBody hread
    · obtain ⟨hspells, -⟩ := (Pattern.wellPlaced_of_parse h _ hb).laidOut
      obtain ⟨before, behind, htext, hstart, hstop⟩ := hspells
      refine ⟨before, behind, htext, ?_, Grammar.bracketParts?_source body behind⟩
      rw [← hstart, ← hstop]

/-- A control escape without its letter, a range from an escaped bracket to a lone surrogate, and a
second opening bracket, before a closing bracket that is none. -/
theorem bracket_delimited_escapes :
    ∃ text p b, text = "é[\\c\\]-\\uD83D[]a]" ∧ Pattern.parse false text = .ok p ∧
      .bracket b ∈ p.root.subtrees ∧ b.items.length = 4 ∧
      (∃ b', Pattern.parse false (String.ofList b.source) = .ok ⟨.bracket b', 0, []⟩ ∧
        b'.negated = b.negated ∧ b'.raw = b.raw ∧ SameItems b'.items b.items) ∧
      ∃ before behind, text.toList = before ++ b.source ++ behind ∧
        b.span = ⟨utf8Length before, utf8Length (before ++ b.source)⟩ ∧
        bracketParts? (b.source ++ behind) = some (b.negated, b.raw.toList, behind) := by
  have hcheck : Bracket.anyIn false "é[\\c\\]-\\uD83D[]a]" fun b => b.items.length = 4 := by
    decide +kernel
  obtain ⟨p, b, hp, hb, hlength⟩ := Bracket.exists_of_anyIn hcheck
  exact ⟨_, p, b, rfl, hp, hb, of_decide_eq_true hlength, bracket_delimited hp hb⟩

end Pattern

end PatternBlocks
