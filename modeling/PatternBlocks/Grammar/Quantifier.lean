import PatternBlocks.Cursor.Reach
import PatternBlocks.Regex.Basic
import PatternBlocks.Regex.SyntaxError

/-!
Quantifiers after an atom. Outside unicode mode a brace that opens no counted quantifier is a
literal, so nothing is read there.
-/
namespace PatternBlocks.Grammar

/-- Without a comma both bounds are the same; after one the upper bound may be missing. -/
def upperBound (least : Nat) (c : Cursor) : Option Nat × Cursor :=
  match c.eat? ',' with
  | none => (some least, c)
  | some d =>
    match d.decimal? with
    | none => (none, d)
    | some (most, e) => (some most, e)

/-- Reads `n}`, `n,}` or `n,m}`. A reading that fails stops where it got stuck. -/
def bounds (c : Cursor) : Option (Nat × Option Nat) × Cursor :=
  match c.decimal? with
  | none => (none, c)
  | some (least, d) =>
    let upper := upperBound least d
    match upper.2.eat? '}' with
    | none => (none, upper.2)
    | some e => (some (least, upper.1), e)

def word? (n : Nat) : Option UInt32 := if n < UInt32.size then some (UInt32.ofNat n) else none

def countOf? (least : Nat) (most : Option Nat) : Option Count :=
  match most with
  | none => (word? least).map (.range · none)
  | some most =>
    match word? least, word? most with
    | some least, some most => some (.range least (some most))
    | _, _ => none

/-- Reads a counted quantifier from its opening brace on. -/
def braces? (unicode : Bool) (c : Cursor) : Except SyntaxError (Option (Count × Cursor)) :=
  match c.eat? '{' with
  | none => .ok none
  | some d =>
    match bounds d with
    | (none, e) => if unicode then e.fail .loneQuantifierBrackets c.position else .ok none
    | (some (least, most), e) =>
      if most.any (· < least) then e.fail .quantifierOutOfOrder c.position
      else
        match countOf? least most with
        | none => e.fail .quantifierTooLarge c.position
        | some count => .ok (some (count, e))

/-- A question mark after the count makes a quantifier lazy. -/
def greediness (c : Cursor) : Bool × Cursor :=
  match c.eat? '?' with
  | none => (true, c)
  | some d => (false, d)

def count? (unicode : Bool) (c : Cursor) : Except SyntaxError (Option (Count × Cursor)) :=
  match c.next? with
  | some ('*', d) => .ok (some (.zeroOrMore, d))
  | some ('+', d) => .ok (some (.oneOrMore, d))
  | some ('?', d) => .ok (some (.zeroOrOne, d))
  | _ => braces? unicode c

def quantifier? (unicode : Bool) (c : Cursor) :
    Except SyntaxError (Option ((Count × Bool) × Cursor)) :=
  match count? unicode c with
  | .error e => .error e
  | .ok none => .ok none
  | .ok (some (count, d)) =>
    let (greedy, e) := greediness d
    .ok (some ((count, greedy), e))

theorem reaches_upperBound (least : Nat) (c : Cursor) : c.Reaches (upperBound least c).2 := by
  unfold upperBound
  split
  next => exact .refl _
  next hd =>
    have hcd := (Cursor.advances_of_eat? hd).reaches
    split
    next => exact hcd
    next he => exact hcd.trans (Cursor.advances_of_decimal? he).reaches

theorem reaches_bounds (c : Cursor) : c.Reaches (bounds c).2 := by
  unfold bounds
  split
  next => exact .refl _
  next least d hd =>
    have hcu := (Cursor.advances_of_decimal? hd).reaches.trans (reaches_upperBound least d)
    dsimp only
    split
    next => exact hcu
    next he => exact hcu.trans (Cursor.advances_of_eat? he).reaches

theorem advances_of_braces? {unicode : Bool} {c d : Cursor} {count : Count}
    (h : braces? unicode c = .ok (some (count, d))) : c.Advances d := by
  unfold braces? at h
  split at h
  next => simp at h
  next e he =>
    have hce := Cursor.advances_of_eat? he
    have hb := reaches_bounds e
    split at h
    next hf => split at h <;> simp [Cursor.fail] at h
    next least most f hf =>
      rw [hf] at hb
      split at h
      next => simp [Cursor.fail] at h
      next =>
        split at h
        next => simp [Cursor.fail] at h
        next =>
          simp only [Except.ok.injEq, Option.some.injEq, Prod.mk.injEq] at h
          obtain ⟨-, rfl⟩ := h
          exact hce.trans_reaches hb

theorem advances_of_count? {unicode : Bool} {c d : Cursor} {count : Count}
    (h : count? unicode c = .ok (some (count, d))) : c.Advances d := by
  unfold count? at h
  split at h
  case h_4 => exact advances_of_braces? h
  all_goals
    cases h
    exact Cursor.advances_of_next? (by assumption)

theorem reaches_greediness (c : Cursor) : c.Reaches (greediness c).2 := by
  unfold greediness
  split
  next => exact .refl _
  next hd => exact (Cursor.advances_of_eat? hd).reaches

theorem advances_of_quantifier? {unicode : Bool} {c d : Cursor} {quantifier : Count × Bool}
    (h : quantifier? unicode c = .ok (some (quantifier, d))) : c.Advances d := by
  unfold quantifier? at h
  split at h
  next => simp at h
  next => simp at h
  next count e he =>
    simp only [Except.ok.injEq, Option.some.injEq, Prod.mk.injEq] at h
    obtain ⟨-, rfl⟩ := h
    exact (advances_of_count? he).trans_reaches (reaches_greediness e)

end PatternBlocks.Grammar
