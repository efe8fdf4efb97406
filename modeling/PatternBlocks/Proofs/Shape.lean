import PatternBlocks.Proofs.Captures

/-!
The shape of the trees that are read: alternations hold alternatives, alternatives hold terms, and a
term is an atom, which is a leaf or in parentheses, with at most one quantifier.
-/
namespace PatternBlocks

namespace Regex

mutual

/-- The expression and the expressions inside it, each before its own parts. -/
def subtrees : Regex → List Regex
  | .group kind body span => .group kind body span :: body.subtrees
  | .look direction negated body span => .look direction negated body span :: body.subtrees
  | .repetition count greedy body span => .repetition count greedy body span :: body.subtrees
  | .concat terms span => .concat terms span :: subtreesOfAll terms
  | .alternation branches span => .alternation branches span :: subtreesOfAll branches
  | r => [r]

def subtreesOfAll : List Regex → List Regex
  | [] => []
  | r :: rs => r.subtrees ++ subtreesOfAll rs

end

/-- Whether an expression is put together from any number of others. -/
def isComposite : Regex → Bool
  | .empty _ | .group .. | .look .. | .repetition .. | .concat .. | .alternation .. => true
  | _ => false

theorem mem_subtrees_self (r : Regex) : r ∈ r.subtrees := by
  cases r <;> simp [subtrees]

theorem mem_subtreesOfAll {x : Regex} {rs : List Regex} :
    x ∈ subtreesOfAll rs ↔ ∃ r ∈ rs, x ∈ r.subtrees := by
  induction rs with
  | nil => simp [subtreesOfAll]
  | cons r rs ih => simp [subtreesOfAll, ih]

end Regex

namespace Grammar

variable {mode : Mode}

theorem subtrees_of_leaf {r : Regex} (h : Leaf mode r) : r.subtrees = [r] := by
  cases h <;> rfl

theorem subtrees_close (o : Opening) (r : Regex) (span : Span) :
    (o.close r span).subtrees = o.close r span :: r.subtrees := by
  cases o <;> simp [Opening.close, Regex.subtrees]

theorem isComposite_close (o : Opening) (r : Regex) (span : Span) :
    (o.close r span).isComposite := by
  cases o <;> rfl

/-- A sequence adds at most itself to the subtrees of its terms. -/
theorem mem_subtrees_sequence {rs : List Regex} {span : Span} {x : Regex}
    (h : x ∈ (sequence rs span).subtrees) :
    (x = sequence rs span ∧ x.isComposite) ∨ ∃ r ∈ rs, x ∈ r.subtrees := by
  match rs with
  | [] =>
    obtain rfl := List.mem_singleton.mp h
    exact .inl ⟨rfl, rfl⟩
  | [r] => exact .inr ⟨r, List.mem_singleton_self r, h⟩
  | _ :: _ :: _ =>
    rcases List.mem_cons.mp h with rfl | h
    · exact .inl ⟨rfl, rfl⟩
    · exact .inr (Regex.mem_subtreesOfAll.mp h)

theorem mem_subtrees_choice {rs : Regex × List Regex} {span : Span} {x : Regex}
    (h : x ∈ (choice rs span).subtrees) :
    (x = choice rs span ∧ x.isComposite) ∨ ∃ r ∈ rs.1 :: rs.2, x ∈ r.subtrees := by
  match rs with
  | (r, []) => exact .inr ⟨r, List.mem_singleton_self r, h⟩
  | (_, _ :: _) =>
    rcases List.mem_cons.mp h with rfl | h
    · exact .inl ⟨rfl, rfl⟩
    · exact .inr (Regex.mem_subtreesOfAll.mp h)

mutual

inductive IsAtom (mode : Mode) : Regex → Prop
  | leaf {r : Regex} (leaf : Leaf mode r) : IsAtom mode r
  | close {r : Regex} (o : Opening) (span : Span) (inside : IsDisjunction mode r) :
      IsAtom mode (o.close r span)

inductive IsTerm (mode : Mode) : Regex → Prop
  | once {r : Regex} (atom : IsAtom mode r) : IsTerm mode r
  | repeated {r : Regex} (count : Count) (greedy : Bool) (span : Span) (atom : IsAtom mode r)
      (may : mayRepeat mode.unicode r) (order : count.InOrder) :
      IsTerm mode (.repetition count greedy r span)

inductive IsAlternative (mode : Mode) : Regex → Prop
  | sequence {rs : List Regex} (span : Span) (terms : ∀ r ∈ rs, IsTerm mode r) :
      IsAlternative mode (sequence rs span)

inductive IsDisjunction (mode : Mode) : Regex → Prop
  | choice {rs : Regex × List Regex} (span : Span)
      (alternatives : ∀ r ∈ rs.1 :: rs.2, IsAlternative mode r) :
      IsDisjunction mode (choice rs span)

end

theorem isTerm_of_repeated {start : Nat} {a r : Regex} {c d : Cursor} (ha : IsAtom mode a)
    (h : repeated mode.unicode start a c = .ok (r, d)) : IsTerm mode r := by
  obtain ⟨rfl, -⟩ | ⟨count, greedy, rfl, may, order⟩ := repeated_eq_ok h
  · exact .once ha
  · exact .repeated count greedy _ ha may order

mutual

theorem ReadsTerm.isTerm {levels : Nat} {s t : State} {r : Regex} :
    ReadsTerm mode levels s r t → IsTerm mode r
  | .plain _ _ atom count => isTerm_of_repeated (.leaf (leaf_of_plainAtom atom)) count
  | .group _ _ inside _ count =>
    isTerm_of_repeated (.close _ _ (.choice _ inside.isAlternative)) count

theorem ReadsTerms.isTerm {levels : Nat} {s t : State} {rs : List Regex} :
    ReadsTerms mode levels s rs t → ∀ r ∈ rs, IsTerm mode r
  | .nil _ => nofun
  | .cons _ head tail => List.forall_mem_cons.mpr ⟨head.isTerm, tail.isTerm⟩

/-- What is read between two bars is a sequence of terms. -/
theorem ReadsAlternatives.isAlternative {levels : Nat} {s t : State} {rs : Regex × List Regex} :
    ReadsAlternatives mode levels s rs t → ∀ r ∈ rs.1 :: rs.2, IsAlternative mode r
  | .last terms _ => List.forall_mem_cons.mpr ⟨.sequence _ terms.isTerm, nofun⟩
  | .more terms _ tail =>
    List.forall_mem_cons.mpr ⟨.sequence _ terms.isTerm, tail.isAlternative⟩

end

mutual

theorem IsAtom.leaf_of_mem {r x : Regex} :
    IsAtom mode r → x ∈ r.subtrees → x.isComposite = false → Leaf mode x
  | .leaf leaf, hx, _ => by
    rw [subtrees_of_leaf leaf] at hx
    rwa [List.mem_singleton.mp hx]
  | .close o span inside, hx, hsimple => by
    rw [subtrees_close] at hx
    rcases List.mem_cons.mp hx with rfl | hx
    · simp [isComposite_close] at hsimple
    · exact inside.leaf_of_mem hx hsimple

theorem IsTerm.leaf_of_mem {r x : Regex} :
    IsTerm mode r → x ∈ r.subtrees → x.isComposite = false → Leaf mode x
  | .once atom, hx, hsimple => atom.leaf_of_mem hx hsimple
  | .repeated _ _ _ atom _ _, hx, hsimple => by
    rw [Regex.subtrees] at hx
    rcases List.mem_cons.mp hx with rfl | hx
    · cases hsimple
    · exact atom.leaf_of_mem hx hsimple

theorem IsAlternative.leaf_of_mem {r x : Regex} :
    IsAlternative mode r → x ∈ r.subtrees → x.isComposite = false → Leaf mode x
  | .sequence span terms, hx, hsimple => by
    rcases mem_subtrees_sequence hx with ⟨-, hcomposite⟩ | ⟨r, hr, hx⟩
    · simp [hcomposite] at hsimple
    · exact (terms r hr).leaf_of_mem hx hsimple

/-- Whatever is not put together from other expressions is a leaf. -/
theorem IsDisjunction.leaf_of_mem {r x : Regex} :
    IsDisjunction mode r → x ∈ r.subtrees → x.isComposite = false → Leaf mode x
  | .choice span alternatives, hx, hsimple => by
    rcases mem_subtrees_choice hx with ⟨-, hcomposite⟩ | ⟨r, hr, hx⟩
    · simp [hcomposite] at hsimple
    · exact (alternatives r hr).leaf_of_mem hx hsimple

end

end Grammar

theorem Pattern.isDisjunction_of_parse {unicode : Bool} {text : String} {p : Pattern}
    (h : Pattern.parse unicode text = .ok p) :
    Grammar.IsDisjunction ⟨unicode, .ofString text⟩ p.root := by
  obtain ⟨rs, t, hrs, -, hroot, -⟩ := Pattern.parse_eq_ok h
  rw [hroot]
  exact .choice _ hrs.isAlternative

end PatternBlocks
