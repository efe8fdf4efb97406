import PatternBlocks.Proofs.Derivation
import PatternBlocks.Proofs.Leaf

/-!
The references by name of a syntax tree. A reading notes exactly those of the tree that it returns,
in their order, so that none is missed when they are checked at the end.
-/
namespace PatternBlocks

namespace Regex

mutual

/-- The references by name with their spans, from left to right. -/
def namedReferences : Regex → List (String × Span)
  | .backref (.name name) span => [(name, span)]
  | .group _ body _ | .look _ _ body _ | .repetition _ _ body _ => body.namedReferences
  | .concat terms _ => namedReferencesOfAll terms
  | .alternation branches _ => namedReferencesOfAll branches
  | _ => []

def namedReferencesOfAll : List Regex → List (String × Span)
  | [] => []
  | r :: rs => r.namedReferences ++ namedReferencesOfAll rs

end

end Regex

namespace Grammar

variable {mode : Mode}

/-! ### The references of what is put together -/

theorem namedReferences_of_leaf {r : Regex} (h : Leaf mode r) :
    r.namedReferences = r.reference?.toList := by
  cases h <;> rfl

theorem namedReferences_close (o : Opening) (r : Regex) (span : Span) :
    (o.close r span).namedReferences = r.namedReferences := by
  cases o <;> simp [Opening.close, Regex.namedReferences]

theorem namedReferences_of_repeated {unicode : Bool} {start : Nat} {a r : Regex} {c d : Cursor}
    (h : repeated unicode start a c = .ok (r, d)) : r.namedReferences = a.namedReferences := by
  obtain ⟨rfl, -⟩ | ⟨count, greedy, rfl, -⟩ := repeated_eq_ok h <;> rfl

theorem namedReferences_sequence (rs : List Regex) (span : Span) :
    (sequence rs span).namedReferences = Regex.namedReferencesOfAll rs := by
  match rs with
  | [] => rfl
  | [r] => simp [sequence, Regex.namedReferencesOfAll]
  | _ :: _ :: _ => rfl

theorem namedReferences_choice (rs : Regex × List Regex) (span : Span) :
    (choice rs span).namedReferences = Regex.namedReferencesOfAll (rs.1 :: rs.2) := by
  match rs with
  | (r, []) => simp [choice, Regex.namedReferencesOfAll]
  | (_, _ :: _) => rfl

/-! ### The references that are noted -/

theorem references_of_capture {name : Option String} {start : Nat} {s t : State} {o : Opening}
    (h : capture name start s = .ok (o, t)) : t.references = s.references := by
  unfold capture at h
  split at h <;> cases h
  rfl

/-- Nothing is referred to between the parenthesis of a group and its body. -/
theorem references_of_opening {start : Nat} {s t : State} {o : Opening}
    (h : opening start s = .ok (o, t)) : t.references = s.references := by
  cases readsOpening_of_opening h with
  | plain _ numbered => exact references_of_capture numbered
  | marked => rfl
  | named _ _ _ _ _ numbered =>
    have hcapture := references_of_capture numbered
    exact hcapture

mutual

/-- What is noted while a term is read are the references of its tree. -/
theorem ReadsTerm.references_eq {levels : Nat} {s t : State} {r : Regex} :
    ReadsTerm mode levels s r t → t.references = s.references ++ r.namedReferences
  | .plain _ _ atom count => by
    rw [namedReferences_of_repeated count, namedReferences_of_leaf (leaf_of_plainAtom atom)]
    rfl
  | .group _ opened inside _ count => by
    rw [namedReferences_of_repeated count, namedReferences_close, namedReferences_choice]
    exact inside.references_eq.trans (by rw [references_of_opening opened])

theorem ReadsTerms.references_eq {levels : Nat} {s t : State} {rs : List Regex} :
    ReadsTerms mode levels s rs t →
      t.references = s.references ++ Regex.namedReferencesOfAll rs
  | .nil _ => (List.append_nil _).symm
  | .cons _ head tail => by
    rw [tail.references_eq, head.references_eq, Regex.namedReferencesOfAll, List.append_assoc]

theorem ReadsAlternatives.references_eq {levels : Nat} {s t : State} {rs : Regex × List Regex} :
    ReadsAlternatives mode levels s rs t →
      t.references = s.references ++ Regex.namedReferencesOfAll (rs.1 :: rs.2)
  | .last terms _ => by
    simpa [Regex.namedReferencesOfAll, namedReferences_sequence] using terms.references_eq
  | .more terms _ tail => by
    rw [tail.references_eq, terms.references_eq, List.append_assoc, ← namedReferences_sequence]
    rfl

end

/-- The references that are noted while a body is read are those of its tree, from left to right. -/
theorem references_of_read {levels : Nat} {s t : State} {r : Regex}
    (h : (bodyReader mode levels).read s = .ok (r, t)) :
    t.references = s.references ++ r.namedReferences := by
  obtain ⟨rs, hrs, rfl⟩ := read_eq_ok_iff.mp h
  rw [namedReferences_choice]
  exact hrs.references_eq

end Grammar

end PatternBlocks
