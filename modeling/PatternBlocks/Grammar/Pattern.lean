import PatternBlocks.Grammar.Disjunction

/-!
Patterns as syntax trees, by the grammar of ECMAScript. Outside unicode mode the leniencies of its
Annex B apply.
-/
namespace PatternBlocks

/-- How deep groups and lookarounds may nest. -/
def nestingLimit : Nat := 128

/-- Reads a pattern to its end. References by name are checked last, because they may come before
the group that they name. -/
def Pattern.parse (unicode : Bool) (text : String) : Except SyntaxError Pattern :=
  let mode : Grammar.Mode := ⟨unicode, .ofString text⟩
  match (Grammar.bodyReader mode nestingLimit).read { cursor := .ofString text } with
  | .error e => .error e
  | .ok (root, s) =>
    if s.cursor.atEnd then
      match s.references.find? (!s.groups.hasName ·.1) with
      | some (name, span) => .error ⟨.undefinedGroupName name, span⟩
      | none => .ok ⟨root, s.groups.size, s.groups.names⟩
    else s.cursor.fail .unmatchedParenthesis s.cursor.position

end PatternBlocks
