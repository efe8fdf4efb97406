import PatternBlocks.Regex.Basic
import PatternBlocks.Text.Quoted

/-! Syntax trees written out on one line, with the name and the fields of every node. -/
namespace PatternBlocks

/-- A name with fields in braces. -/
def record (name : String) (fields : List (String × String)) : String :=
  let written := fields.map fun (field, value) => field ++ ": " ++ value
  name ++ " \x7b " ++ ", ".intercalate written ++ " \x7d"

/-- A node is tagged by the name of its record. -/
def nodeRecord (name : String) (fields : List (String × String)) : String :=
  name ++ "(" ++ record name fields ++ ")"

def describeChar (c : Char) : String := quoted '\x27' [c]

def describeString (s : String) : String := quoted '\x22' s.toList

def describeOption {α : Type} (describe : α → String) : Option α → String
  | none => "None"
  | some a => "Some(" ++ describe a ++ ")"

def describeList (items : List String) : String := "[" ++ ", ".intercalate items ++ "]"

def Span.describe (s : Span) : String :=
  record "Span" [("start", toString s.start), ("end", toString s.stop)]

def ClassEscape.describe : ClassEscape → String
  | .digit => "Digit"
  | .notDigit => "NotDigit"
  | .word => "Word"
  | .notWord => "NotWord"
  | .space => "Space"
  | .notSpace => "NotSpace"

def Property.describe (p : Property) : String :=
  nodeRecord "Property" [("negated", toString p.negated), ("name", describeString p.name),
    ("value", describeOption describeString p.value), ("span", p.span.describe)]

def ClassItem.describe : ClassItem → String
  | .char c => "Char(" ++ describeChar c ++ ")"
  | .range first last => "Range(" ++ describeChar first ++ ", " ++ describeChar last ++ ")"
  | .codeUnit n => s!"CodeUnit({n})"
  | .codeUnitRange first last => s!"CodeUnitRange({first}, {last})"
  | .escape kind => "Escape(" ++ kind.describe ++ ")"
  | .property p => p.describe

def Bracket.describe (b : Bracket) : String :=
  nodeRecord "Class" [("negated", toString b.negated),
    ("items", describeList (b.items.map ClassItem.describe)), ("raw", describeString b.raw),
    ("span", b.span.describe)]

def GroupKind.describe : GroupKind → String
  | .capturing index name =>
    record "Capturing" [("index", toString index), ("name", describeOption describeString name)]
  | .nonCapturing => "NonCapturing"

def Assertion.describe : Assertion → String
  | .start => "Start"
  | .stop => "End"
  | .wordBoundary => "WordBoundary"
  | .notWordBoundary => "NotWordBoundary"

def LookDirection.describe : LookDirection → String
  | .ahead => "Ahead"
  | .behind => "Behind"

def Reference.describe : Reference → String
  | .number n => s!"Index({n})"
  | .name s => "Name(" ++ describeString s ++ ")"

def Count.describe : Count → String
  | .zeroOrOne => "ZeroOrOne"
  | .zeroOrMore => "ZeroOrMore"
  | .oneOrMore => "OneOrMore"
  | .range least most =>
    record "Range" [("from", toString least), ("to", describeOption toString most)]

namespace Regex

mutual

def describe : Regex → String
  | .empty s => "Empty(" ++ s.describe ++ ")"
  | .char value escaped s =>
    nodeRecord "Char" [("value", describeChar value), ("escaped", toString escaped),
      ("span", s.describe)]
  | .dot s => "Dot(" ++ s.describe ++ ")"
  | .classEscape kind s => nodeRecord "ClassEscape" [("kind", kind.describe), ("span", s.describe)]
  | .property p => p.describe
  | .bracket b => b.describe
  | .group kind body s =>
    nodeRecord "Group" [("kind", kind.describe), ("ast", body.describe), ("span", s.describe)]
  | .assertion kind s => nodeRecord "Assertion" [("kind", kind.describe), ("span", s.describe)]
  | .look direction negated body s =>
    nodeRecord "LookAround" [("direction", direction.describe), ("negated", toString negated),
      ("ast", body.describe), ("span", s.describe)]
  | .backref target s => nodeRecord "Backref" [("target", target.describe), ("span", s.describe)]
  | .repetition count greedy body s =>
    nodeRecord "Repetition" [("kind", count.describe), ("greedy", toString greedy),
      ("ast", body.describe), ("span", s.describe)]
  | .concat terms s =>
    nodeRecord "Concat" [("asts", describeList (describeAll terms)), ("span", s.describe)]
  | .alternation branches s =>
    nodeRecord "Alternation" [("asts", describeList (describeAll branches)), ("span", s.describe)]

def describeAll : List Regex → List String
  | [] => []
  | r :: rs => r.describe :: describeAll rs

end

end Regex

end PatternBlocks
