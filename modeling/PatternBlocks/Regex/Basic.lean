import PatternBlocks.LookDirection
import PatternBlocks.Span

/-! Syntax trees of ECMAScript regular expressions. Every node has the span of its text. -/
namespace PatternBlocks

/-- The escapes `\d`, `\w` and `\s` and their complements. -/
inductive ClassEscape where
  | digit
  | notDigit
  | word
  | notWord
  | space
  | notSpace
  deriving DecidableEq, Repr

def ClassEscape.ofLetter? : Char → Option ClassEscape
  | 'd' => some .digit
  | 'D' => some .notDigit
  | 'w' => some .word
  | 'W' => some .notWord
  | 's' => some .space
  | 'S' => some .notSpace
  | _ => none

/-- A property escape such as `\p{Script=Greek}`. -/
structure Property where
  negated : Bool
  name : String
  value : Option String
  span : Span
  deriving DecidableEq, Repr

/-- A member of a bracket expression. Code units are lone surrogates. -/
inductive ClassItem where
  | char (value : Char)
  | range (first last : Char)
  | codeUnit (value : Nat)
  | codeUnitRange (first last : Nat)
  | escape (kind : ClassEscape)
  | property (property : Property)
  deriving DecidableEq, Repr

structure Bracket where
  negated : Bool
  items : List ClassItem
  /-- The text between the brackets, after any `^`. -/
  raw : String
  span : Span
  deriving DecidableEq, Repr

inductive GroupKind where
  | capturing (index : Nat) (name : Option String)
  | nonCapturing
  deriving DecidableEq, Repr

inductive Assertion where
  | start
  | stop
  | wordBoundary
  | notWordBoundary
  deriving DecidableEq, Repr

inductive Reference where
  | number (n : UInt32)
  | name (name : String)
  deriving DecidableEq, Repr

inductive Count where
  | zeroOrOne
  | zeroOrMore
  | oneOrMore
  | range (least : UInt32) (most : Option UInt32)
  deriving DecidableEq, Repr

inductive Regex where
  | empty (span : Span)
  | char (value : Char) (escaped : Bool) (span : Span)
  | dot (span : Span)
  | classEscape (kind : ClassEscape) (span : Span)
  | property (property : Property)
  | bracket (bracket : Bracket)
  | group (kind : GroupKind) (body : Regex) (span : Span)
  | assertion (kind : Assertion) (span : Span)
  | look (direction : LookDirection) (negated : Bool) (body : Regex) (span : Span)
  | backref (target : Reference) (span : Span)
  | repetition (count : Count) (greedy : Bool) (body : Regex) (span : Span)
  | concat (terms : List Regex) (span : Span)
  | alternation (branches : List Regex) (span : Span)

/-- A whole pattern. -/
structure Pattern where
  root : Regex
  captures : Nat
  /-- Names of the named groups in order of appearance. -/
  names : List String

namespace Regex

def span : Regex → Span
  | .empty s | .char _ _ s | .dot s | .classEscape _ s | .group _ _ s | .assertion _ s
  | .look _ _ _ s | .backref _ s | .repetition _ _ _ s | .concat _ s | .alternation _ s => s
  | .property p => p.span
  | .bracket b => b.span

def isChar : Regex → Bool
  | .char .. => true
  | _ => false

/-- The name that a reference by name refers to, and where the reference stands. -/
def reference? : Regex → Option (String × Span)
  | .backref (.name name) span => some (name, span)
  | _ => none

end Regex

end PatternBlocks
