import PatternBlocks.Cursor.Basic

/-! Why a pattern is rejected and where. The messages are those of ECMAScript engines. -/
namespace PatternBlocks

inductive SyntaxError.Cause where
  | nothingToRepeat
  | unterminatedGroup
  | unmatchedParenthesis
  | loneQuantifierBrackets
  | unterminatedClass
  | rangeOutOfOrder
  | quantifierOutOfOrder
  | quantifierTooLarge
  | trailingBackslash
  | invalidEscape
  | invalidDecimalEscape
  | invalidClassEscape
  | invalidUnicodeEscape
  | loneSurrogate
  | nestingTooDeep
  | invalidPropertyName
  | invalidGroup
  | invalidGroupName
  | duplicateGroupName (name : String)
  | undefinedGroupName (name : String)
  | invalidNamedReference
  deriving DecidableEq, Repr

structure SyntaxError where
  cause : SyntaxError.Cause
  span : Span
  deriving DecidableEq, Repr

namespace SyntaxError

def Cause.message : Cause → String
  | .nothingToRepeat => "Nothing to repeat"
  | .unterminatedGroup => "Unterminated group"
  | .unmatchedParenthesis => "Unmatched ')'"
  | .loneQuantifierBrackets => "Lone quantifier brackets"
  | .unterminatedClass => "Unterminated character class"
  | .rangeOutOfOrder => "Range out of order in character class"
  | .quantifierOutOfOrder => "numbers out of order in \x7b\x7d quantifier"
  | .quantifierTooLarge => "Quantifier bound too large"
  | .trailingBackslash => "\\ at end of pattern"
  | .invalidEscape => "Invalid escape"
  | .invalidDecimalEscape => "Invalid decimal escape"
  | .invalidClassEscape => "Invalid class escape"
  | .invalidUnicodeEscape => "Invalid Unicode escape"
  | .loneSurrogate => "Lone surrogate is not supported"
  | .nestingTooDeep => "Regular expression too deeply nested"
  | .invalidPropertyName => "Invalid property name"
  | .invalidGroup => "Invalid group"
  | .invalidGroupName => "Invalid capture group name"
  | .duplicateGroupName _ => "Duplicate capture group name"
  | .undefinedGroupName _ => "Invalid named capture referenced"
  | .invalidNamedReference => "Invalid named reference"

def message (e : SyntaxError) : String := e.cause.message

end SyntaxError

/-- What a reader makes of the text at a cursor, and where it stops. -/
abbrev Reading (α : Type) := Except SyntaxError (α × Cursor)

/-- Rejects the text from an earlier position up to the cursor. -/
def Cursor.fail {α : Type} (c : Cursor) (cause : SyntaxError.Cause) (start : Nat) :
    Except SyntaxError α :=
  .error ⟨cause, c.spanSince start⟩

end PatternBlocks
