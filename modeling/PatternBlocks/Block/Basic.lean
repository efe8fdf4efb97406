import PatternBlocks.Block.CharClass
import PatternBlocks.Block.Quantifier
import PatternBlocks.LookDirection

/-!
The building blocks of a pattern. A pattern is a list of blocks; groups, alternations and
lookarounds hold lists of blocks themselves.
-/
namespace PatternBlocks

inductive Shorthand where
  | digit
  | nonDigit
  | word
  | nonWord
  | space
  | nonSpace
  | any
  deriving DecidableEq, Repr

inductive Anchor where
  | start
  | stop
  deriving DecidableEq, Repr

inductive Boundary where
  | word
  | nonWord
  deriving DecidableEq, Repr

/-- Groups are numbered from 1. -/
structure GroupNumber where
  value : UInt32
  ne_zero : value ≠ 0
  deriving DecidableEq, Repr

def GroupNumber.ofUInt32? (n : UInt32) : Option GroupNumber :=
  if h : n ≠ 0 then some ⟨n, h⟩ else none

inductive Target where
  | index (n : GroupNumber)
  | name (name : String)
  deriving DecidableEq, Repr

inductive Block where
  | literal (text : String) (quant : Quantifier)
  | shorthand (which : Shorthand) (quant : Quantifier)
  | anchor (which : Anchor)
  | boundary (which : Boundary) (quant : Quantifier)
  | charClass (payload : CharClass) (quant : Quantifier)
  | group (capturing : Bool) (name : Option String) (children : List Block) (quant : Quantifier)
  | alternation (branches : List (List Block)) (quant : Quantifier)
  | look (direction : LookDirection) (positive : Bool) (children : List Block)
      (quant : Quantifier)
  | backref (target : Target) (quant : Quantifier)

namespace Block

/-- Anchors do not repeat. -/
def quant : Block → Quantifier
  | .anchor _ => .one
  | .literal _ q | .shorthand _ q | .boundary _ q | .charClass _ q | .group _ _ _ q
  | .alternation _ q | .look _ _ _ q | .backref _ q => q

/-- The block with another quantifier, which an anchor does not take. -/
def setQuant (q : Quantifier) : Block → Block
  | .anchor which => .anchor which
  | .literal text _ => .literal text q
  | .shorthand which _ => .shorthand which q
  | .boundary which _ => .boundary which q
  | .charClass payload _ => .charClass payload q
  | .group capturing name children _ => .group capturing name children q
  | .alternation branches _ => .alternation branches q
  | .look direction positive children _ => .look direction positive children q
  | .backref target _ => .backref target q

/-- The blocks inside a group or a lookaround. -/
def children? : Block → Option (List Block)
  | .group _ _ children _ | .look _ _ children _ => some children
  | _ => none

/-- The word that tells the kinds of blocks apart. -/
def tag : Block → String
  | .literal .. => "literal"
  | .shorthand .. => "predef"
  | .anchor .. => "anchor"
  | .boundary .. => "boundary"
  | .charClass .. => "charclass"
  | .group .. => "group"
  | .alternation .. => "alternation"
  | .look .. => "look"
  | .backref .. => "backref"

end Block

end PatternBlocks
