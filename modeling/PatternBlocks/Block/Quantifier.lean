/-! How often a block repeats, and the suffix that says so. -/
namespace PatternBlocks

inductive Quantifier where
  | one
  | zeroOrOne (greedy : Bool)
  | oneOrMore (greedy : Bool)
  | zeroOrMore (greedy : Bool)
  | exactly (n : UInt32) (greedy : Bool)
  | atLeast (n : UInt32) (greedy : Bool)
  | range (least most : UInt32) (greedy : Bool)
  deriving DecidableEq, Repr

/-- The decimal digits of a number. -/
def decimalDigits (n : UInt32) : List Char := Nat.toDigits 10 n.toNat

namespace Quantifier

def isOne (q : Quantifier) : Bool := q = .one

/-- Without a quantifier there is nothing to be lazy about. -/
def isGreedy : Quantifier → Bool
  | .one => true
  | .zeroOrOne greedy | .oneOrMore greedy | .zeroOrMore greedy | .exactly _ greedy
  | .atLeast _ greedy | .range _ _ greedy => greedy

def setGreedy (greedy : Bool) : Quantifier → Quantifier
  | .one => .one
  | .zeroOrOne _ => .zeroOrOne greedy
  | .oneOrMore _ => .oneOrMore greedy
  | .zeroOrMore _ => .zeroOrMore greedy
  | .exactly n _ => .exactly n greedy
  | .atLeast n _ => .atLeast n greedy
  | .range least most _ => .range least most greedy

/-- The suffix without the mark of laziness. -/
def countMark : Quantifier → List Char
  | .one => []
  | .zeroOrOne _ => ['?']
  | .oneOrMore _ => ['+']
  | .zeroOrMore _ => ['*']
  | .exactly n _ => '{' :: decimalDigits n ++ ['}']
  | .atLeast n _ => '{' :: decimalDigits n ++ [',', '}']
  | .range least most _ => '{' :: decimalDigits least ++ ',' :: decimalDigits most ++ ['}']

def render (q : Quantifier) : List Char := q.countMark ++ if q.isGreedy then [] else ['?']

def text (q : Quantifier) : String := String.ofList q.render

end Quantifier

end PatternBlocks
