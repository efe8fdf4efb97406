import PatternBlocks.Block.Build
import PatternBlocks.Regex.Basic

/-! Syntax trees as blocks. Neighbouring characters become one literal. -/
namespace PatternBlocks

/-- Syntax that no block stands for. -/
inductive Unsupported.Feature where
  | propertyEscape
  | referenceToGroupZero
  deriving DecidableEq, Repr

structure Unsupported where
  feature : Unsupported.Feature
  span : Span
  deriving DecidableEq, Repr

def Unsupported.Feature.description : Unsupported.Feature → String
  | .propertyEscape => "unicode property escape"
  | .referenceToGroupZero => "backreference to group 0"

/-- What an expression contributes to the sequence that it stands in. -/
inductive Piece where
  | nothing
  | char (ch : Char)
  | block (b : Block)
  | sequence (bs : List Block)

namespace Piece

/-- A run of characters, which is given backwards. -/
def ofRun (run : List Char) : List Block :=
  if run.isEmpty then [] else [.mkLiteral (String.ofList run.reverse)]

/-- The piece as a single block. A sequence keeps its grouping. -/
def toBlock : Piece → Block
  | .nothing => .mkGroup false none []
  | .char ch => .mkLiteral (String.singleton ch)
  | .block b => b
  | .sequence bs => .mkGroup false none bs

/-- The pieces one after the other, behind a run of characters. -/
def join (run : List Char) : List Piece → List Block
  | [] => ofRun run
  | .char ch :: pieces => join (ch :: run) pieces
  | .nothing :: pieces => join run pieces
  | piece :: pieces => ofRun run ++ piece.toBlock :: join [] pieces

/-- The piece as a whole pattern, group body or branch. -/
def toBlocks : Piece → List Block
  | .nothing => []
  | .char ch => [.mkLiteral (String.singleton ch)]
  | .block b => [b]
  | .sequence bs => bs

end Piece

def Shorthand.ofClassEscape : ClassEscape → Shorthand
  | .digit => .digit
  | .notDigit => .nonDigit
  | .word => .word
  | .notWord => .nonWord
  | .space => .space
  | .notSpace => .nonSpace

def Quantifier.ofCount (greedy : Bool) : Count → Quantifier
  | .zeroOrOne => .zeroOrOne greedy
  | .zeroOrMore => .zeroOrMore greedy
  | .oneOrMore => .oneOrMore greedy
  | .range least none => .atLeast least greedy
  | .range least (some most) =>
    if most = least then .exactly least greedy else .range least most greedy

def Block.ofAssertion : Assertion → Block
  | .start => .mkAnchor .start
  | .stop => .mkAnchor .stop
  | .wordBoundary => .mkBoundary .word
  | .notWordBoundary => .mkBoundary .nonWord

def Block.ofBracket (b : Bracket) : Block :=
  .mkCharClass { CharClass.ofBody b.raw with negate := b.negated }

def Block.ofGroup (children : List Block) : GroupKind → Block
  | .capturing _ name => .mkGroup true name children
  | .nonCapturing => .mkGroup false none children

def Block.ofReference (span : Span) : Reference → Except Unsupported Block
  | .name s => .ok (.mkNameReference s)
  | .number n =>
    match Block.mkNumberReference n with
    | .ok b => .ok b
    | .error _ => .error ⟨.referenceToGroupZero, span⟩

namespace Regex

mutual

def piece : Regex → Except Unsupported Piece
  | .empty _ => .ok .nothing
  | .char ch _ _ => .ok (.char ch)
  | .dot _ => .ok (.block (.mkShorthand .any))
  | .classEscape kind _ => .ok (.block (.mkShorthand (.ofClassEscape kind)))
  | .property p => .error ⟨.propertyEscape, p.span⟩
  | .bracket b => .ok (.block (.ofBracket b))
  | .group kind body _ => body.piece.map fun p => .block (.ofGroup p.toBlocks kind)
  | .assertion kind _ => .ok (.block (.ofAssertion kind))
  | .look direction negated body _ =>
    body.piece.map fun p => .block (.mkLook direction (!negated) p.toBlocks)
  | .backref target span => (Block.ofReference span target).map .block
  | .repetition count greedy body _ =>
    body.piece.map fun p => .block (p.toBlock.setQuant (.ofCount greedy count))
  | .concat terms _ => (pieces terms).map fun ps => .sequence (Piece.join [] ps)
  | .alternation branches _ =>
    (pieces branches).map fun ps => .block (.mkAlternation (ps.map Piece.toBlocks))

def pieces : List Regex → Except Unsupported (List Piece)
  | [] => .ok []
  | r :: rs =>
    match r.piece with
    | .error e => .error e
    | .ok p => (pieces rs).map (p :: ·)

end

/-- The blocks of an expression that is a whole pattern. -/
def blocks (r : Regex) : Except Unsupported (List Block) := r.piece.map Piece.toBlocks

end Regex

end PatternBlocks
