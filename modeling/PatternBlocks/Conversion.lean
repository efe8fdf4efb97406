import PatternBlocks.Block.OfRegex
import PatternBlocks.Block.Render
import PatternBlocks.Flags
import PatternBlocks.Grammar.Pattern
import PatternBlocks.Regex.Description

/-! Patterns as blocks, and reports on the stages in between. -/
namespace PatternBlocks

inductive PatternError.Cause where
  | malformed (error : SyntaxError)
  | unsupported (what : Unsupported)
  deriving DecidableEq, Repr

/-- A pattern that has no blocks. -/
structure PatternError where
  pattern : String
  flags : Flags
  cause : PatternError.Cause
  deriving DecidableEq, Repr

namespace PatternError

def Cause.message : Cause → String
  | .malformed e => e.message
  | .unsupported what => "Unsupported syntax: " ++ what.feature.description

def message (e : PatternError) : String :=
  s!"Invalid regular expression: /{e.pattern}/{e.flags.text}: {e.cause.message}"

def span (e : PatternError) : Span :=
  match e.cause with
  | .malformed e => e.span
  | .unsupported what => what.span

end PatternError

/-- A pattern in all its stages. -/
structure Conversion where
  input : String
  flags : Flags
  root : Regex
  blocks : List Block

namespace Conversion

/-- The flag for unicode decides the mode in which the pattern is read. -/
def ofPattern (pattern : String) (flags : Flags) : Except PatternError Conversion :=
  match Pattern.parse flags.unicode pattern with
  | .error e => .error ⟨pattern, flags, .malformed e⟩
  | .ok p =>
    match p.root.blocks with
    | .error what => .error ⟨pattern, flags, .unsupported what⟩
    | .ok blocks => .ok ⟨pattern, flags, p.root, blocks⟩

/-- The pattern that the blocks stand for. -/
def output (c : Conversion) : String := Block.pattern c.blocks

def reproducesInput (c : Conversion) : Bool := c.input = c.output

def blockLine (b : Block) : String :=
  "  " ++ String.ofList (b.tag.toList.rightpad 12 ' ') ++ " " ++ b.text

def reportLines (c : Conversion) : List String :=
  ["Conversion Report", "=================", s!"Input:  /{c.input}/{c.flags.text}",
    s!"Syntax: {c.root.describe}", s!"Blocks: {c.blocks.length}"] ++
  c.blocks.map blockLine ++ [s!"Output: /{c.output}/{c.flags.text}"] ++
  if c.reproducesInput then [] else ["Note:   output differs from input"]

def report (c : Conversion) : String := String.join (c.reportLines.map (· ++ "\n"))

end Conversion

/-- The blocks that a pattern consists of. -/
def Block.ofPattern (pattern : String) (flags : Flags) : Except PatternError (List Block) :=
  (Conversion.ofPattern pattern flags).map Conversion.blocks

end PatternBlocks
