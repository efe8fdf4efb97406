/-! Addresses of blocks. A path starts in the outermost list. -/
namespace PatternBlocks

inductive Path.Step where
  /-- A position in the outermost list, or in the group or lookaround reached so far. -/
  | child (index : Nat)
  /-- A position in a branch of the alternation reached so far. -/
  | branch (branch index : Nat)
  deriving DecidableEq, Repr

structure Path where
  steps : List Path.Step
  deriving DecidableEq, Repr

namespace Path

def Step.text : Step → String
  | .child index => s!"{index}"
  | .branch b index => s!"{b}:{index}"

def isEmpty (p : Path) : Bool := p.steps.isEmpty

def text (p : Path) : String :=
  if p.isEmpty then "<empty>" else "/".intercalate (p.steps.map Step.text)

end Path

end PatternBlocks
