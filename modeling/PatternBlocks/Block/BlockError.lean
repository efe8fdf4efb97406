import PatternBlocks.Block.Path

/-! How building and editing blocks can fail. -/
namespace PatternBlocks

inductive BlockError where
  | nameWithoutCapture (name : String)
  | zeroReference
  | noBlock (path : Path)
  deriving DecidableEq, Repr

def BlockError.message : BlockError → String
  | .nameWithoutCapture name => s!"non-capturing group cannot be named '{name}'"
  | .zeroReference => "backreference index must be at least 1"
  | .noBlock path => s!"no node at path {path.text}"

end PatternBlocks
