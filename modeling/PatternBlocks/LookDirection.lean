/-! Where a lookaround looks from its position. -/
namespace PatternBlocks

inductive LookDirection where
  | ahead
  | behind
  deriving DecidableEq, Repr

end PatternBlocks
