/-! Sets of code points given as ranges with both ends included. -/
namespace PatternBlocks

abbrev CodeRanges := List (Nat × Nat)

def CodeRanges.contains (ranges : CodeRanges) (code : Nat) : Bool :=
  ranges.any fun range => range.1 ≤ code && code ≤ range.2

end PatternBlocks
