/-! Ranges of UTF-8 byte offsets into a pattern. -/
namespace PatternBlocks

structure Span where
  start : Nat
  stop : Nat
  deriving DecidableEq, Repr

namespace Span

/-- The empty span at one position. -/
def point (position : Nat) : Span := ⟨position, position⟩

def length (s : Span) : Nat := s.stop - s.start

/-- A span whose ends are out of order is not empty, though its length is 0. -/
def isEmpty (s : Span) : Bool := s.start = s.stop

def text (s : Span) : String := s!"{s.start}..{s.stop}"

end Span

end PatternBlocks
