/-! The flags that go with a pattern. -/
namespace PatternBlocks

structure Flags where
  global : Bool := false
  ignoreCase : Bool := false
  multiline : Bool := false
  dotAll : Bool := false
  unicode : Bool := false
  sticky : Bool := false
  deriving DecidableEq, Repr

namespace Flags

/-- Reads flag letters in any order; other characters are ignored. -/
def ofString (s : String) : Flags :=
  let isSet (letter : Char) := s.toList.contains letter
  { global := isSet 'g', ignoreCase := isSet 'i', multiline := isSet 'm', dotAll := isSet 's',
    unicode := isSet 'u', sticky := isSet 'y' }

/-- The letters of the flags that are set, in their canonical order. -/
def text (f : Flags) : String :=
  let letters := [(f.global, 'g'), (f.ignoreCase, 'i'), (f.multiline, 'm'), (f.dotAll, 's'),
    (f.unicode, 'u'), (f.sticky, 'y')]
  String.ofList ((letters.filter (·.1)).map (·.2))

def isEmpty (f : Flags) : Bool := f = {}

end Flags

end PatternBlocks
