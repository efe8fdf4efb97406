import PatternBlocks.Span
import PatternBlocks.Text.GroupName

/-!
A cursor over pattern text. Positions are UTF-8 byte offsets. A reader with an optional result
hands back the cursor after what it read, and nothing if it does not apply.
-/
namespace PatternBlocks

/-- Number of bytes that the characters take in UTF-8. -/
def utf8Length : List Char → Nat
  | [] => 0
  | ch :: cs => ch.utf8Size + utf8Length cs

/-- The text still to be read, and the offset at which it starts. -/
structure Cursor where
  rest : List Char
  position : Nat
  deriving DecidableEq, Repr

namespace Cursor

def ofString (s : String) : Cursor := ⟨s.toList, 0⟩

def atEnd (c : Cursor) : Bool := c.rest.isEmpty

def peek? (c : Cursor) : Option Char := c.rest.head?

/-- The character `n` places after the current one. -/
def peekAt? (n : Nat) (c : Cursor) : Option Char := c.rest[n]?

def next? : Cursor → Option (Char × Cursor)
  | ⟨[], _⟩ => none
  | ⟨ch :: rest, position⟩ => some (ch, ⟨rest, position + ch.utf8Size⟩)

def eat? (expected : Char) : Cursor → Option Cursor
  | ⟨[], _⟩ => none
  | ⟨ch :: rest, position⟩ =>
    if ch = expected then some ⟨rest, position + ch.utf8Size⟩ else none

/-- Reads the expected characters one after the other. -/
def eatAll? : List Char → Cursor → Option Cursor
  | [], c => some c
  | ch :: expected, c => (c.eat? ch).bind (eatAll? expected)

/-- The longest run of characters that satisfy `p`. -/
def takeWhile (p : Char → Bool) (c : Cursor) : List Char × Cursor :=
  let run := c.rest.takeWhile p
  (run, ⟨c.rest.dropWhile p, c.position + utf8Length run⟩)

/-- Reads the name of a group. -/
def groupName? (c : Cursor) : Option (String × Cursor) :=
  match c.next? with
  | none => none
  | some (first, d) =>
    if GroupName.isStart first then
      let (more, e) := d.takeWhile GroupName.isContinue
      some (String.ofList (first :: more), e)
    else none

/-- The span from an earlier position up to the cursor. -/
def spanSince (start : Nat) (c : Cursor) : Span := ⟨start, c.position⟩

end Cursor

/-- The characters that fit into the first `bytes` bytes. -/
def takeBytes : Nat → List Char → List Char
  | _, [] => []
  | bytes, ch :: rest =>
    if ch.utf8Size ≤ bytes then ch :: takeBytes (bytes - ch.utf8Size) rest else []

namespace Cursor

/-- The text between two cursors over the same pattern. -/
def textTo (c d : Cursor) : String := String.ofList (takeBytes (d.position - c.position) c.rest)

/-- Moves forward by a number of bytes. -/
def skipBytes (bytes : Nat) (c : Cursor) : Cursor :=
  let skipped := takeBytes bytes c.rest
  ⟨c.rest.drop skipped.length, c.position + utf8Length skipped⟩

end Cursor

end PatternBlocks
