import PatternBlocks.Cursor.Number

/-! Reading a text request by request. -/
namespace PatternBlocks

structure Session where
  input : String
  cursor : Cursor
  deriving DecidableEq, Repr

inductive Session.Request where
  | peek
  | peekAt (n : Nat)
  | next
  | eat (expected : Char)
  | eatAll (expected : String)
  | decimal
  | hexDigits (count : Nat)
  | hexUpTo (limit : Nat)
  | octalEscape
  | groupName
  | slice (start stop : Nat)
  | input
  | reset (position : Nat)
  deriving DecidableEq, Repr

inductive Session.Answer where
  | char (ch : Option Char)
  | flag (holds : Bool)
  | number (n : Option Nat)
  | text (s : Option String)
  | nothing
  deriving DecidableEq, Repr

namespace Session

def ofString (s : String) : Session := ⟨s, Cursor.ofString s⟩

/-- The cursor at an offset of the input. -/
def seek (s : Session) (position : Nat) : Cursor := (Cursor.ofString s.input).skipBytes position

/-- Moves on to the cursor after a reading; one that does not apply leaves the session as it is. -/
def advance {α : Type} (s : Session) (answer : Option α → Answer) :
    Option (α × Cursor) → Answer × Session
  | none => (answer none, s)
  | some (a, c) => (answer (some a), { s with cursor := c })

def perform (s : Session) : Request → Answer × Session
  | .peek => (.char s.cursor.peek?, s)
  | .peekAt n => (.char (s.cursor.peekAt? n), s)
  | .next => s.advance .char s.cursor.next?
  | .eat ch => s.advance (.flag ·.isSome) ((s.cursor.eat? ch).map ((), ·))
  | .eatAll text => s.advance (.flag ·.isSome) ((s.cursor.eatAll? text.toList).map ((), ·))
  | .decimal => s.advance .number s.cursor.decimal?
  | .hexDigits count => s.advance .number (s.cursor.hexDigits? count)
  | .hexUpTo limit =>
    let (value, c) := s.cursor.hexUpTo limit
    (.number value, { s with cursor := c })
  | .octalEscape => s.advance .number s.cursor.octalEscape?
  | .groupName => s.advance .text s.cursor.groupName?
  | .slice start stop => (.text (some ((s.seek start).textTo (s.seek stop))), s)
  | .input => (.text (some s.input), s)
  | .reset position => (.nothing, { s with cursor := s.seek position })

/-- The answers to requests made in turn, each with the session after it. -/
def run (s : Session) : List Request → List (Answer × Session)
  | [] => []
  | request :: requests =>
    let step := s.perform request
    step :: run step.2 requests

end Session

end PatternBlocks
