import PatternBlocks.Text.Quote

/-!
Bracket expressions as an editor shows them: five named ranges that can be switched on, and the
remaining members as text. A class that was read keeps its body, which is written back as it is.
-/
namespace PatternBlocks

inductive NamedRange where
  | lower
  | upper
  | digit
  | underscore
  | whitespace
  deriving DecidableEq, Repr

namespace NamedRange

/-- The order in which named ranges are looked for and written. -/
def all : List NamedRange := [.lower, .upper, .digit, .underscore, .whitespace]

def chars : NamedRange → List Char
  | .lower => ['a', '-', 'z']
  | .upper => ['A', '-', 'Z']
  | .digit => ['0', '-', '9']
  | .underscore => ['_']
  | .whitespace => ['\\', 's']

end NamedRange

/-- Which named ranges are switched on. -/
structure Toggles where
  lower : Bool := false
  upper : Bool := false
  digit : Bool := false
  underscore : Bool := false
  whitespace : Bool := false
  deriving DecidableEq, Repr

namespace Toggles

def isOn (t : Toggles) : NamedRange → Bool
  | .lower => t.lower
  | .upper => t.upper
  | .digit => t.digit
  | .underscore => t.underscore
  | .whitespace => t.whitespace

def switchOn (t : Toggles) : NamedRange → Toggles
  | .lower => { t with lower := true }
  | .upper => { t with upper := true }
  | .digit => { t with digit := true }
  | .underscore => { t with underscore := true }
  | .whitespace => { t with whitespace := true }

def ranges (t : Toggles) : List NamedRange := NamedRange.all.filter t.isOn

def isEmpty (t : Toggles) : Bool := t.ranges.isEmpty

end Toggles

structure CharClass where
  negate : Bool := false
  toggles : Toggles := {}
  /-- The members that no named range covers. -/
  custom : String := ""
  /-- The body as it was read. -/
  raw : Option String := none
  deriving DecidableEq, Repr

/-- Removes the first occurrence of a text. -/
def removeFirst? (needle : List Char) : List Char → Option (List Char)
  | [] => none
  | ch :: rest =>
    match needle.isPrefixOf? (ch :: rest) with
    | some after => some after
    | none => (removeFirst? needle rest).map (ch :: ·)

namespace CharClass

/-- Switches a range on and removes its first occurrence, if there is one. -/
def extract (found : Toggles × List Char) (r : NamedRange) : Toggles × List Char :=
  match removeFirst? r.chars found.2 with
  | none => found
  | some rest => (found.1.switchOn r, rest)

/-- The class with a given body, which begins after any hat. -/
def ofBody (body : String) : CharClass :=
  let found := NamedRange.all.foldl extract ({}, body.toList)
  { toggles := found.1, custom := String.ofList found.2, raw := some body }

def body (c : CharClass) : List Char :=
  match c.raw with
  | some raw => raw.toList
  | none => c.toggles.ranges.flatMap NamedRange.chars ++ quote classSpecials c.custom.toList

def render (c : CharClass) : List Char :=
  '[' :: (if c.negate then ['^'] else []) ++ c.body ++ [']']

def text (c : CharClass) : String := String.ofList c.render

end CharClass

end PatternBlocks
