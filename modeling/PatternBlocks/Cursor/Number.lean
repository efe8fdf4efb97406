import PatternBlocks.Cursor.Basic
import PatternBlocks.Text.Digit

/-!
Readers of numbers. A decimal run saturates at the largest 64-bit value, and a bounded
hexadecimal run is given up at the digit that takes it past its bound.
-/
namespace PatternBlocks.Cursor

def digit? (base : Nat) (c : Cursor) : Option (Nat × Cursor) :=
  match c.next? with
  | none => none
  | some (ch, d) => (PatternBlocks.digit? base ch).map (·, d)

/-- The largest value that a decimal run is read as. -/
def maxDecimal : Nat := UInt64.size - 1

def decimalFrom (value : Nat) : List Char → Nat → Nat × Cursor
  | [], position => (value, ⟨[], position⟩)
  | ch :: rest, position =>
    match PatternBlocks.digit? 10 ch with
    | none => (value, ⟨ch :: rest, position⟩)
    | some d => decimalFrom (min (value * 10 + d) maxDecimal) rest (position + ch.utf8Size)

def decimal? (c : Cursor) : Option (Nat × Cursor) :=
  if (c.digit? 10).isSome then some (decimalFrom 0 c.rest c.position) else none

def hexDigitsFrom? : Nat → Nat → Cursor → Option (Nat × Cursor)
  | 0, value, c => some (value, c)
  | count + 1, value, c =>
    match c.digit? 16 with
    | none => none
    | some (d, c) => hexDigitsFrom? count (value * 16 + d) c

/-- Reads exactly `count` hexadecimal digits. -/
def hexDigits? (count : Nat) (c : Cursor) : Option (Nat × Cursor) := hexDigitsFrom? count 0 c

def hexUpToFrom (limit value : Nat) : List Char → Nat → Option Nat × Cursor
  | [], position => (some value, ⟨[], position⟩)
  | ch :: rest, position =>
    match PatternBlocks.digit? 16 ch with
    | none => (some value, ⟨ch :: rest, position⟩)
    | some d =>
      if value * 16 + d ≤ limit then
        hexUpToFrom limit (value * 16 + d) rest (position + ch.utf8Size)
      else (none, ⟨ch :: rest, position⟩)

/-- Reads a run of hexadecimal digits worth at most `limit`. -/
def hexUpTo (limit : Nat) (c : Cursor) : Option Nat × Cursor :=
  if (c.digit? 16).isSome then hexUpToFrom limit 0 c.rest c.position else (none, c)

/-- Up to `count` further octal digits. -/
def octalDigits : Nat → Nat → Cursor → Nat × Cursor
  | 0, value, c => (value, c)
  | count + 1, value, c =>
    match c.digit? 8 with
    | none => (value, c)
    | some (d, c) => octalDigits count (value * 8 + d) c

/-- Reads the digits of an octal escape, at most `377`. -/
def octalEscape? (c : Cursor) : Option (Nat × Cursor) :=
  match c.digit? 8 with
  | none => none
  | some (first, c) => some (octalDigits (if first ≤ 3 then 2 else 1) first c)

end PatternBlocks.Cursor
