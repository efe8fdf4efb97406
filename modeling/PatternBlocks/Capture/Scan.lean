/-!
A count of the capture groups of a pattern that needs no parsing: escapes and bracket expressions
are skipped, and only the characters after an opening parenthesis tell what it opens.
-/
namespace PatternBlocks.Capture

structure Scan where
  count : Nat := 0
  anyNamed : Bool := false
  deriving DecidableEq, Repr

namespace Scan

def addPlain (s : Scan) : Scan := { s with count := s.count + 1 }

def addNamed (s : Scan) : Scan := ⟨s.count + 1, true⟩

def ofChars (inClass : Bool) : List Char → Scan
  | [] => {}
  | ch :: rest =>
    if ch = '\\' then
      match rest with
      | [] => {}
      | _ :: rest => ofChars inClass rest
    else if inClass then ofChars (ch ≠ ']') rest
    else if ch = '[' then ofChars true rest
    else if ch = '(' then
      match rest with
      | '?' :: '<' :: rest =>
        let scan := ofChars false rest
        if rest.head? = some '=' ∨ rest.head? = some '!' then scan else scan.addNamed
      | '?' :: rest => ofChars false rest
      | rest => (ofChars false rest).addPlain
    else ofChars false rest

def ofString (pattern : String) : Scan := ofChars false pattern.toList

end Scan

end PatternBlocks.Capture
