import PatternBlocks.Json.Basic
import PatternBlocks.Text.CodePoint
import PatternBlocks.Text.Digit

/-! The tokens of JSON text. Text that holds anything else has none. -/
namespace PatternBlocks.Json

inductive Token where
  | openBracket
  | closeBracket
  | openBrace
  | closeBrace
  | comma
  | colon
  | string (s : String)
  /-- A number, a truth value or null. -/
  | scalar (j : Json)

namespace Token

def isBlank (c : Char) : Bool := c = ' ' || c = '\t' || c = '\n' || c = '\r'

/-! ### Strings -/

def codeUnit? (digits : List Char) : Option Nat :=
  digits.foldl (fun value c => value.bind fun n => (digit? 16 c).map (n * 16 + ·)) (some 0)

def namedEscape? : Char → Option Char
  | '\x22' => some '\x22'
  | '\\' => some '\\'
  | '/' => some '/'
  | 'b' => some '\x08'
  | 'f' => some '\x0c'
  | 'n' => some '\n'
  | 'r' => some '\r'
  | 't' => some '\t'
  | _ => none

def prepend (c : Char) : List Char × List Char → List Char × List Char
  | (cs, rest) => (c :: cs, rest)

/-- Reads a string after its opening quotation mark. Surrogates come in pairs. -/
def stringBody? : List Char → Option (List Char × List Char)
  | [] => none
  | c :: rest =>
    if c = '\x22' then some ([], rest)
    else if c = '\\' then
      match rest with
      | [] => none
      | e :: rest =>
        if e = 'u' then
          match rest with
          | a :: b :: c :: d :: rest =>
            match codeUnit? [a, b, c, d] with
            | none => none
            | some unit =>
              if isHighSurrogate unit then
                match rest with
                | '\\' :: 'u' :: a :: b :: c :: d :: rest =>
                  match (codeUnit? [a, b, c, d]).filter isLowSurrogate with
                  | none => none
                  | some low =>
                    (stringBody? rest).map (prepend (Char.ofNat (surrogatePair unit low)))
                | _ => none
              else
                match char? unit with
                | none => none
                | some ch => (stringBody? rest).map (prepend ch)
          | _ => none
        else
          match namedEscape? e with
          | none => none
          | some ch => (stringBody? rest).map (prepend ch)
    else if c.toNat < 0x20 then none
    else (stringBody? rest).map (prepend c)

/-! ### Numbers -/

def digitRun (cs : List Char) : List Char × List Char :=
  (cs.takeWhile Char.isDigit, cs.dropWhile Char.isDigit)

/-- At least one digit. -/
def digits? (cs : List Char) : Option (List Char × List Char) :=
  if (digitRun cs).1.isEmpty then none else some (digitRun cs)

/-- A zero stands alone. -/
def integer? : List Char → Option (List Char × List Char)
  | '0' :: rest => some (['0'], rest)
  | cs => digits? cs

def fraction? : List Char → Option (List Char × List Char)
  | '.' :: rest => (digits? rest).map (prepend '.')
  | cs => some ([], cs)

def exponentSign : List Char → List Char × List Char
  | '+' :: rest => (['+'], rest)
  | '-' :: rest => (['-'], rest)
  | cs => ([], cs)

def exponent? : List Char → Option (List Char × List Char)
  | c :: rest =>
    if c = 'e' || c = 'E' then
      let sign := exponentSign rest
      (digits? sign.2).map fun (digits, rest) => (c :: sign.1 ++ digits, rest)
    else some ([], c :: rest)
  | [] => some ([], [])

def minus : List Char → List Char × List Char
  | '-' :: rest => (['-'], rest)
  | cs => ([], cs)

def decimalValue (digits : List Char) : Nat :=
  digits.foldl (fun value c => value * 10 + digitValue c) 0

/-- The power of ten that an exponent stands for. -/
def exponentValue : List Char → Int
  | [] => 0
  | _ :: '-' :: digits => -decimalValue digits
  | _ :: '+' :: digits => decimalValue digits
  | _ :: digits => decimalValue digits

/-- The least integer that is too large for a floating-point number of 64 bits. -/
def doubleLimit : Nat := Nat.pow 2 1024 - Nat.pow 2 970

/-- Whether the digits times a power of ten stay below `doubleLimit`, which has 309 digits. -/
def isBelowLimit (digits : List Char) (exponent : Int) : Bool :=
  let significant := digits.dropWhile (· = '0')
  let places := significant.length + exponent
  significant.isEmpty || places < 309 ||
    (places = 309 &&
      decimalValue significant * Nat.pow 10 309 < doubleLimit * Nat.pow 10 significant.length)

/-- Reads a number, unless it is too large. -/
def number? (cs : List Char) : Option (Json × List Char) := do
  let (sign, cs) := minus cs
  let (whole, cs) ← integer? cs
  let (fraction, cs) ← fraction? cs
  let (exponent, cs) ← exponent? cs
  let places := fraction.drop 1
  if !isBelowLimit (whole ++ places) (exponentValue exponent - places.length) then none
  else if sign.isEmpty && fraction.isEmpty && exponent.isEmpty then
    return (.natural (decimalValue whole), cs)
  else return (.number (String.ofList (sign ++ whole ++ fraction ++ exponent)), cs)

/-! ### Tokens -/

def words : List (List Char × Json) :=
  [(['n', 'u', 'l', 'l'], .null), (['t', 'r', 'u', 'e'], .bool true),
    (['f', 'a', 'l', 's', 'e'], .bool false)]

def word? (cs : List Char) : Option (Json × List Char) :=
  words.findSome? fun (word, j) => (word.isPrefixOf? cs).map (j, ·)

def mark? : Char → Option Token
  | '[' => some .openBracket
  | ']' => some .closeBracket
  | '{' => some .openBrace
  | '}' => some .closeBrace
  | ',' => some .comma
  | ':' => some .colon
  | _ => none

/-- Reads the token that begins with a given character. -/
def read? (c : Char) (rest : List Char) : Option (Token × List Char) :=
  match mark? c with
  | some token => some (token, rest)
  | none =>
    if c = '\x22' then
      (stringBody? rest).map fun (s, rest) => (.string (String.ofList s), rest)
    else if c = '-' || c.isDigit then
      (number? (c :: rest)).map fun (j, rest) => (.scalar j, rest)
    else (word? (c :: rest)).map fun (j, rest) => (.scalar j, rest)

end Token

end PatternBlocks.Json
