import PatternBlocks.Json.Basic

/-! JSON values as text without blanks. Members keep their order. -/
namespace PatternBlocks.Json

/-- The four hexadecimal digits of a code unit. -/
def unitDigits (n : Nat) : List Char := (Nat.toDigits 16 n).leftpad 4 '0'

def escapedChar (c : Char) : List Char :=
  if c = '\x22' || c = '\\' then ['\\', c]
  else if c = '\x08' then ['\\', 'b']
  else if c = '\x0c' then ['\\', 'f']
  else if c = '\n' then ['\\', 'n']
  else if c = '\r' then ['\\', 'r']
  else if c = '\t' then ['\\', 't']
  else if c.toNat < 0x20 then '\\' :: 'u' :: unitDigits c.toNat
  else [c]

def writeString (s : String) : List Char :=
  '\x22' :: s.toList.flatMap escapedChar ++ ['\x22']

mutual

def write : Json → List Char
  | .null => ['n', 'u', 'l', 'l']
  | .bool true => ['t', 'r', 'u', 'e']
  | .bool false => ['f', 'a', 'l', 's', 'e']
  | .natural n => Nat.toDigits 10 n
  | .number digits => digits.toList
  | .string s => writeString s
  | .array items => '[' :: writeItems items ++ [']']
  | .object members => '{' :: writeMembers members ++ ['}']

def writeItems : List Json → List Char
  | [] => []
  | [j] => j.write
  | j :: items => j.write ++ ',' :: writeItems items

def writeMembers : List (String × Json) → List Char
  | [] => []
  | [(key, j)] => writeString key ++ ':' :: j.write
  | (key, j) :: members => writeString key ++ ':' :: j.write ++ ',' :: writeMembers members

end

def text (j : Json) : String := String.ofList j.write

end PatternBlocks.Json
