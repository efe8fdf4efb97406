/-! Text in quotation marks on a single line. -/
namespace PatternBlocks

def isControl (c : Char) : Bool := c.toNat < 0x20 || (0x7f ≤ c.toNat && c.toNat ≤ 0x9f)

/-- Only the mark that delimits the text is escaped. -/
def quotedChar (mark c : Char) : List Char :=
  if c = mark || c = '\\' then ['\\', c]
  else if c = '\x00' then ['\\', '0']
  else if c = '\t' then ['\\', 't']
  else if c = '\n' then ['\\', 'n']
  else if c = '\r' then ['\\', 'r']
  else if isControl c then '\\' :: 'u' :: '{' :: Nat.toDigits 16 c.toNat ++ ['}']
  else [c]

def quoted (mark : Char) (cs : List Char) : String :=
  String.ofList (mark :: cs.flatMap (quotedChar mark) ++ [mark])

end PatternBlocks
