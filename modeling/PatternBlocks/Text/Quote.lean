/-! Text in which certain characters have a backslash before them. -/
namespace PatternBlocks

def quote (specials : List Char) (cs : List Char) : List Char :=
  cs.flatMap fun ch => if ch ∈ specials then ['\\', ch] else [ch]

/-- Characters with a meaning of their own outside brackets. -/
def literalSpecials : List Char :=
  ['.', '*', '+', '?', '^', '$', '{', '}', '(', ')', '|', '[', ']', '\\']

/-- Characters with a meaning of their own inside brackets. -/
def classSpecials : List Char := ['\\', ']', '-', '^']

end PatternBlocks
