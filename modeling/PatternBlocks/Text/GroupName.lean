import PatternBlocks.Text.Alphabetic
import PatternBlocks.Text.Numeric

/-! Which characters form the name of a capture group. -/
namespace PatternBlocks.GroupName

def isStart (c : Char) : Bool :=
  isAlphabetic c || c = '_' || c = '$'

/-- A name goes on with digits of any script and with the two zero-width joiners. -/
def isContinue (c : Char) : Bool :=
  isStart c || isNumeric c || c = '\u200c' || c = '\u200d'

end PatternBlocks.GroupName
