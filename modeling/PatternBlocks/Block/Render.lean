import PatternBlocks.Block.Basic

/-! Blocks as pattern text. Every list of blocks has one, whether or not it is sensible. -/
namespace PatternBlocks

def Shorthand.render : Shorthand → List Char
  | .digit => ['\\', 'd']
  | .nonDigit => ['\\', 'D']
  | .word => ['\\', 'w']
  | .nonWord => ['\\', 'W']
  | .space => ['\\', 's']
  | .nonSpace => ['\\', 'S']
  | .any => ['.']

def Anchor.render : Anchor → List Char
  | .start => ['^']
  | .stop => ['$']

def Boundary.render : Boundary → List Char
  | .word => ['\\', 'b']
  | .nonWord => ['\\', 'B']

def Target.render : Target → List Char
  | .index n => '\\' :: decimalDigits n.value
  | .name s => '\\' :: 'k' :: '<' :: s.toList ++ ['>']

namespace Block

/-- What stands between the parenthesis and the body of a group. The name of a group that does not
capture is not written. -/
def groupMark : Bool → Option String → List Char
  | false, _ => ['?', ':']
  | true, none => []
  | true, some name => '?' :: '<' :: name.toList ++ ['>']

def lookMark : LookDirection → Bool → List Char
  | .ahead, true => ['?', '=']
  | .ahead, false => ['?', '!']
  | .behind, true => ['?', '<', '=']
  | .behind, false => ['?', '<', '!']

/-- A reference by number that no quantifier ends. -/
def isBareNumber : Block → Bool
  | .backref (.index _) .one => true
  | _ => false

/-- The first character of a literal as a hexadecimal escape if it is a digit. -/
def guardedText : List Char → List Char
  | [] => []
  | ch :: rest =>
    if ch.isDigit then '\\' :: 'x' :: Nat.toDigits 16 ch.toNat ++ quote literalSpecials rest
    else quote literalSpecials (ch :: rest)

/-- The text of a literal. After a bare group number a digit would belong to that number. -/
def literalText (afterNumber : Bool) (text : List Char) : List Char :=
  if afterNumber then guardedText text else quote literalSpecials text

mutual

def renderAfter (afterNumber : Bool) : Block → List Char
  | .literal text q => literalText afterNumber text.toList ++ q.render
  | .shorthand which q => which.render ++ q.render
  | .anchor which => which.render
  | .boundary which q => which.render ++ q.render
  | .charClass payload q => payload.render ++ q.render
  | .group capturing name children q =>
    '(' :: groupMark capturing name ++ renderBody children ++ ')' :: q.render
  | .alternation branches q => '(' :: '?' :: ':' :: renderBranches branches ++ ')' :: q.render
  | .look direction positive children q =>
    '(' :: lookMark direction positive ++ renderBody children ++ ')' :: q.render
  | .backref target q => target.render ++ q.render

def renderAll (afterNumber : Bool) : List Block → List Char
  | [] => []
  | b :: bs => b.renderAfter afterNumber ++ renderAll b.isBareNumber bs

/-- The inside of parentheses, which are enough to delimit a lone unquantified alternation. -/
def renderBody : List Block → List Char
  | [] => []
  | [.alternation branches .one] => renderBranches branches
  | b :: bs => b.renderAfter false ++ renderAll b.isBareNumber bs

def renderBranches : List (List Block) → List Char
  | [] => []
  | [branch] => renderAll false branch
  | branch :: branches => renderAll false branch ++ '|' :: renderBranches branches

end

def text (b : Block) : String := String.ofList (b.renderAfter false)

/-- The pattern that a list of blocks stands for. -/
def pattern (bs : List Block) : String := String.ofList (renderAll false bs)

end Block

end PatternBlocks
