import PatternBlocks.Block.Basic
import PatternBlocks.Block.BlockError

/-! Building blocks one by one, each without a quantifier, and checking lists built otherwise. -/
namespace PatternBlocks.Block

def mkLiteral (text : String) : Block := .literal text .one

def mkShorthand (which : Shorthand) : Block := .shorthand which .one

def mkAnchor (which : Anchor) : Block := .anchor which

def mkBoundary (which : Boundary) : Block := .boundary which .one

def mkCharClass (payload : CharClass) : Block := .charClass payload .one

/-- A name makes a group capturing. -/
def mkGroup (capturing : Bool) (name : Option String) (children : List Block) : Block :=
  .group (capturing || name.isSome) name children .one

/-- Like `mkGroup`, but a name does not go with a group that is not to capture. -/
def mkGroup? (capturing : Bool) (name : Option String) (children : List Block) :
    Except BlockError Block :=
  match capturing, name with
  | false, some name => .error (.nameWithoutCapture name)
  | _, _ => .ok (mkGroup capturing name children)

/-- An alternation without branches gets an empty one. -/
def mkAlternation (branches : List (List Block)) : Block :=
  .alternation (if branches.isEmpty then [[]] else branches) .one

def mkLook (direction : LookDirection) (positive : Bool) (children : List Block) : Block :=
  .look direction positive children .one

def mkNumberReference (n : UInt32) : Except BlockError Block :=
  match GroupNumber.ofUInt32? n with
  | some n => .ok (.backref (.index n) .one)
  | none => .error .zeroReference

def mkNameReference (name : String) : Block := .backref (.name name) .one

mutual

/-- The name of the first group that has one without capturing. -/
def misnamed? : Block → Option String
  | .group capturing name children _ =>
    match capturing, name with
    | false, some name => some name
    | _, _ => misnamedInAll? children
  | .look _ _ children _ => misnamedInAll? children
  | .alternation branches _ => misnamedInBranches? branches
  | _ => none

def misnamedInAll? : List Block → Option String
  | [] => none
  | b :: bs =>
    match b.misnamed? with
    | some name => some name
    | none => misnamedInAll? bs

def misnamedInBranches? : List (List Block) → Option String
  | [] => none
  | branch :: branches =>
    match misnamedInAll? branch with
    | some name => some name
    | none => misnamedInBranches? branches

end

/-- Checks that every named group captures. -/
def check (bs : List Block) : Except BlockError Unit :=
  match misnamedInAll? bs with
  | some name => .error (.nameWithoutCapture name)
  | none => .ok ()

end PatternBlocks.Block
