import PatternBlocks.Block.Basic
import PatternBlocks.Block.BlockError

/-! Looking up blocks by their paths, and lists of blocks with one of them changed. -/
namespace PatternBlocks.Block

/-- The list that a step leads into from a block, with the position in it. The position need not
exist. -/
def inside? : Block → Path.Step → Option (List Block × Nat)
  | .group _ _ children _, .child i => some (children, i)
  | .look _ _ children _, .child i => some (children, i)
  | .alternation branches _, .branch b i => branches[b]?.map (·, i)
  | _, _ => none

/-- The block with another list where a step leads into it. -/
def setInside (bs : List Block) : Block → Path.Step → Block
  | .group capturing name _ q, .child _ => .group capturing name bs q
  | .look direction positive _ q, .child _ => .look direction positive bs q
  | .alternation branches q, .branch b _ => .alternation (branches.set b bs) q
  | block, _ => block

def getFrom? (bs : List Block) (index : Nat) : List Path.Step → Option Block
  | [] => bs[index]?
  | step :: steps =>
    match bs[index]?.bind (·.inside? step) with
    | none => none
    | some (inner, i) => getFrom? inner i steps

/-- Changes the list that holds the addressed position. -/
def editFrom? (change : List Block → Nat → Option (List Block)) (bs : List Block) (index : Nat) :
    List Path.Step → Option (List Block)
  | [] => change bs index
  | step :: steps =>
    match bs[index]? with
    | none => none
    | some b =>
      match b.inside? step with
      | none => none
      | some (inner, i) =>
        (editFrom? change inner i steps).map fun inner => bs.set index (b.setInside inner step)

/-- The first step of a path leads to a position in the outermost list. -/
def edit? (change : List Block → Nat → Option (List Block)) (bs : List Block) (p : Path) :
    Option (List Block) :=
  match p.steps with
  | .child index :: steps => editFrom? change bs index steps
  | _ => none

def get? (bs : List Block) (p : Path) : Option Block :=
  match p.steps with
  | .child index :: steps => getFrom? bs index steps
  | _ => none

def orNoBlock {α : Type} (p : Path) : Option α → Except BlockError α
  | none => .error (.noBlock p)
  | some a => .ok a

def get (bs : List Block) (p : Path) : Except BlockError Block := orNoBlock p (get? bs p)

def contains (bs : List Block) (p : Path) : Bool := (get? bs p).isSome

def replaceIn (b : Block) (bs : List Block) (index : Nat) : Option (List Block) :=
  if index < bs.length then some (bs.set index b) else none

def removeFrom (bs : List Block) (index : Nat) : Option (List Block) :=
  if index < bs.length then some (bs.eraseIdx index) else none

/-- A position one past the end is enough for an insertion. -/
def insertIn (b : Block) (bs : List Block) (index : Nat) : Option (List Block) :=
  if index ≤ bs.length then some (bs.insertIdx index b) else none

def replace (bs : List Block) (p : Path) (b : Block) : Except BlockError (List Block) :=
  orNoBlock p (edit? (replaceIn b) bs p)

def remove (bs : List Block) (p : Path) : Except BlockError (List Block) :=
  orNoBlock p (edit? removeFrom bs p)

def insert (bs : List Block) (p : Path) (b : Block) : Except BlockError (List Block) :=
  orNoBlock p (edit? (insertIn b) bs p)

/-- Gives the addressed block another quantifier. -/
def requantify (bs : List Block) (p : Path) (q : Quantifier) : Except BlockError (List Block) :=
  match get bs p with
  | .error e => .error e
  | .ok b => replace bs p (b.setQuant q)

/-- A change at the place that a path leads to. -/
inductive Edit where
  | replace (path : Path) (block : Block)
  | insert (path : Path) (block : Block)
  | remove (path : Path)
  | requantify (path : Path) (quant : Quantifier)

namespace Edit

def apply (bs : List Block) : Edit → Except BlockError (List Block)
  | .replace p b => Block.replace bs p b
  | .insert p b => Block.insert bs p b
  | .remove p => Block.remove bs p
  | .requantify p q => Block.requantify bs p q

/-- The blocks after an edit, which stay as they are if it fails. -/
def applyOrKeep (bs : List Block) (e : Edit) : List Block :=
  match e.apply bs with
  | .error _ => bs
  | .ok bs => bs

end Edit

end PatternBlocks.Block
