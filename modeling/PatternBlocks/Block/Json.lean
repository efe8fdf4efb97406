import PatternBlocks.Block.Basic
import PatternBlocks.Flags
import PatternBlocks.Json.Basic

/-!
Blocks and what they are made of as JSON, in the vocabulary of a block editor. Writing gives every
field but an absent name or body; reading fills in missing quantifiers and lists of blocks.
-/
namespace PatternBlocks

open Json

def labelled? {α : Type} (labels : List (String × α)) (j : Json) : Option α :=
  j.keyword?.bind (labels.lookup ·)

/-! ### Quantifiers -/

namespace Quantifier

def toJson : Quantifier → Json
  | .one => .object [("kind", .string "one")]
  | .zeroOrOne greedy => .object [("kind", .string "zeroOrOne"), ("greedy", .bool greedy)]
  | .oneOrMore greedy => .object [("kind", .string "oneOrMore"), ("greedy", .bool greedy)]
  | .zeroOrMore greedy => .object [("kind", .string "zeroOrMore"), ("greedy", .bool greedy)]
  | .exactly n greedy =>
    .object [("kind", .string "exact"), ("n", .natural n.toNat), ("greedy", .bool greedy)]
  | .atLeast n greedy =>
    .object [("kind", .string "atLeast"), ("n", .natural n.toNat), ("greedy", .bool greedy)]
  | .range least most greedy =>
    .object [("kind", .string "range"), ("min", .natural least.toNat),
      ("max", .natural most.toNat), ("greedy", .bool greedy)]

/-- The fields of each kind of quantifier. -/
def kinds : List (String × List String) :=
  [("one", []), ("zeroOrOne", ["greedy"]), ("oneOrMore", ["greedy"]), ("zeroOrMore", ["greedy"]),
    ("exact", ["n", "greedy"]), ("atLeast", ["n", "greedy"]), ("range", ["min", "max", "greedy"])]

def read? (inner : Bool) (j : Json) : Option Quantifier := do
  let (kind, members) ← j.tagged? inner "kind" kinds
  let greedy := required? bool? "greedy" members
  let word (key : String) := required? word? key members
  match kind with
  | "one" => some .one
  | "zeroOrOne" => greedy.map .zeroOrOne
  | "oneOrMore" => greedy.map .oneOrMore
  | "zeroOrMore" => greedy.map .zeroOrMore
  | "exact" => return .exactly (← word "n") (← greedy)
  | "atLeast" => return .atLeast (← word "n") (← greedy)
  | "range" => return .range (← word "min") (← word "max") (← greedy)
  | _ => none

/-- Reads a quantifier that stands by itself. -/
def ofJson? (j : Json) : Option Quantifier := read? false j

/-- Reads the quantifier of a block, which need not be there. -/
def ofBlockMembers? (members : List (String × Json)) : Option Quantifier :=
  optional? (read? true) .one "quant" members

end Quantifier

/-! ### Character classes -/

namespace Toggles

def toJson (t : Toggles) : Json :=
  .object [("az", .bool t.lower), ("AZ", .bool t.upper), ("d09", .bool t.digit),
    ("underscore", .bool t.underscore), ("whitespace", .bool t.whitespace)]

def ofJson? (j : Json) : Option Toggles := do
  let members ← j.members? ["az", "AZ", "d09", "underscore", "whitespace"]
  let toggle (key : String) := optional? bool? false key members
  return {
    lower := ← toggle "az"
    upper := ← toggle "AZ"
    digit := ← toggle "d09"
    underscore := ← toggle "underscore"
    whitespace := ← toggle "whitespace" }

end Toggles

/-- A member that is left out where there is nothing to write. -/
def optionalMember (key : String) : Option String → List (String × Json)
  | none => []
  | some s => [(key, .string s)]

namespace CharClass

def toJson (c : CharClass) : Json :=
  .object ([("negate", .bool c.negate), ("sets", c.toggles.toJson), ("custom", .string c.custom)] ++
    optionalMember "raw" c.raw)

def ofJson? (j : Json) : Option CharClass := do
  let members ← j.members? ["negate", "sets", "custom", "raw"]
  return {
    negate := ← optional? bool? false "negate" members
    toggles := ← optional? Toggles.ofJson? {} "sets" members
    custom := ← optional? string? "" "custom" members
    raw := ← optional? nullable? none "raw" members }

end CharClass

/-! ### Flags -/

namespace Flags

def toJson (f : Flags) : Json :=
  .object [("global", .bool f.global), ("ignoreCase", .bool f.ignoreCase),
    ("multiline", .bool f.multiline), ("dotAll", .bool f.dotAll), ("unicode", .bool f.unicode),
    ("sticky", .bool f.sticky)]

def ofJson? (j : Json) : Option Flags := do
  let members ← j.members? ["global", "ignoreCase", "multiline", "dotAll", "unicode", "sticky"]
  let flag (key : String) := optional? bool? false key members
  return {
    global := ← flag "global"
    ignoreCase := ← flag "ignoreCase"
    multiline := ← flag "multiline"
    dotAll := ← flag "dotAll"
    unicode := ← flag "unicode"
    sticky := ← flag "sticky" }

end Flags

/-! ### Words and references -/

def Shorthand.label : Shorthand → String
  | .digit => "digit"
  | .nonDigit => "nondigit"
  | .word => "word"
  | .nonWord => "nonword"
  | .space => "space"
  | .nonSpace => "nonspace"
  | .any => "any"

def Shorthand.labels : List (String × Shorthand) :=
  [.digit, .nonDigit, .word, .nonWord, .space, .nonSpace, .any].map fun w => (w.label, w)

def Anchor.label : Anchor → String
  | .start => "start"
  | .stop => "end"

def Anchor.labels : List (String × Anchor) := [.start, .stop].map fun w => (w.label, w)

def Boundary.label : Boundary → String
  | .word => "word"
  | .nonWord => "nonword"

def Boundary.labels : List (String × Boundary) := [.word, .nonWord].map fun w => (w.label, w)

def LookDirection.label : LookDirection → String
  | .ahead => "ahead"
  | .behind => "behind"

def LookDirection.labels : List (String × LookDirection) :=
  [.ahead, .behind].map fun w => (w.label, w)

namespace Target

def toJson : Target → Json
  | .index n => .object [("index", .natural n.value.toNat)]
  | .name s => .object [("name", .string s)]

/-- A reference is either by number or by name, and no other member stands beside it. -/
def ofJson? : Json → Option Target
  | .object [("index", j)] => (j.word?.bind GroupNumber.ofUInt32?).map .index
  | .object [("name", j)] => j.string?.map .name
  | _ => none

end Target

/-! ### Blocks -/

namespace Block

/-- The tag comes first and the quantifier last. -/
def tagged (tag : String) (members : List (String × Json)) (q : Quantifier) : Json :=
  .object (("type", .string tag) :: members ++ [("quant", q.toJson)])

mutual

def toJson : Block → Json
  | .literal text q => tagged "literal" [("text", .string text)] q
  | .shorthand which q => tagged "predef" [("which", .string which.label)] q
  | .anchor which => .object [("type", .string "anchor"), ("which", .string which.label)]
  | .boundary which q => tagged "boundary" [("which", .string which.label)] q
  | .charClass payload q => tagged "charclass" [("payload", payload.toJson)] q
  | .group capturing name children q =>
    tagged "group" (("capturing", .bool capturing) :: optionalMember "name" name ++
      [("nodes", .array (toJsonAll children))]) q
  | .alternation branches q => tagged "alternation" [("branches", .array (toJsonBranches branches))] q
  | .look direction positive children q =>
    tagged "look" [("direction", .string direction.label), ("positive", .bool positive),
      ("nodes", .array (toJsonAll children))] q
  | .backref target q => tagged "backref" [("ref", target.toJson)] q

def toJsonAll : List Block → List Json
  | [] => []
  | b :: bs => b.toJson :: toJsonAll bs

def toJsonBranches : List (List Block) → List Json
  | [] => []
  | branch :: branches => .array (toJsonAll branch) :: toJsonBranches branches

end

/-- The fields of each kind of block. -/
def kinds : List (String × List String) :=
  [("literal", ["text", "quant"]), ("predef", ["which", "quant"]), ("anchor", ["which"]),
    ("boundary", ["which", "quant"]), ("charclass", ["payload", "quant"]),
    ("group", ["capturing", "name", "nodes", "quant"]), ("alternation", ["branches", "quant"]),
    ("look", ["direction", "positive", "nodes", "quant"]), ("backref", ["ref", "quant"])]

/-- Reads a block that holds no others. -/
def leaf? (kind : String) (members : List (String × Json)) : Option Block := do
  let q := Quantifier.ofBlockMembers? members
  match kind with
  | "literal" => return .literal (← required? string? "text" members) (← q)
  | "predef" => return .shorthand (← required? (labelled? Shorthand.labels) "which" members) (← q)
  | "anchor" => return .anchor (← required? (labelled? Anchor.labels) "which" members)
  | "boundary" => return .boundary (← required? (labelled? Boundary.labels) "which" members) (← q)
  | "charclass" => return .charClass (← required? CharClass.ofJson? "payload" members) (← q)
  | "backref" => return .backref (← required? Target.ofJson? "ref" members) (← q)
  | _ => none

def group? (members : List (String × Json)) (children : List Block) : Option Block := do
  return .group (← required? bool? "capturing" members)
    (← optional? nullable? none "name" members) children (← Quantifier.ofBlockMembers? members)

def look? (members : List (String × Json)) (children : List Block) : Option Block := do
  return .look (← required? (labelled? LookDirection.labels) "direction" members)
    (← required? bool? "positive" members) children (← Quantifier.ofBlockMembers? members)

mutual

/-- Reads a block, which may stand inside another one. -/
def read? (inner : Bool) (j : Json) : Option Block :=
  match _hj : j.tagged? inner "type" kinds with
  | none => none
  | some ("group", members) =>
    match _h : members.lookup "nodes" with
    | none => group? members []
    | some nodes => (readArray? true nodes).bind (group? members)
  | some ("look", members) =>
    match _h : members.lookup "nodes" with
    | none => look? members []
    | some nodes => (readArray? true nodes).bind (look? members)
  | some ("alternation", members) =>
    match _h : members.lookup "branches" with
    | some (.array items) =>
      (branchesOf? items).bind fun branches =>
        (Quantifier.ofBlockMembers? members).map (.alternation branches)
    | _ => none
  | some (kind, members) => leaf? kind members
termination_by sizeOf j
decreasing_by
  all_goals
    have := sizeOf_lt_of_tagged? ‹_› ‹_›
    try simp only [Json.array.sizeOf_spec] at this
    omega

def readArray? (inner : Bool) (j : Json) : Option (List Block) :=
  match j with
  | .array items => readItems? inner items
  | _ => none
termination_by sizeOf j

def readItems? (inner : Bool) (items : List Json) : Option (List Block) :=
  match items with
  | [] => some []
  | j :: items => (read? inner j).bind fun b => (readItems? inner items).map (b :: ·)
termination_by sizeOf items

def branchesOf? (items : List Json) : Option (List (List Block)) :=
  match items with
  | [] => some []
  | j :: items =>
    (readArray? true j).bind fun branch => (branchesOf? items).map (branch :: ·)
termination_by sizeOf items

end

theorem read?_eq (inner : Bool) (j : Json) :
    read? inner j =
      match j.tagged? inner "type" kinds with
      | none => none
      | some ("group", members) =>
        match members.lookup "nodes" with
        | none => group? members []
        | some nodes => (readArray? true nodes).bind (group? members)
      | some ("look", members) =>
        match members.lookup "nodes" with
        | none => look? members []
        | some nodes => (readArray? true nodes).bind (look? members)
      | some ("alternation", members) =>
        match members.lookup "branches" with
        | some (.array items) =>
          (branchesOf? items).bind fun branches =>
            (Quantifier.ofBlockMembers? members).map (.alternation branches)
        | _ => none
      | some (kind, members) => leaf? kind members := by
  rw [read?]
  split
  next => simp only [*]
  next => split <;> simp only [*]
  next => split <;> simp only [*]
  next => split <;> simp only [*]
  next => simp only [*]

/-- Reads a block that stands by itself. -/
def ofJson? (j : Json) : Option Block := read? false j

/-- Reads the blocks of a whole pattern. -/
def ofArray? (j : Json) : Option (List Block) := readArray? false j

end Block

end PatternBlocks
