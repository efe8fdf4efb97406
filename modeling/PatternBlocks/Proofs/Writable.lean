import PatternBlocks.Block.Render
import PatternBlocks.Grammar.Pattern

/-!
Which lists of blocks the grammar has a pattern for. Each block is looked at on its own; only
references, the names of groups and the nesting of parentheses concern the list as a whole.
-/
namespace PatternBlocks

/-- The bounds of a quantifier are in order and differ. -/
def Quantifier.InOrder : Quantifier → Prop
  | .range least most _ => least < most
  | _ => True

/-- A whole text that is read as the name of a group. -/
def GroupName.IsName (s : String) : Prop :=
  ∃ c, (Cursor.ofString s).groupName? = some (s, c) ∧ c.atEnd

/-- The text of a class is by itself a pattern, and that pattern is one bracket expression. -/
def CharClass.StandsAlone (unicode : Bool) (c : CharClass) : Prop :=
  ∃ p b, Pattern.parse unicode c.text = .ok p ∧ p.root = .bracket b

namespace Block

mutual

/-- The block and the blocks inside it, in the order in which their texts begin. -/
def nodes : Block → List Block
  | .group capturing name children q => .group capturing name children q :: nodesOfAll children
  | .look direction positive children q =>
    .look direction positive children q :: nodesOfAll children
  | .alternation branches q => .alternation branches q :: nodesOfBranches branches
  | b => [b]

def nodesOfAll : List Block → List Block
  | [] => []
  | b :: bs => b.nodes ++ nodesOfAll bs

def nodesOfBranches : List (List Block) → List Block
  | [] => []
  | branch :: branches => nodesOfAll branch ++ nodesOfBranches branches

end

theorem mem_nodesOfAll {x : Block} {bs : List Block} :
    x ∈ nodesOfAll bs ↔ ∃ b ∈ bs, x ∈ b.nodes := by
  induction bs with
  | nil => simp [nodesOfAll]
  | cons b bs ih => simp [nodesOfAll, ih]

theorem mem_nodesOfBranches {x : Block} {branches : List (List Block)} :
    x ∈ nodesOfBranches branches ↔ ∃ branch ∈ branches, x ∈ nodesOfAll branch := by
  induction branches with
  | nil => simp [nodesOfBranches]
  | cons branch branches ih => simp [nodesOfBranches, ih]

/-- The name, if any, under which a block captures. -/
def capture? : Block → Option (Option String)
  | .group true name _ _ => some name
  | _ => none

/-- The capturing groups in the order of their opening parentheses, by their names. -/
def captureNames (bs : List Block) : List (Option String) := bs.filterMap capture?

mutual

/-- How deep the parentheses nest that a block is written with. -/
def depth : Block → Nat
  | .group _ _ children _ | .look _ _ children _ => depthOfBody children + 1
  | .alternation branches _ => depthOfBranches branches + 1
  | _ => 0

def depthOfAll : List Block → Nat
  | [] => 0
  | b :: bs => max b.depth (depthOfAll bs)

/-- A lone unquantified alternation in parentheses has none of its own. -/
def depthOfBody : List Block → Nat
  | [] => 0
  | [.alternation branches .one] => depthOfBranches branches
  | b :: bs => max b.depth (depthOfAll bs)

def depthOfBranches : List (List Block) → Nat
  | [] => 0
  | branch :: branches => max (depthOfAll branch) (depthOfBranches branches)

end

theorem depthOfAll_le_iff {bs : List Block} {levels : Nat} :
    depthOfAll bs ≤ levels ↔ ∀ b ∈ bs, b.depth ≤ levels := by
  induction bs with
  | nil => simp [depthOfAll]
  | cons b bs ih => rw [depthOfAll, Nat.max_le, ih, List.forall_mem_cons]

theorem depthOfBody_le (bs : List Block) : depthOfBody bs ≤ depthOfAll bs := by
  unfold depthOfBody
  split
  · exact Nat.zero_le _
  · rw [depthOfAll, depth]
    omega
  · exact Nat.le_refl _

/-- What the grammar asks of a block in a pattern with the given capturing groups. -/
def Admissible (unicode : Bool) (captures : List (Option String)) (b : Block) : Prop :=
  b.quant.InOrder ∧
  match b with
  | .literal text _ => text ≠ ""
  | .shorthand .. | .anchor _ | .alternation .. => True
  | .boundary _ q => q = .one
  | .charClass payload _ => payload.raw = none ∨ payload.StandsAlone unicode
  | .group capturing name _ _ => ∀ s, name = some s → capturing ∧ GroupName.IsName s
  | .look direction _ _ q => direction = .behind ∨ unicode → q = .one
  | .backref (.index n) _ => n.value.toNat ≤ captures.length
  | .backref (.name s) _ => some s ∈ captures

/-- A list of blocks within the restrictions of the grammar. -/
structure Writable (unicode : Bool) (bs : List Block) : Prop where
  admissible : ∀ b ∈ nodesOfAll bs, b.Admissible unicode (captureNames (nodesOfAll bs))
  distinct : ((captureNames (nodesOfAll bs)).filterMap id).Nodup
  shallow : depthOfAll bs ≤ nestingLimit

end Block

end PatternBlocks
