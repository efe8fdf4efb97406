import PatternBlocks.Block.Basic

/-! Equality of blocks is decidable. -/
namespace PatternBlocks.Block

mutual

def same : Block → Block → Bool
  | .literal text q, .literal text' q' => text = text' && q = q'
  | .shorthand which q, .shorthand which' q' => which = which' && q = q'
  | .anchor which, .anchor which' => which = which'
  | .boundary which q, .boundary which' q' => which = which' && q = q'
  | .charClass payload q, .charClass payload' q' => payload = payload' && q = q'
  | .group capturing name children q, .group capturing' name' children' q' =>
    capturing = capturing' && name = name' && sameAll children children' && q = q'
  | .alternation branches q, .alternation branches' q' => sameBranches branches branches' && q = q'
  | .look direction positive children q, .look direction' positive' children' q' =>
    direction = direction' && positive = positive' && sameAll children children' && q = q'
  | .backref target q, .backref target' q' => target = target' && q = q'
  | _, _ => false

def sameAll : List Block → List Block → Bool
  | [], [] => true
  | a :: as, b :: bs => same a b && sameAll as bs
  | _, _ => false

def sameBranches : List (List Block) → List (List Block) → Bool
  | [], [] => true
  | a :: as, b :: bs => sameAll a b && sameBranches as bs
  | _, _ => false

end

mutual

theorem same_iff : (a b : Block) → (same a b ↔ a = b)
  | .literal .., b => by cases b <;> simp [same]
  | .shorthand .., b => by cases b <;> simp [same]
  | .anchor _, b => by cases b <;> simp [same]
  | .boundary .., b => by cases b <;> simp [same]
  | .charClass .., b => by cases b <;> simp [same]
  | .group _ _ children _, b => by
    cases b <;> simp [same, sameAll_iff children, and_assoc]
  | .alternation branches _, b => by cases b <;> simp [same, sameBranches_iff branches]
  | .look _ _ children _, b => by cases b <;> simp [same, sameAll_iff children, and_assoc]
  | .backref .., b => by cases b <;> simp [same]

theorem sameAll_iff : (as bs : List Block) → (sameAll as bs ↔ as = bs)
  | [], bs => by cases bs <;> simp [sameAll]
  | a :: as, bs => by cases bs <;> simp [sameAll, same_iff a, sameAll_iff as]

theorem sameBranches_iff : (as bs : List (List Block)) → (sameBranches as bs ↔ as = bs)
  | [], bs => by cases bs <;> simp [sameBranches]
  | a :: as, bs => by cases bs <;> simp [sameBranches, sameAll_iff a, sameBranches_iff as]

end

instance : DecidableEq Block := fun a b => decidable_of_iff _ (same_iff a b)

end PatternBlocks.Block
