import Mathlib.Data.List.Chain
import PatternBlocks.Proofs.RoundTrip
import PatternBlocks.Proofs.Shape

/-!
The normal form of blocks that are read. Neighbouring characters are one literal, a quantifier
stands only where the grammar has one, and an alternation is all there is in its parentheses.
-/
namespace PatternBlocks

namespace Block

/-- A literal without a quantifier. -/
def isRun : Block → Bool
  | .literal _ q => q.isOne
  | _ => false

/-- Where a sequence of blocks stands: it is a whole pattern or the whole inside of parentheses, or
it is a branch of an alternation. -/
inductive Place where
  | whole
  | branch
  deriving DecidableEq, Repr

/-- What the normal form asks of a block by itself. -/
def Normal (unicode : Bool) (b : Block) : Prop :=
  b.quant.InOrder ∧
  match b with
  | .literal text q => text ≠ "" ∧ (q ≠ .one → text.length = 1)
  | .shorthand .. | .anchor _ | .backref .. => True
  | .boundary _ q => q = .one
  | .charClass payload _ =>
    ∃ body, payload.raw = some body ∧ payload.toggles = (CharClass.ofBody body).toggles ∧
      payload.custom = (CharClass.ofBody body).custom
  | .group capturing name _ _ => capturing = false → name = none
  | .alternation branches q => q = .one ∧ 2 ≤ branches.length
  | .look direction _ _ q => direction = .behind ∨ unicode → q = .one

/-- What the normal form asks of a sequence of blocks. -/
structure NormalSequence (unicode : Bool) (place : Place) (bs : List Block) : Prop where
  normal : ∀ b ∈ bs, b.Normal unicode
  separated : bs.IsChain fun a b => ¬(a.isRun ∧ b.isRun)
  alone : ∀ branches q, .alternation branches q ∈ bs →
    place = .whole ∧ bs = [.alternation branches q]

mutual

/-- The sequences inside a block, with the places where they stand. -/
def sequencesIn : Block → List (Place × List Block)
  | .group _ _ children _ | .look _ _ children _ => (.whole, children) :: sequencesInAll children
  | .alternation branches _ => sequencesInBranches branches
  | _ => []

def sequencesInAll : List Block → List (Place × List Block)
  | [] => []
  | b :: bs => b.sequencesIn ++ sequencesInAll bs

def sequencesInBranches : List (List Block) → List (Place × List Block)
  | [] => []
  | branch :: branches =>
    (.branch, branch) :: sequencesInAll branch ++ sequencesInBranches branches

end

/-- The sequences of a pattern, at every depth. -/
def sequences (bs : List Block) : List (Place × List Block) := (.whole, bs) :: sequencesInAll bs

def AllNormal (unicode : Bool) (xs : List (Place × List Block)) : Prop :=
  ∀ x ∈ xs, NormalSequence unicode x.1 x.2

theorem mem_sequencesInAll {x : Place × List Block} {bs : List Block} :
    x ∈ sequencesInAll bs ↔ ∃ b ∈ bs, x ∈ b.sequencesIn := by
  induction bs with
  | nil => simp [sequencesInAll]
  | cons b bs ih => simp [sequencesInAll, ih]

/-! ### Names of groups -/

/-- The name that a block has without capturing. -/
def misname? : Block → Option String
  | .group false name _ _ => name
  | _ => none

mutual

theorem misnamed?_eq : (b : Block) → b.misnamed? = b.nodes.findSome? misname?
  | .literal .. | .shorthand .. | .anchor _ | .boundary .. | .charClass .. | .backref .. => rfl
  | .group false (some _) _ _ => rfl
  | .group false none children _ | .group true none children _ | .group true (some _) children _
  | .look _ _ children _ => misnamedInAll?_eq children
  | .alternation branches _ => misnamedInBranches?_eq branches

/-- The check for misnamed groups goes through all blocks in the order of their texts. -/
theorem misnamedInAll?_eq :
    (bs : List Block) → misnamedInAll? bs = (nodesOfAll bs).findSome? misname?
  | [] => rfl
  | b :: bs => by
    rw [misnamedInAll?, nodesOfAll, List.findSome?_append, misnamed?_eq b, misnamedInAll?_eq bs]
    cases b.nodes.findSome? misname? <;> rfl

theorem misnamedInBranches?_eq : (branches : List (List Block)) →
    misnamedInBranches? branches = (nodesOfBranches branches).findSome? misname?
  | [] => rfl
  | branch :: branches => by
    rw [misnamedInBranches?, nodesOfBranches, List.findSome?_append, misnamedInAll?_eq branch,
      misnamedInBranches?_eq branches]
    cases (nodesOfAll branch).findSome? misname? <;> rfl

end

theorem check_eq_ok {bs : List Block} (h : ∀ b ∈ nodesOfAll bs, b.misname? = none) :
    check bs = .ok () := by
  rw [check, misnamedInAll?_eq, List.findSome?_eq_none_iff.mpr h]

theorem misname?_of_admissible {unicode : Bool} {captures : List (Option String)} {b : Block}
    (h : b.Admissible unicode captures) : b.misname? = none := by
  unfold misname?
  split
  next name _ _ =>
    cases name with
    | none => rfl
    | some s => cases (h.2 s rfl).1
  next => rfl

end Block

open Block (Place NormalSequence AllNormal sequencesInAll sequencesInBranches)

/-! ### Joining terms -/

/-- A term in normal form: a character, or a block that no characters merge with. -/
def Piece.Normal (unicode : Bool) : Piece → Prop
  | .char _ => True
  | .block b => b.Normal unicode ∧ b.isRun = false ∧ AllNormal unicode b.sequencesIn ∧
    (Piece.block b).IsTerm
  | _ => False

theorem Piece.Normal.isTerm {unicode : Bool} {p : Piece} (h : p.Normal unicode) : p.IsTerm := by
  cases p with
  | char => trivial
  | block => exact h.2.2.2
  | _ => exact h

theorem separated_join {unicode : Bool} {ps : List Piece} (h : ∀ p ∈ ps, p.Normal unicode)
    (run : List Char) :
    (Piece.join run ps).IsChain fun a b => ¬(a.isRun ∧ b.isRun) := by
  have hofRun (run : List Char) :
      (Piece.ofRun run).IsChain fun a b => ¬(a.isRun ∧ b.isRun) := by
    unfold Piece.ofRun
    split
    · exact .nil
    · exact .singleton _
  induction ps generalizing run with
  | nil => exact hofRun run
  | cons p ps ih =>
    have hps : ∀ p ∈ ps, p.Normal unicode := fun p hp => h p (List.mem_cons_of_mem _ hp)
    have hp := h p List.mem_cons_self
    cases p with
    | nothing => exact hp.elim
    | sequence => exact hp.elim
    | char ch => exact ih hps (ch :: run)
    | block b =>
      have hb : b.isRun = false := hp.2.1
      -- The block between the literals on both sides is no literal that could merge with them.
      rw [Piece.join_block, List.isChain_append, List.isChain_cons]
      refine ⟨hofRun run, ⟨?_, ih hps []⟩, ?_⟩
      · intro y _
        simp [hb]
      · intro x _ y hy
        obtain rfl : b = y := Option.some.inj hy
        simp [hb]

/-- Joined terms are in normal form wherever they stand, and hold no alternation by itself. -/
theorem normal_join {unicode : Bool} {ps : List Piece} (h : ∀ p ∈ ps, p.Normal unicode)
    (place : Place) :
    NormalSequence unicode place (Piece.join [] ps) ∧
      AllNormal unicode (sequencesInAll (Piece.join [] ps)) := by
  have hterms : ∀ p ∈ ps, p.IsTerm := fun p hp => (h p hp).isTerm
  refine ⟨⟨?_, separated_join h [], ?_⟩, ?_⟩
  · intro b hb
    rcases Piece.mem_join hterms hb with ⟨text, htext, rfl⟩ | hb
    · exact ⟨trivial, htext, fun hq => absurd rfl hq⟩
    · exact (h _ hb).1
  · intro branches q hb
    rcases Piece.mem_join hterms hb with ⟨text, -, heq⟩ | hb
    · cases heq
    · exact (hterms _ hb).elim
  · intro x hx
    obtain ⟨b, hb, hx⟩ := Block.mem_sequencesInAll.mp hx
    rcases Piece.mem_join hterms hb with ⟨text, -, rfl⟩ | hb
    · cases hx
    · exact (h _ hb).2.2.1 x hx

/-- Branches in normal form make up the inside of parentheses in normal form. -/
theorem normal_joinBranches {unicode : Bool} {branches : List (List Block)}
    (hne : branches ≠ [])
    (h : ∀ branch ∈ branches, ∀ place, NormalSequence unicode place branch ∧
      AllNormal unicode (sequencesInAll branch)) :
    NormalSequence unicode .whole (Block.joinBranches branches) ∧
      AllNormal unicode (sequencesInAll (Block.joinBranches branches)) := by
  have hinside : AllNormal unicode (sequencesInBranches branches) := by
    clear hne
    induction branches with
    | nil => exact nofun
    | cons branch branches ih =>
      obtain ⟨hbranch, hinside⟩ := h branch List.mem_cons_self .branch
      have hrest := ih fun branch hb => h branch (List.mem_cons_of_mem _ hb)
      intro x hx
      rw [sequencesInBranches, List.cons_append, List.mem_cons, List.mem_append] at hx
      rcases hx with rfl | hx | hx
      · exact hbranch
      · exact hinside x hx
      · exact hrest x hx
  match branches with
  | [] => exact absurd rfl hne
  | [branch] => exact h branch List.mem_cons_self .whole
  | first :: second :: rest =>
    have hlength : 2 ≤ (first :: second :: rest).length := by simp
    refine ⟨⟨?_, .singleton _, ?_⟩, ?_⟩
    · intro b hb
      obtain rfl := List.mem_singleton.mp hb
      exact ⟨trivial, rfl, hlength⟩
    · intro branches q hb
      rw [List.mem_singleton.mp hb]
      exact ⟨rfl, rfl⟩
    · intro x hx
      obtain ⟨b, hb, hx⟩ := Block.mem_sequencesInAll.mp hx
      obtain rfl := List.mem_singleton.mp hb
      exact hinside x hx

/-! ### Terms -/

namespace Grammar

variable {mode : Mode}

/-- A character with a quantifier is a literal of its own. -/
theorem normal_char {unicode : Bool} {q : Quantifier} (h : q.InOrder) (ch : Char) :
    ((Piece.char ch).repeated q).Normal unicode := by
  unfold Piece.repeated
  split
  next => trivial
  next hq =>
    have hlength : (String.singleton ch).length = 1 := String.length_singleton
    have htext : String.singleton ch ≠ "" := by
      intro hempty
      simp [hempty] at hlength
    refine ⟨⟨h, htext, fun _ => hlength⟩, ?_, nofun, trivial⟩
    exact decide_eq_false hq

theorem normal_leaf {r : Regex} (h : Leaf mode r) {p : Piece} (hp : r.piece = .ok p)
    {q : Quantifier} (hq : q.InOrder) (hmay : q = .one ∨ mayRepeat mode.unicode r) :
    (p.repeated q).Normal mode.unicode := by
  cases h with
  | char value escaped span =>
    cases hp
    exact normal_char hq value
  | dot span =>
    cases hp
    rw [Piece.repeated_block rfl]
    exact ⟨⟨hq, trivial⟩, rfl, nofun, trivial⟩
  | classEscape kind span =>
    cases hp
    rw [Piece.repeated_block rfl]
    exact ⟨⟨hq, trivial⟩, rfl, nofun, trivial⟩
  | property => cases hp
  | @bracket b =>
    cases hp
    rw [Piece.repeated_block rfl]
    exact ⟨⟨hq, b.raw, rfl, rfl, rfl⟩, rfl, nofun, trivial⟩
  | assertion kind span =>
    obtain rfl : q = .one := hmay.resolve_right nofun
    cases hp
    cases kind <;> exact ⟨⟨trivial, by trivial⟩, rfl, nofun, trivial⟩
  | @number n span hpos =>
    cases hp.symm.trans (piece_number ⟨n, hpos⟩ span)
    rw [Piece.repeated_block rfl]
    exact ⟨⟨hq, trivial⟩, rfl, nofun, trivial⟩
  | name span =>
    cases hp
    rw [Piece.repeated_block rfl]
    exact ⟨⟨hq, trivial⟩, rfl, nofun, trivial⟩

/-- Parentheses are in normal form if what they enclose is. -/
theorem normal_close {unicode : Bool} {o : Opening} {children : List Block}
    (h : NormalSequence unicode .whole children ∧ AllNormal unicode (sequencesInAll children))
    {q : Quantifier} (hq : q.InOrder) (hmay : q = .one ∨ o.mayRepeat unicode) :
    (Piece.block ((o.block children).setQuant q)).Normal unicode := by
  have hinside : AllNormal unicode ((.whole, children) :: sequencesInAll children) :=
    List.forall_mem_cons.mpr h
  match o with
  | .group .nonCapturing => exact ⟨⟨hq, fun _ => rfl⟩, rfl, hinside, trivial⟩
  | .group (.capturing index name) => exact ⟨⟨hq, nofun⟩, rfl, hinside, trivial⟩
  | .look direction negated =>
    refine ⟨⟨hq, fun hstrict => ?_⟩, rfl, hinside, trivial⟩
    apply hmay.resolve_right
    intro hlook
    simp only [Opening.mayRepeat, Bool.and_eq_true, decide_eq_true_eq] at hlook
    obtain ⟨rfl, hunicode⟩ := hlook
    cases unicode with
    | true => cases hunicode
    | false => rcases hstrict with h | h <;> cases h

/-! ### Readings -/

theorem of_mem_pieces {P : Piece → Prop} {rs : List Regex} {ps : List Piece}
    (hps : Regex.pieces rs = .ok ps) (h : ∀ r ∈ rs, ∀ p, r.piece = .ok p → P p) :
    ∀ p ∈ ps, P p := by
  induction rs generalizing ps with
  | nil =>
    cases hps
    exact List.forall_mem_nil _
  | cons r rs ih =>
    obtain ⟨p, ps, hp, hrs, rfl⟩ := pieces_cons_eq_ok.mp hps
    have hrest := ih hrs fun r hr => h r (List.mem_cons_of_mem _ hr)
    exact List.forall_mem_cons.mpr ⟨h r List.mem_cons_self p hp, hrest⟩

mutual

theorem IsAtom.normal {r : Regex} {p : Piece} {q : Quantifier} : IsAtom mode r →
    r.piece = .ok p → q.InOrder → (q = .one ∨ mayRepeat mode.unicode r) →
    (p.repeated q).Normal mode.unicode
  | .leaf leaf, hp, hq, hmay => normal_leaf leaf hp hq hmay
  | .close o span inside, hp, hq, hmay => by
    obtain ⟨p, hbody, rfl⟩ := piece_of_close hp
    rw [mayRepeat_close] at hmay
    rw [Piece.repeated_block (setQuant_one_block ..)]
    exact normal_close (inside.normal hbody) hq hmay

theorem IsTerm.normal {r : Regex} {p : Piece} : IsTerm mode r → r.piece = .ok p →
    p.Normal mode.unicode
  | .once atom, hp => atom.normal (q := .one) hp trivial (.inl rfl)
  | .repeated count greedy span atom may order, hp => by
    obtain ⟨p, hatom, rfl⟩ := map_eq_ok.mp hp
    have hnormal := atom.normal hatom (inOrder_ofCount order greedy) (.inr may)
    rwa [Piece.repeated, if_neg (ofCount_ne_one count greedy)] at hnormal

theorem IsAlternative.normal {r : Regex} {p : Piece} : IsAlternative mode r →
    r.piece = .ok p → ∀ place, NormalSequence mode.unicode place p.toBlocks ∧
      AllNormal mode.unicode (sequencesInAll p.toBlocks)
  | .sequence span terms, hp => by
    obtain ⟨ps, hps⟩ := pieces_of_sequence hp
    have hterms := of_mem_pieces hps fun r hr _ hp => (terms r hr).normal hp
    rw [toBlocks_of_sequence hps hp fun p hp => (hterms p hp).isTerm]
    exact normal_join hterms

/-- The blocks of an expression that is read are in normal form. -/
theorem IsDisjunction.normal {r : Regex} {p : Piece} : IsDisjunction mode r →
    r.piece = .ok p → NormalSequence mode.unicode .whole p.toBlocks ∧
      AllNormal mode.unicode (sequencesInAll p.toBlocks)
  | .choice span alternatives, hp => by
    obtain ⟨ps, hps, hblocks⟩ := pieces_of_choice hp
    have hbranches := of_mem_pieces hps fun r hr _ hp => (alternatives r hr).normal hp
    have hne : ps.map Piece.toBlocks ≠ [] := by
      obtain ⟨q, qs, -, -, rfl⟩ := pieces_cons_eq_ok.mp hps
      exact nofun
    rw [hblocks]
    exact normal_joinBranches hne (List.forall_mem_map.mpr hbranches)

end

end Grammar

/-- The blocks of a pattern are in normal form at every depth, and they pass the check that editors
make. -/
theorem Conversion.normal_blocks {pattern flags : String} {c : Conversion}
    (h : Conversion.ofPattern pattern (Flags.ofString flags) = .ok c) :
    (∀ x ∈ Block.sequences c.blocks,
      NormalSequence (Flags.ofString flags).unicode x.1 x.2) ∧
      Block.check c.blocks = .ok () := by
  obtain ⟨p, hparse, hblocks, -⟩ := Conversion.ofPattern_eq_ok h
  obtain ⟨q, hq, hqblocks⟩ := map_eq_ok.mp hblocks
  constructor
  · have hnormal := (Pattern.isDisjunction_of_parse hparse).normal hq
    rw [← hqblocks]
    exact List.forall_mem_cons.mpr hnormal
  · obtain ⟨hsettled, -⟩ := Conversion.settled_of_ofPattern h
    apply Block.check_eq_ok
    intro b hb
    exact Block.misname?_of_admissible (hsettled.admissible b hb)

theorem Conversion.normal_blocks_mixed :
    ∃ c, Conversion.ofPattern "ab*(?:|c\x41[^-])+|(?<n>(?=d)|x{2,5}?)" (Flags.ofString "u") =
        .ok c ∧
      (∀ x ∈ Block.sequences c.blocks,
        NormalSequence (Flags.ofString "u").unicode x.1 x.2) ∧
      Block.check c.blocks = .ok () := by
  have hcheck : (Conversion.ofPattern "ab*(?:|c\x41[^-])+|(?<n>(?=d)|x{2,5}?)"
      (Flags.ofString "u")).toOption.any fun _ => true := by decide +kernel
  obtain ⟨c, hc, -⟩ := Conversion.exists_of_any hcheck
  exact ⟨c, hc, Conversion.normal_blocks hc⟩

end PatternBlocks
