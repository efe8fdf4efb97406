import PatternBlocks.Proofs.RoundTrip
import PatternBlocks.Proofs.Shape

/-!
Blocks keep what a syntax tree says. Reading the blocks of a pattern back gives its syntax tree
without spans, marks of escaping, members of classes and numbers of groups, which is all that is
lost: no term is left out, moved or grouped in another way, and quantifiers stay where they are.
-/
namespace PatternBlocks

/-- The span of all expressions that stand for no text in particular. -/
def Span.nowhere : Span := .point 0

open PatternBlocks.Span (nowhere)

namespace Regex

mutual

/-- The expression without what blocks do not record. -/
def erase : Regex → Regex
  | .empty _ => .empty nowhere
  | .char value _ _ => .char value false nowhere
  | .dot _ => .dot nowhere
  | .classEscape kind _ => .classEscape kind nowhere
  | .property p => .property { p with span := nowhere }
  | .bracket b => .bracket { b with items := [], span := nowhere }
  | .group (.capturing _ name) body _ => .group (.capturing 0 name) body.erase nowhere
  | .group .nonCapturing body _ => .group .nonCapturing body.erase nowhere
  | .assertion kind _ => .assertion kind nowhere
  | .look direction negated body _ => .look direction negated body.erase nowhere
  | .backref target _ => .backref target nowhere
  | .repetition count greedy body _ => .repetition count greedy body.erase nowhere
  | .concat terms _ => .concat (eraseAll terms) nowhere
  | .alternation branches _ => .alternation (eraseAll branches) nowhere

def eraseAll : List Regex → List Regex
  | [] => []
  | r :: rs => r.erase :: eraseAll rs

end

def ofChars (cs : List Char) : List Regex := cs.map fun ch => .char ch false nowhere

end Regex

/-! ### Blocks read back -/

/-- The count that a quantifier stands for, and whether it is greedy. -/
def Quantifier.count? : Quantifier → Option (Count × Bool)
  | .one => none
  | .zeroOrOne greedy => some (.zeroOrOne, greedy)
  | .oneOrMore greedy => some (.oneOrMore, greedy)
  | .zeroOrMore greedy => some (.zeroOrMore, greedy)
  | .exactly n greedy => some (.range n (some n), greedy)
  | .atLeast n greedy => some (.range n none, greedy)
  | .range least most greedy => some (.range least (some most), greedy)

def Quantifier.apply (q : Quantifier) (r : Regex) : Regex :=
  match q.count? with
  | none => r
  | some (count, greedy) => .repetition count greedy r nowhere

def Shorthand.expression : Shorthand → Regex
  | .digit => .classEscape .digit nowhere
  | .nonDigit => .classEscape .notDigit nowhere
  | .word => .classEscape .word nowhere
  | .nonWord => .classEscape .notWord nowhere
  | .space => .classEscape .space nowhere
  | .nonSpace => .classEscape .notSpace nowhere
  | .any => .dot nowhere

def Anchor.expression : Anchor → Regex
  | .start => .assertion .start nowhere
  | .stop => .assertion .stop nowhere

def Boundary.expression : Boundary → Regex
  | .word => .assertion .wordBoundary nowhere
  | .nonWord => .assertion .notWordBoundary nowhere

def Target.reference : Target → Reference
  | .index n => .number n.value
  | .name s => .name s

namespace Block

/-- The terms of a block, given the expression that its quantifier applies to. A literal without a
quantifier is as many terms as it has characters. -/
def termsOf (r : Regex) : Block → List Regex
  | .literal text .one => Regex.ofChars text.toList
  | b => [b.quant.apply r]

mutual

/-- What the quantifier of a block applies to. -/
def expression : Block → Regex
  | .literal text _ => Grammar.sequence (Regex.ofChars text.toList) nowhere
  | .shorthand which _ => which.expression
  | .anchor which => which.expression
  | .boundary which _ => which.expression
  | .charClass payload _ => .bracket ⟨payload.negate, [], payload.raw.getD "", nowhere⟩
  | .group true name children _ =>
    .group (.capturing 0 name) (Grammar.sequence (terms children) nowhere) nowhere
  | .group false _ children _ =>
    .group .nonCapturing (Grammar.sequence (terms children) nowhere) nowhere
  | .alternation branches _ => .alternation (expressions branches) nowhere
  | .look direction positive children _ =>
    .look direction (!positive) (Grammar.sequence (terms children) nowhere) nowhere
  | .backref target _ => .backref target.reference nowhere

/-- The terms that blocks in a row stand for. -/
def terms : List Block → List Regex
  | [] => []
  | b :: bs => b.termsOf b.expression ++ terms bs

def expressions : List (List Block) → List Regex
  | [] => []
  | branch :: branches => Grammar.sequence (terms branch) nowhere :: expressions branches

end

/-- The expression that a list of blocks is a pattern for. -/
def toRegex (bs : List Block) : Regex := Grammar.sequence (terms bs) nowhere

end Block

open Block (terms toRegex)

/-! ### Terms -/

theorem Quantifier.apply_ofCount (count : Count) (greedy : Bool) (r : Regex) :
    (ofCount greedy count).apply r = .repetition count greedy r nowhere := by
  cases count with
  | range least most =>
    cases most with
    | none => rfl
    | some most =>
      by_cases h : most = least
      · rw [ofCount, if_pos h, h]
        rfl
      · rw [ofCount, if_neg h]
        rfl
  | _ => rfl

namespace Block

theorem termsOf_eq {b : Block} (h : ∀ text, b ≠ .literal text .one) (r : Regex) :
    b.termsOf r = [b.quant.apply r] := by
  unfold termsOf
  split
  next => exact absurd rfl (h _)
  next => rfl

theorem expression_setQuant (b : Block) (q : Quantifier) :
    (b.setQuant q).expression = b.expression := by
  cases b with
  | group capturing => cases capturing <;> simp [setQuant, expression]
  | _ => simp [setQuant, expression]

end Block

theorem terms_append (as bs : List Block) : terms (as ++ bs) = terms as ++ terms bs := by
  induction as with
  | nil => rfl
  | cons a as ih => simp [terms, ih]

theorem terms_ofRun (run : List Char) : terms (Piece.ofRun run) = Regex.ofChars run.reverse := by
  unfold Piece.ofRun
  split
  next hrun => simp [List.isEmpty_iff.mp hrun, terms, Regex.ofChars]
  next => simp [Block.mkLiteral, terms, Block.termsOf]

namespace Piece

def terms : Piece → List Regex
  | .char ch => Regex.ofChars [ch]
  | .block b => b.termsOf b.expression
  | _ => []

/-- Merging characters into literals keeps all terms in their order. -/
theorem terms_join {ps : List Piece} (h : ∀ p ∈ ps, p.IsTerm) (run : List Char) :
    Block.terms (join run ps) = Regex.ofChars run.reverse ++ ps.flatMap terms := by
  induction ps generalizing run with
  | nil => simp [join, terms_ofRun]
  | cons p ps ih =>
    have hps : ∀ p ∈ ps, p.IsTerm := fun p hp => h p (List.mem_cons_of_mem _ hp)
    have hp := h p List.mem_cons_self
    cases p with
    | nothing => exact hp.elim
    | sequence => exact hp.elim
    | char ch =>
      rw [join, ih hps]
      simp [Regex.ofChars, terms]
    | block b =>
      rw [join_block, terms_append, terms_ofRun, Block.terms, ih hps]
      simp [Regex.ofChars, terms]

/-- The piece is a single term, namely this expression without a quantifier. -/
def ReadsAs (r : Regex) : Piece → Prop
  | .char ch => r = .char ch false nowhere
  | .block (.literal ..) | .block (.alternation ..) => False
  | .block b => b.quant = .one ∧ b.expression = r
  | _ => False

theorem ReadsAs.isTerm {p : Piece} {r : Regex} (h : p.ReadsAs r) : p.IsTerm := by
  cases p with
  | char => trivial
  | block b =>
    cases b with
    | alternation => exact h
    | _ => trivial
  | _ => exact h

theorem ReadsAs.isTerm_setQuant {p : Piece} {r : Regex} (h : p.ReadsAs r) {q : Quantifier} :
    (Piece.block (p.toBlock.setQuant q)).IsTerm := by
  cases p with
  | char => trivial
  | block b =>
    cases b with
    | alternation => exact h
    | _ => trivial
  | _ => exact h.elim

theorem ReadsAs.expression_toBlock {p : Piece} {r : Regex} (h : p.ReadsAs r) :
    p.toBlock.expression = r := by
  cases p with
  | char ch =>
    rw [show r = .char ch false nowhere from h]
    simp [toBlock, Block.mkLiteral, Block.expression, Regex.ofChars, Grammar.sequence]
  | block b =>
    cases b with
    | literal => exact h.elim
    | alternation => exact h.elim
    | _ => exact h.2
  | _ => exact h.elim

theorem ReadsAs.terms_eq {p : Piece} {r : Regex} (h : p.ReadsAs r) : p.terms = [r] := by
  cases p with
  | char ch => exact congrArg ([·]) (show r = .char ch false nowhere from h).symm
  | block b =>
    have hr := h.expression_toBlock
    cases b with
    | literal => exact h.elim
    | alternation => exact h.elim
    | _ =>
      rw [terms, Block.termsOf_eq (by nofun), h.1]
      exact congrArg ([·]) hr
  | _ => exact h.elim

/-- A quantifier behind a term applies to that term as a whole and to nothing else. -/
theorem ReadsAs.terms_setQuant {p : Piece} {r : Regex} (h : p.ReadsAs r) {q : Quantifier}
    (hq : q ≠ .one) (htakes : (p.toBlock.setQuant q).quant = q) :
    (Piece.block (p.toBlock.setQuant q)).terms = [q.apply r] := by
  have hliteral : ∀ text, p.toBlock.setQuant q ≠ .literal text .one := by
    intro text heq
    rw [heq] at htakes
    exact hq htakes.symm
  rw [terms, Block.termsOf_eq hliteral, htakes, Block.expression_setQuant, h.expression_toBlock]

end Piece

/-! ### Readings -/

namespace Regex

theorem erase_sequence (rs : List Regex) (span : Span) :
    (Grammar.sequence rs span).erase = Grammar.sequence (eraseAll rs) nowhere := by
  match rs with
  | [] => rfl
  | [_] => rfl
  | _ :: _ :: _ => rfl

end Regex

namespace Grammar

variable {mode : Mode}

/-- A leaf is a term by itself, and takes a quantifier if it may be repeated. -/
theorem readsAs_of_leaf {r : Regex} (h : Leaf mode r) {p : Piece} (hp : r.piece = .ok p) :
    p.ReadsAs r.erase ∧
      (mayRepeat mode.unicode r → ∀ q, (p.toBlock.setQuant q).quant = q) := by
  cases h with
  | char value escaped span =>
    cases hp
    exact ⟨rfl, fun _ _ => rfl⟩
  | dot span =>
    cases hp
    exact ⟨⟨rfl, rfl⟩, fun _ _ => rfl⟩
  | classEscape kind span =>
    cases hp
    exact ⟨⟨rfl, by cases kind <;> rfl⟩, fun _ _ => rfl⟩
  | property => cases hp
  | bracket =>
    cases hp
    exact ⟨⟨rfl, rfl⟩, fun _ _ => rfl⟩
  | assertion kind span =>
    cases hp
    refine ⟨?_, nofun⟩
    cases kind <;> exact ⟨rfl, rfl⟩
  | @number n span hpos =>
    cases hp.symm.trans (piece_number ⟨n, hpos⟩ span)
    exact ⟨⟨rfl, rfl⟩, fun _ _ => rfl⟩
  | name span =>
    cases hp
    exact ⟨⟨rfl, rfl⟩, fun _ _ => rfl⟩

/-- Parentheses are a term by themselves, given what stands inside them. -/
theorem readsAs_of_close {o : Opening} {r : Regex} {span : Span} {p : Piece}
    (h : toRegex p.toBlocks = r.erase) :
    (Piece.block (o.block p.toBlocks)).ReadsAs (o.close r span).erase ∧
      ∀ q, ((o.block p.toBlocks).setQuant q).quant = q := by
  match o with
  | .group (.capturing index name) =>
    refine ⟨⟨rfl, ?_⟩, fun _ => rfl⟩
    exact congrArg (fun body => Regex.group (.capturing 0 name) body nowhere) h
  | .group .nonCapturing =>
    refine ⟨⟨rfl, ?_⟩, fun _ => rfl⟩
    exact congrArg (fun body => Regex.group .nonCapturing body nowhere) h
  | .look direction negated =>
    refine ⟨⟨rfl, ?_⟩, fun _ => rfl⟩
    have hlook : (Block.look direction (!negated) p.toBlocks .one).expression =
        .look direction (!!negated) (toRegex p.toBlocks) nowhere := rfl
    rw [Bool.not_not, h] at hlook
    exact hlook

theorem terms_of_pieces {rs : List Regex} {ps : List Piece} (hps : Regex.pieces rs = .ok ps)
    (h : ∀ r ∈ rs, ∀ p, r.piece = .ok p → p.IsTerm ∧ p.terms = [r.erase]) :
    (∀ p ∈ ps, p.IsTerm) ∧ ps.flatMap Piece.terms = Regex.eraseAll rs := by
  induction rs generalizing ps with
  | nil =>
    cases hps
    exact ⟨List.forall_mem_nil _, rfl⟩
  | cons r rs ih =>
    obtain ⟨p, ps, hp, hrs, rfl⟩ := pieces_cons_eq_ok.mp hps
    obtain ⟨hterm, hterms⟩ := h r List.mem_cons_self p hp
    obtain ⟨hrest, htail⟩ := ih hrs fun r hr => h r (List.mem_cons_of_mem _ hr)
    constructor
    · exact List.forall_mem_cons.mpr ⟨hterm, hrest⟩
    · rw [List.flatMap_cons, hterms, htail]
      rfl

theorem expressions_of_pieces {rs : List Regex} {ps : List Piece}
    (hps : Regex.pieces rs = .ok ps)
    (h : ∀ r ∈ rs, ∀ p, r.piece = .ok p → toRegex p.toBlocks = r.erase) :
    Block.expressions (ps.map Piece.toBlocks) = Regex.eraseAll rs := by
  induction rs generalizing ps with
  | nil =>
    cases hps
    rfl
  | cons r rs ih =>
    obtain ⟨p, ps, hp, hrs, rfl⟩ := pieces_cons_eq_ok.mp hps
    have hhead := h r List.mem_cons_self p hp
    have htail := ih hrs fun r hr => h r (List.mem_cons_of_mem _ hr)
    rw [List.map_cons, Block.expressions, htail, Regex.eraseAll, ← hhead]
    rfl

theorem toRegex_of_sequence {rs : List Regex} {span : Span} {p : Piece}
    (hp : (sequence rs span).piece = .ok p)
    (h : ∀ r ∈ rs, ∀ p, r.piece = .ok p → p.IsTerm ∧ p.terms = [r.erase]) :
    toRegex p.toBlocks = (sequence rs span).erase := by
  obtain ⟨ps, hps⟩ := pieces_of_sequence hp
  obtain ⟨hterm, hterms⟩ := terms_of_pieces hps h
  rw [toRegex, toBlocks_of_sequence hps hp hterm, Piece.terms_join hterm, hterms,
    Regex.erase_sequence]
  rfl

theorem toRegex_of_choice {rs : Regex × List Regex} {span : Span} {p : Piece}
    (hp : (choice rs span).piece = .ok p)
    (h : ∀ r ∈ rs.1 :: rs.2, ∀ p, r.piece = .ok p → toRegex p.toBlocks = r.erase) :
    toRegex p.toBlocks = (choice rs span).erase := by
  match rs with
  | (r, []) => exact h r List.mem_cons_self p hp
  | (r, r' :: rs) =>
    obtain ⟨ps, hps, hblocks⟩ := pieces_of_choice hp
    have hbranches := expressions_of_pieces hps h
    obtain ⟨q, qs, -, hqs, rfl⟩ := pieces_cons_eq_ok.mp hps
    obtain ⟨q', qs, -, -, rfl⟩ := pieces_cons_eq_ok.mp hqs
    rw [hblocks]
    exact congrArg (Regex.alternation · nowhere) hbranches

mutual

theorem IsAtom.readsAs {r : Regex} {p : Piece} : IsAtom mode r → r.piece = .ok p →
    p.ReadsAs r.erase ∧ (mayRepeat mode.unicode r → ∀ q, (p.toBlock.setQuant q).quant = q)
  | .leaf leaf, hp => readsAs_of_leaf leaf hp
  | .close o span inside, hp => by
    obtain ⟨p, hbody, rfl⟩ := piece_of_close hp
    obtain ⟨hreads, htakes⟩ := readsAs_of_close (inside.toRegex_eq hbody)
    exact ⟨hreads, fun _ => htakes⟩

theorem IsTerm.terms_eq {r : Regex} {p : Piece} : IsTerm mode r → r.piece = .ok p →
    p.IsTerm ∧ p.terms = [r.erase]
  | .once atom, hp => by
    obtain ⟨hreads, -⟩ := atom.readsAs hp
    exact ⟨hreads.isTerm, hreads.terms_eq⟩
  | .repeated count greedy span atom may _, hp => by
    obtain ⟨p, hatom, rfl⟩ := map_eq_ok.mp hp
    obtain ⟨hreads, htakes⟩ := atom.readsAs hatom
    have hterms := hreads.terms_setQuant (ofCount_ne_one count greedy) (htakes may _)
    rw [Quantifier.apply_ofCount] at hterms
    exact ⟨hreads.isTerm_setQuant, hterms⟩

theorem IsAlternative.toRegex_eq {r : Regex} {p : Piece} : IsAlternative mode r →
    r.piece = .ok p → toRegex p.toBlocks = r.erase
  | .sequence span terms, hp => toRegex_of_sequence hp fun r hr _ hp => (terms r hr).terms_eq hp

/-- The blocks of an expression that is read are read back as that expression. -/
theorem IsDisjunction.toRegex_eq {r : Regex} {p : Piece} : IsDisjunction mode r →
    r.piece = .ok p → toRegex p.toBlocks = r.erase
  | .choice span alternatives, hp =>
    toRegex_of_choice hp fun r hr _ hp => (alternatives r hr).toRegex_eq hp

end

end Grammar

/-- Reading the blocks of a pattern back gives its syntax tree, up to what blocks do not record. -/
theorem Conversion.toRegex_blocks {pattern flags : String} {c : Conversion}
    (h : Conversion.ofPattern pattern (Flags.ofString flags) = .ok c) :
    ∃ p, Pattern.parse (Flags.ofString flags).unicode pattern = .ok p ∧
      toRegex c.blocks = p.root.erase := by
  obtain ⟨p, hparse, hblocks, -⟩ := Conversion.ofPattern_eq_ok h
  obtain ⟨q, hq, hqblocks⟩ := map_eq_ok.mp hblocks
  refine ⟨p, hparse, ?_⟩
  rw [← hqblocks]
  exact (Pattern.isDisjunction_of_parse hparse).toRegex_eq hq

theorem Conversion.toRegex_blocks_mixed :
    ∃ c p, Conversion.ofPattern "ab{2,2}c+?\\.(?:|x(?<n>[^-]$)|(?!\\b)*)\\1" (Flags.ofString "i") =
        .ok c ∧
      Pattern.parse (Flags.ofString "i").unicode "ab{2,2}c+?\\.(?:|x(?<n>[^-]$)|(?!\\b)*)\\1" =
        .ok p ∧
      toRegex c.blocks = p.root.erase := by
  have hcheck : (Conversion.ofPattern "ab{2,2}c+?\\.(?:|x(?<n>[^-]$)|(?!\\b)*)\\1"
      (Flags.ofString "i")).toOption.any fun _ => true := by decide +kernel
  obtain ⟨c, hc, -⟩ := Conversion.exists_of_any hcheck
  obtain ⟨p, hp⟩ := Conversion.toRegex_blocks hc
  exact ⟨c, p, hc, hp⟩

end PatternBlocks
