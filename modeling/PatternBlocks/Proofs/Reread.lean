import PatternBlocks.Block.OfRegex
import PatternBlocks.Proofs.Writable

/-!
What a list of blocks becomes when its pattern is read again: neighbouring literals merge, a
quantified literal keeps its quantifier on its last character only, alternations become groups
where they are written as such, and a class keeps its body. The pattern stays the same.
-/
namespace PatternBlocks

namespace CharClass

/-- The text between the brackets. -/
def inside (c : CharClass) : List Char := (if c.negate then ['^'] else []) ++ c.body

/-- The class with a given text between its brackets. -/
def ofInside : List Char → CharClass
  | '^' :: body => { ofBody (String.ofList body) with negate := true }
  | body => ofBody (String.ofList body)

def reread (c : CharClass) : CharClass := ofInside c.inside

theorem render_eq (c : CharClass) : c.render = '[' :: c.inside ++ [']'] := rfl

theorem render_reread (c : CharClass) : c.reread.render = c.render := by
  simp only [render_eq, reread]
  generalize c.inside = text
  unfold ofInside
  split <;> simp [inside, ofBody, body]

end CharClass

namespace Piece

/-- What a single term can contribute: a character, or a block other than an alternation. -/
def IsTerm : Piece → Prop
  | .char _ => True
  | .block (.alternation ..) => False
  | .block _ => True
  | _ => False

/-- The text of terms one after the other. -/
def renderAll (afterNumber : Bool) : List Piece → List Char
  | [] => []
  | .char ch :: ps => Block.literalText afterNumber [ch] ++ renderAll false ps
  | .block b :: ps => b.renderAfter afterNumber ++ renderAll b.isBareNumber ps
  | _ :: ps => renderAll afterNumber ps

end Piece

namespace Block

/-- A quantifier behind a literal applies to its last character. -/
def literalPieces (q : Quantifier) : List Char → List Piece
  | [] => []
  | [ch] => [if q = .one then .char ch else .block (.literal (String.singleton ch) q)]
  | ch :: rest => .char ch :: literalPieces q rest

/-- The branches as the inside of a group. -/
def joinBranches : List (List Block) → List Block
  | [] => []
  | [branch] => branch
  | branches => [.alternation branches .one]

mutual

/-- The terms as which a block is read again. -/
def pieces : Block → List Piece
  | .literal text q => literalPieces q text.toList
  | .charClass payload q => [.block (.charClass payload.reread q)]
  | .group capturing name children q => [.block (.group capturing name (rereadBody children) q)]
  | .alternation branches q => [.block (.group false none (joinBranches (rereadEach branches)) q)]
  | .look direction positive children q =>
    [.block (.look direction positive (rereadBody children) q)]
  | b => [.block b]

def piecesOfAll : List Block → List Piece
  | [] => []
  | b :: bs => b.pieces ++ piecesOfAll bs

def rereadBody : List Block → List Block
  | [] => []
  | [.alternation branches .one] => joinBranches (rereadEach branches)
  | b :: bs => Piece.join [] (b.pieces ++ piecesOfAll bs)

def rereadEach : List (List Block) → List (List Block)
  | [] => []
  | branch :: branches => Piece.join [] (piecesOfAll branch) :: rereadEach branches

end

/-- The blocks as which a list of blocks is read again. -/
def reread (bs : List Block) : List Block := Piece.join [] (piecesOfAll bs)

/-- Whether parentheses around the blocks are all that delimits an alternation. -/
def IsLoneAlternation (bs : List Block) : Prop := ∃ branches, bs = [.alternation branches .one]

theorem rereadBody_eq {bs : List Block} (h : ¬IsLoneAlternation bs) :
    rereadBody bs = reread bs := by
  unfold rereadBody
  split
  · rfl
  · exact absurd ⟨_, rfl⟩ h
  · rfl

theorem renderBody_eq {bs : List Block} (h : ¬IsLoneAlternation bs) :
    renderBody bs = renderAll false bs := by
  unfold renderBody
  split
  · rfl
  · exact absurd ⟨_, rfl⟩ h
  · rfl

theorem depthOfBody_eq {bs : List Block} (h : ¬IsLoneAlternation bs) :
    depthOfBody bs = depthOfAll bs := by
  unfold depthOfBody
  split
  · rfl
  · exact absurd ⟨_, rfl⟩ h
  · rfl

end Block

namespace Piece

/-- Joined terms are the blocks among them and literals. -/
theorem mem_join {ps : List Piece} (h : ∀ p ∈ ps, p.IsTerm) {run : List Char} {b : Block}
    (hb : b ∈ join run ps) : (∃ text, text ≠ "" ∧ b = .literal text .one) ∨ .block b ∈ ps := by
  have hrun {run : List Char} (hb : b ∈ ofRun run) :
      ∃ text, text ≠ "" ∧ b = .literal text .one := by
    unfold ofRun at hb
    split at hb
    · cases hb
    next hne =>
      refine ⟨_, ?_, List.mem_singleton.mp hb⟩
      simpa using hne
  induction ps generalizing run with
  | nil => exact .inl (hrun hb)
  | cons p ps ih =>
    have hps : ∀ p ∈ ps, p.IsTerm := fun p hp => h p (List.mem_cons_of_mem _ hp)
    have hp := h p List.mem_cons_self
    have next {run : List Char} (hb : b ∈ join run ps) :
        (∃ text, text ≠ "" ∧ b = .literal text .one) ∨ .block b ∈ p :: ps := by
      rcases ih hps hb with hlit | hmem
      · exact .inl hlit
      · exact .inr (List.mem_cons_of_mem _ hmem)
    cases p with
    | nothing => exact hp.elim
    | sequence bs => exact hp.elim
    | char ch => exact next hb
    | block b' =>
      simp only [join, toBlock, List.mem_append, List.mem_cons] at hb
      rcases hb with hb | rfl | hb
      · exact .inl (hrun hb)
      · exact .inr List.mem_cons_self
      · exact next hb

theorem not_isLoneAlternation_join {ps : List Piece} (h : ∀ p ∈ ps, p.IsTerm) (run : List Char) :
    ¬Block.IsLoneAlternation (join run ps) := by
  rintro ⟨branches, hb⟩
  have hmem : .alternation branches .one ∈ join run ps := by simp [hb]
  rcases mem_join h hmem with ⟨text, -, hlit⟩ | hblock
  · cases hlit
  · exact h _ hblock

end Piece

theorem quote_cons (specials : List Char) (ch : Char) (cs : List Char) :
    quote specials (ch :: cs) = quote specials [ch] ++ quote specials cs := by
  simp [quote]

theorem quote_append (specials : List Char) (as bs : List Char) :
    quote specials (as ++ bs) = quote specials as ++ quote specials bs := by
  simp [quote]

namespace Block

theorem literalText_false (text : List Char) :
    literalText false text = quote literalSpecials text :=
  rfl

/-- Only the first character of a literal minds what stands before it. -/
theorem literalText_cons (afterNumber : Bool) (ch : Char) (cs : List Char) :
    literalText afterNumber (ch :: cs) =
      literalText afterNumber [ch] ++ quote literalSpecials cs := by
  cases afterNumber with
  | false => exact quote_cons ..
  | true =>
    simp only [literalText, guardedText, if_true]
    split
    · simp [quote]
    · exact quote_cons ..

theorem literalText_append {as : List Char} (has : as ≠ []) (afterNumber : Bool)
    (bs : List Char) :
    literalText afterNumber (as ++ bs) =
      literalText afterNumber as ++ quote literalSpecials bs := by
  cases as with
  | nil => exact absurd rfl has
  | cons ch as =>
    rw [List.cons_append, literalText_cons, literalText_cons afterNumber ch as, quote_append,
      List.append_assoc]

/-- The text of a literal written by `Piece.ofRun`. -/
theorem renderAll_ofRun_append (afterNumber : Bool) {run : List Char} (hrun : run ≠ [])
    (bs : List Block) :
    renderAll afterNumber (Piece.ofRun run ++ bs) =
      literalText afterNumber run.reverse ++ renderAll false bs := by
  have hempty : run.isEmpty = false := by simpa using hrun
  simp [Piece.ofRun, hempty, mkLiteral, renderAll, renderAfter, isBareNumber, Quantifier.render,
    Quantifier.countMark, Quantifier.isGreedy]

/-- Merging characters into literals does not change the text. -/
theorem renderAll_join {ps : List Piece} (h : ∀ p ∈ ps, p.IsTerm) (afterNumber : Bool)
    (run : List Char) :
    renderAll afterNumber (Piece.join run ps) =
      if run = [] then Piece.renderAll afterNumber ps
      else literalText afterNumber run.reverse ++ Piece.renderAll false ps := by
  induction ps generalizing run afterNumber with
  | nil =>
    split
    next hrun => simp [hrun, Piece.join, Piece.ofRun, renderAll, Piece.renderAll]
    next hrun =>
      have := renderAll_ofRun_append afterNumber hrun []
      simpa [Piece.join, renderAll, Piece.renderAll] using this
  | cons p ps ih =>
    have hps : ∀ p ∈ ps, p.IsTerm := fun p hp => h p (List.mem_cons_of_mem _ hp)
    have hp := h p List.mem_cons_self
    cases p with
    | nothing => exact hp.elim
    | sequence bs => exact hp.elim
    | char ch =>
      rw [Piece.join, ih hps, if_neg (List.cons_ne_nil ch run), List.reverse_cons]
      split
      next hrun => simp [hrun, Piece.renderAll]
      next hrun =>
        have hrev : run.reverse ≠ [] := by simpa using hrun
        simp [literalText_append hrev, Piece.renderAll, literalText_false, List.append_assoc]
    | block b =>
      have htail (after : Bool) :
          renderAll after (b :: Piece.join [] ps) = Piece.renderAll after (.block b :: ps) := by
        simp [renderAll, Piece.renderAll, ih hps]
      simp only [Piece.join, Piece.toBlock]
      split
      next hrun =>
        rw [← htail, hrun]
        rfl
      next hrun => rw [renderAll_ofRun_append afterNumber hrun, htail]

theorem isTerm_of_mem_literalPieces {q : Quantifier} {text : List Char} {p : Piece}
    (hp : p ∈ literalPieces q text) : p.IsTerm := by
  induction text with
  | nil => cases hp
  | cons ch rest ih =>
    cases rest with
    | nil =>
      obtain rfl := List.mem_singleton.mp hp
      split <;> trivial
    | cons ch' rest =>
      rcases List.mem_cons.mp hp with rfl | hp
      · trivial
      · exact ih hp

theorem isTerm_of_mem_pieces {b : Block} {p : Piece} (hp : p ∈ b.pieces) : p.IsTerm := by
  cases b with
  | literal text q => exact isTerm_of_mem_literalPieces hp
  | _ =>
    obtain rfl := List.mem_singleton.mp hp
    trivial

theorem isTerm_of_mem_piecesOfAll {bs : List Block} {p : Piece} (hp : p ∈ piecesOfAll bs) :
    p.IsTerm := by
  induction bs with
  | nil => cases hp
  | cons b bs ih =>
    rcases List.mem_append.mp hp with hp | hp
    · exact isTerm_of_mem_pieces hp
    · exact ih hp

/-- A sequence that is read again is never an alternation by itself. -/
theorem not_isLoneAlternation_reread (bs : List Block) : ¬IsLoneAlternation (reread bs) :=
  Piece.not_isLoneAlternation_join (fun _ => isTerm_of_mem_piecesOfAll) []

theorem renderAll_literalPieces {text : List Char} (htext : text ≠ []) (q : Quantifier)
    (afterNumber : Bool) (ps : List Piece) :
    Piece.renderAll afterNumber (literalPieces q text ++ ps) =
      literalText afterNumber text ++ q.render ++ Piece.renderAll false ps := by
  induction text generalizing afterNumber with
  | nil => exact absurd rfl htext
  | cons ch rest ih =>
    cases rest with
    | nil =>
      by_cases hq : q = .one
      · simp [literalPieces, hq, Piece.renderAll, Quantifier.render, Quantifier.countMark,
          Quantifier.isGreedy]
      · simp [literalPieces, hq, Piece.renderAll, renderAfter, isBareNumber]
    | cons ch' rest =>
      rw [literalText_cons]
      simp [literalPieces, Piece.renderAll, ih, literalText_false]

/-- A literal without text leaves no trace in a pattern. -/
def IsBlank : Block → Prop
  | .literal text _ => text = ""
  | _ => False

theorem renderBody_reread (bs : List Block) :
    renderBody (reread bs) = renderAll false (reread bs) :=
  renderBody_eq (not_isLoneAlternation_reread bs)

theorem not_isLoneAlternation_of_mem_rereadEach {branches : List (List Block)}
    {bs : List Block} (h : bs ∈ rereadEach branches) : ¬IsLoneAlternation bs := by
  induction branches with
  | nil => cases h
  | cons branch branches ih =>
    rcases List.mem_cons.mp h with rfl | h
    · exact not_isLoneAlternation_reread branch
    · exact ih h

theorem renderBody_joinBranches {branches : List (List Block)}
    (h : ∀ bs ∈ branches, ¬IsLoneAlternation bs) :
    renderBody (joinBranches branches) = renderBranches branches := by
  match branches with
  | [] => rfl
  | [branch] => exact renderBody_eq (h branch List.mem_cons_self)
  | _ :: _ :: _ => rfl

theorem renderAll_reread_of {bs : List Block}
    (h : Piece.renderAll false (piecesOfAll bs) = renderAll false bs) :
    renderAll false (reread bs) = renderAll false bs := by
  rw [reread, renderAll_join (fun _ => isTerm_of_mem_piecesOfAll), if_pos rfl, h]

mutual

theorem renderAll_pieces : (b : Block) → (∀ x ∈ b.nodes, ¬x.IsBlank) →
    ∀ (afterNumber : Bool) (ps : List Piece), Piece.renderAll afterNumber (b.pieces ++ ps) =
      b.renderAfter afterNumber ++ Piece.renderAll b.isBareNumber ps
  | .literal text q, h, afterNumber, ps => by
    have htext : text.toList ≠ [] := by
      intro hempty
      exact h _ List.mem_cons_self (String.toList_eq_nil_iff.mp hempty)
    simpa [pieces, renderAfter, isBareNumber] using
      renderAll_literalPieces htext q afterNumber ps
  | .shorthand which q, _, afterNumber, ps => rfl
  | .anchor which, _, afterNumber, ps => rfl
  | .boundary which q, _, afterNumber, ps => rfl
  | .charClass payload q, _, afterNumber, ps => by
    simp [pieces, Piece.renderAll, renderAfter, isBareNumber, CharClass.render_reread]
  | .group capturing name children q, h, afterNumber, ps => by
    have hbody := renderBody_rereadBody children fun x hx => h x (List.mem_cons_of_mem _ hx)
    simp [pieces, Piece.renderAll, renderAfter, isBareNumber, hbody]
  | .alternation branches q, h, afterNumber, ps => by
    have hbranches := renderBranches_rereadEach branches fun x hx =>
      h x (List.mem_cons_of_mem _ hx)
    have hbody := (renderBody_joinBranches
      fun _ => not_isLoneAlternation_of_mem_rereadEach).trans hbranches
    simp [pieces, Piece.renderAll, renderAfter, isBareNumber, groupMark, hbody]
  | .look direction positive children q, h, afterNumber, ps => by
    have hbody := renderBody_rereadBody children fun x hx => h x (List.mem_cons_of_mem _ hx)
    simp [pieces, Piece.renderAll, renderAfter, isBareNumber, hbody]
  | .backref target q, _, afterNumber, ps => rfl

theorem renderAll_piecesOfAll : (bs : List Block) → (∀ x ∈ nodesOfAll bs, ¬x.IsBlank) →
    ∀ afterNumber : Bool, Piece.renderAll afterNumber (piecesOfAll bs) = renderAll afterNumber bs
  | [], _, _ => rfl
  | b :: bs, h, afterNumber => by
    have hb := renderAll_pieces b fun x hx => h x (List.mem_append_left _ hx)
    have hbs := renderAll_piecesOfAll bs fun x hx => h x (List.mem_append_right _ hx)
    simp [piecesOfAll, hb, hbs, renderAll]

theorem renderBody_rereadBody : (bs : List Block) → (∀ x ∈ nodesOfAll bs, ¬x.IsBlank) →
    renderBody (rereadBody bs) = renderBody bs
  | [], _ => rfl
  | b :: bs, h => by
    by_cases hlone : IsLoneAlternation (b :: bs)
    · obtain ⟨branches, heq⟩ := hlone
      cases heq
      have hbranches := renderBranches_rereadEach branches fun x hx =>
        h x (List.mem_append_left _ (List.mem_cons_of_mem _ hx))
      exact (renderBody_joinBranches
        fun _ => not_isLoneAlternation_of_mem_rereadEach).trans hbranches
    · have hb := renderAll_pieces b fun x hx => h x (List.mem_append_left _ hx)
      have hbs := renderAll_piecesOfAll bs fun x hx => h x (List.mem_append_right _ hx)
      rw [rereadBody_eq hlone, renderBody_reread, renderBody_eq hlone]
      apply renderAll_reread_of
      simp [piecesOfAll, hb, hbs, renderAll]

theorem renderBranches_rereadEach : (branches : List (List Block)) →
    (∀ x ∈ nodesOfBranches branches, ¬x.IsBlank) →
    renderBranches (rereadEach branches) = renderBranches branches
  | [], _ => rfl
  | [branch], h =>
    renderAll_reread_of
      (renderAll_piecesOfAll branch (fun x hx => h x (List.mem_append_left _ hx)) false)
  | branch :: next :: branches, h => by
    have hbranch := renderAll_reread_of
      (renderAll_piecesOfAll branch (fun x hx => h x (List.mem_append_left _ hx)) false)
    have hrest := renderBranches_rereadEach (next :: branches) fun x hx =>
      h x (List.mem_append_right _ hx)
    simp only [rereadEach, renderBranches] at hrest ⊢
    rw [← hbranch, ← hrest]
    rfl

end

/-- Blocks that are read again are written as they were. -/
theorem renderAll_reread {bs : List Block} (h : ∀ x ∈ nodesOfAll bs, ¬x.IsBlank) :
    renderAll false (reread bs) = renderAll false bs :=
  renderAll_reread_of (renderAll_piecesOfAll bs h false)

end Block

end PatternBlocks
