import PatternBlocks.Proofs.Settled

/-!
Only the nesting of parentheses keeps the pattern of admissible blocks from being accepted: a
reading that succeeds where groups may nest deep enough either succeeds where they may nest less
deep, or the limit is what it fails for.
-/
namespace PatternBlocks

namespace Grammar

variable {mode : Mode}

/-- A reading that fails because groups nest too deep. -/
def TooDeep {α : Type} (x : Step α) : Prop := ∃ span, x = .error ⟨.nestingTooDeep, span⟩

theorem tooDeep_term {s : State} {c : Cursor} (first : s.cursor.next? = some ('(', c)) :
    TooDeep (term mode (innerReader mode 0) s) := by
  refine ⟨c.spanSince s.cursor.position, ?_⟩
  simp only [term, atom, first, if_true]
  rfl

mutual

/-- What is read at one level of nesting is read at any other, or nests too deep there. -/
theorem ReadsTerm.atLevel {levels : Nat} {s t : State} {r : Regex} :
    ReadsTerm mode levels s r t → ∀ levels' : Nat,
      ReadsTerm mode levels' s r t ∨ TooDeep (term mode (innerReader mode levels') s)
  | .plain first noGroup atom count, levels' => .inl (.plain first noGroup atom count)
  | .group first opened inside closed count, 0 => .inr (tooDeep_term first)
  | .group first opened inside closed count, levels' + 1 => by
    rcases inside.atLevel levels' with hinside | ⟨span, herror⟩
    · exact .inl (.group first opened hinside closed count)
    · exact .inr ⟨span, term_eq_error_of_inside first opened herror⟩

theorem ReadsTerms.atLevel {levels : Nat} {s t : State} {rs : List Regex} :
    ReadsTerms mode levels s rs t → ∀ levels' : Nat,
      ReadsTerms mode levels' s rs t ∨ TooDeep (terms mode (innerReader mode levels') s)
  | .nil last, levels' => .inl (.nil last)
  | .cons more head tail, levels' => by
    rcases head.atLevel levels' with hhead | ⟨span, herror⟩
    · rcases tail.atLevel levels' with htail | ⟨span, herror⟩
      · exact .inl (.cons more hhead htail)
      · exact .inr ⟨span, terms_eq_error_of_tail more hhead herror⟩
    · exact .inr ⟨span, terms_eq_error_of_head more herror⟩

theorem ReadsAlternatives.atLevel {levels : Nat} {s t : State} {rs : Regex × List Regex} :
    ReadsAlternatives mode levels s rs t → ∀ levels' : Nat,
      ReadsAlternatives mode levels' s rs t ∨
        TooDeep (alternatives mode (innerReader mode levels') s)
  | .last terms noBar, levels' => by
    rcases terms.atLevel levels' with hterms | ⟨span, herror⟩
    · exact .inl (.last hterms noBar)
    · exact .inr ⟨span, alternatives_eq_error_of_terms herror⟩
  | .more terms bar tail, levels' => by
    rcases terms.atLevel levels' with hterms | ⟨span, herror⟩
    · rcases tail.atLevel levels' with htail | ⟨span, herror⟩
      · exact .inl (.more hterms bar htail)
      · exact .inr ⟨span, alternatives_eq_error_of_bar hterms bar herror⟩
    · exact .inr ⟨span, alternatives_eq_error_of_terms herror⟩

end

end Grammar

/-! ### Reading again keeps the depth -/

/-- How deep the parentheses nest in the text of terms one after the other. -/
def Piece.depthOfAll : List Piece → Nat
  | [] => 0
  | .block b :: ps => max b.depth (depthOfAll ps)
  | _ :: ps => depthOfAll ps

theorem Piece.depthOfAll_append (ps qs : List Piece) :
    depthOfAll (ps ++ qs) = max (depthOfAll ps) (depthOfAll qs) := by
  induction ps with
  | nil => simp [depthOfAll]
  | cons p ps ih => cases p <;> simp [depthOfAll, ih, Nat.max_assoc]

namespace Block

theorem depthOfAll_ofRun (run : List Char) : depthOfAll (Piece.ofRun run) = 0 := by
  unfold Piece.ofRun
  split <;> rfl

theorem depthOfAll_join {ps : List Piece} (h : ∀ p ∈ ps, p.IsTerm) (run : List Char) :
    depthOfAll (Piece.join run ps) = Piece.depthOfAll ps := by
  induction ps generalizing run with
  | nil => exact depthOfAll_ofRun run
  | cons p ps ih =>
    have hps : ∀ p ∈ ps, p.IsTerm := fun p hp => h p (List.mem_cons_of_mem _ hp)
    have hp := h p List.mem_cons_self
    cases p with
    | nothing => exact hp.elim
    | sequence => exact hp.elim
    | char ch => exact ih hps (ch :: run)
    | block b =>
      rw [Piece.join_block, depthOfAll_append, depthOfAll_ofRun, depthOfAll, ih hps,
        Nat.zero_max, Piece.depthOfAll]

theorem depthOfAll_reread_of {bs : List Block}
    (h : Piece.depthOfAll (piecesOfAll bs) = depthOfAll bs) :
    depthOfAll (reread bs) = depthOfAll bs := by
  rw [reread, depthOfAll_join (fun _ => isTerm_of_mem_piecesOfAll), h]

theorem depthOfAll_literalPieces (q : Quantifier) (text : List Char) :
    Piece.depthOfAll (literalPieces q text) = 0 := by
  induction text with
  | nil => rfl
  | cons ch rest ih =>
    cases rest with
    | nil =>
      rw [literalPieces]
      split <;> rfl
    | cons => exact ih

theorem depthOfBody_joinBranches {branches : List (List Block)}
    (h : ∀ bs ∈ branches, ¬IsLoneAlternation bs) :
    depthOfBody (joinBranches branches) = depthOfBranches branches := by
  match branches with
  | [] => rfl
  | [branch] =>
    rw [joinBranches, depthOfBody_eq (h branch List.mem_cons_self)]
    exact (Nat.max_zero _).symm
  | _ :: _ :: _ => rfl

mutual

theorem depthOfAll_pieces : (b : Block) → Piece.depthOfAll b.pieces = b.depth
  | .literal text q => depthOfAll_literalPieces q text.toList
  | .group capturing name children q => by
    have hbody := depthOfBody_rereadBody children
    simp [pieces, Piece.depthOfAll, depth, hbody]
  | .alternation branches q => by
    have hbranches := depthOfBranches_rereadEach branches
    have hbody : depthOfBody (joinBranches (rereadEach branches)) = depthOfBranches branches := by
      rw [depthOfBody_joinBranches fun _ => not_isLoneAlternation_of_mem_rereadEach, hbranches]
    simp [pieces, Piece.depthOfAll, depth, hbody]
  | .look direction positive children q => by
    have hbody := depthOfBody_rereadBody children
    simp [pieces, Piece.depthOfAll, depth, hbody]
  | .shorthand .. | .anchor _ | .boundary .. | .charClass .. | .backref .. => rfl

theorem depthOfAll_piecesOfAll : (bs : List Block) →
    Piece.depthOfAll (piecesOfAll bs) = depthOfAll bs
  | [] => rfl
  | b :: bs => by
    have hb := depthOfAll_pieces b
    have hbs := depthOfAll_piecesOfAll bs
    rw [piecesOfAll, Piece.depthOfAll_append, hb, hbs, depthOfAll]

theorem depthOfBody_rereadBody : (bs : List Block) → depthOfBody (rereadBody bs) = depthOfBody bs
  | [] => rfl
  | b :: bs => by
    have hb := depthOfAll_pieces b
    have hbs := depthOfAll_piecesOfAll bs
    by_cases hlone : IsLoneAlternation (b :: bs)
    · obtain ⟨branches, heq⟩ := hlone
      cases heq
      have hbranches := depthOfBranches_rereadEach branches
      exact (depthOfBody_joinBranches
        fun _ => not_isLoneAlternation_of_mem_rereadEach).trans hbranches
    · rw [rereadBody_eq hlone, depthOfBody_eq (not_isLoneAlternation_reread _),
        depthOfBody_eq hlone]
      apply depthOfAll_reread_of
      rw [piecesOfAll, Piece.depthOfAll_append, hb, hbs, depthOfAll]

theorem depthOfBranches_rereadEach : (branches : List (List Block)) →
    depthOfBranches (rereadEach branches) = depthOfBranches branches
  | [] => rfl
  | branch :: branches => by
    have hbranch := depthOfAll_reread_of (depthOfAll_piecesOfAll branch)
    have hrest := depthOfBranches_rereadEach branches
    rw [rereadEach, depthOfBranches, depthOfBranches, hrest, ← hbranch]
    rfl

end

theorem depthOfAll_reread (bs : List Block) : depthOfAll (reread bs) = depthOfAll bs :=
  depthOfAll_reread_of (depthOfAll_piecesOfAll bs)

end Block

/-- The pattern of admissible blocks whose parentheses nest too deep fails for that reason. -/
theorem Pattern.parse_pattern_of_deep {unicode : Bool} {bs : List Block}
    (h : ∀ b ∈ Block.nodesOfAll bs,
      b.Admissible unicode (Block.captureNames (Block.nodesOfAll bs)))
    (hdistinct : Distinct (Block.captureNames (Block.nodesOfAll bs)))
    (hdeep : nestingLimit < Block.depthOfAll bs) :
    ∃ span, Pattern.parse unicode (Block.pattern bs) = .error ⟨.nestingTooDeep, span⟩ := by
  obtain ⟨rs, t, ps, hrs, hend, hps, hblocks, hrefs, hnames⟩ :=
    Block.yieldsEach_pattern h hdistinct (Nat.le_refl _)
  rcases hrs.atLevel nestingLimit with hread | ⟨span, herror⟩
  · exfalso
    obtain ⟨p, hparse, hbs⟩ := Pattern.parse_of_yieldsEach
      ⟨rs, t, ps, hread, hend, hps, hblocks, hrefs, hnames⟩
    have hshallow := (Pattern.settled_of_parse hparse hbs).1.shallow
    rw [Block.joinBranches, Block.depthOfBody_eq (Block.not_isLoneAlternation_reread bs),
      Block.depthOfAll_reread] at hshallow
    omega
  · refine ⟨span, ?_⟩
    unfold Pattern.parse
    simp only [Grammar.bodyReader_read, Grammar.disjunction, herror]

end PatternBlocks
