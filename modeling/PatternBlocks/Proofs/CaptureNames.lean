import PatternBlocks.Proofs.ReadBack

/-! The names of captures are the same in an expression and in the blocks it becomes. -/
namespace PatternBlocks

namespace Block

theorem captureNames_setQuant (b : Block) (q : Quantifier) :
    captureNames (b.setQuant q).nodes = captureNames b.nodes := by
  cases b with
  | group capturing name children q' => cases capturing <;> rfl
  | _ => rfl

theorem captureNames_ofRun (run : List Char) :
    captureNames (nodesOfAll (Piece.ofRun run)) = [] := by
  unfold Piece.ofRun
  split <;> rfl

theorem captureNames_toBlock (p : Piece) :
    captureNames p.toBlock.nodes = captureNames (nodesOfAll p.toBlocks) := by
  cases p with
  | block b => simp [Piece.toBlock, Piece.toBlocks, nodesOfAll]
  | _ => rfl

theorem captureNames_singleton (b : Block) :
    captureNames (nodesOfAll [b]) = captureNames b.nodes := by
  rw [nodesOfAll, nodesOfAll, List.append_nil]

theorem nodesOfAll_append (as bs : List Block) :
    nodesOfAll (as ++ bs) = nodesOfAll as ++ nodesOfAll bs := by
  induction as with
  | nil => rfl
  | cons a as ih => simp [nodesOfAll, ih]

theorem captureNames_join (run : List Char) (ps : List Piece) :
    captureNames (nodesOfAll (Piece.join run ps)) =
      ps.flatMap fun p => captureNames (nodesOfAll p.toBlocks) := by
  induction ps generalizing run with
  | nil => exact captureNames_ofRun run
  | cons p ps ih =>
    have hblock : captureNames (nodesOfAll (Piece.ofRun run ++ p.toBlock :: Piece.join [] ps)) =
        captureNames (nodesOfAll p.toBlocks) ++
          ps.flatMap fun p => captureNames (nodesOfAll p.toBlocks) := by
      rw [nodesOfAll_append, Grammar.captureNames_append, captureNames_ofRun, nodesOfAll,
        Grammar.captureNames_append, captureNames_toBlock, ih, List.nil_append]
    cases p with
    | char ch => exact ih (ch :: run)
    | nothing => exact ih run
    | block b => exact hblock
    | sequence bs => exact hblock

theorem captureNames_nodesOfBranches (branches : List (List Block)) :
    captureNames (nodesOfBranches branches) =
      branches.flatMap fun branch => captureNames (nodesOfAll branch) := by
  induction branches with
  | nil => rfl
  | cons branch branches ih =>
    rw [nodesOfBranches, Grammar.captureNames_append, ih, List.flatMap_cons]

theorem captureNames_mkAlternation (ps : List Piece) :
    captureNames (mkAlternation (ps.map Piece.toBlocks)).nodes =
      ps.flatMap fun p => captureNames (nodesOfAll p.toBlocks) := by
  cases ps with
  | nil => rfl
  | cons p ps =>
    have hnodes := captureNames_nodesOfBranches ((p :: ps).map Piece.toBlocks)
    rw [List.flatMap_map] at hnodes
    exact hnodes

end Block

namespace Regex

mutual

/-- The blocks of an expression capture what the expression captures. -/
theorem captureNames_of_piece : (r : Regex) → ∀ {p : Piece}, r.piece = .ok p →
    Block.captureNames (Block.nodesOfAll p.toBlocks) = r.captures.map (·.name)
  | .empty _, p, h | .char .., p, h | .dot _, p, h | .classEscape .., p, h
  | .bracket _, p, h => by
    cases h
    rfl
  | .property _, p, h => by cases h
  | .assertion kind _, p, h => by
    cases h
    cases kind <;> rfl
  | .backref target span, p, h => by
    obtain ⟨b, hb, rfl⟩ := map_eq_ok.mp h
    cases target with
    | name =>
      cases hb
      rfl
    | number n =>
      rw [Block.ofReference, Block.mkNumberReference] at hb
      cases hn : GroupNumber.ofUInt32? n with
      | none => simp [hn] at hb
      | some n =>
        rw [hn] at hb
        cases hb
        rfl
  | .group kind body _, p, h => by
    obtain ⟨p, hp, rfl⟩ := map_eq_ok.mp h
    have hbody := captureNames_of_piece body hp
    rw [Piece.toBlocks, Block.captureNames_singleton]
    cases kind with
    | nonCapturing => exact hbody
    | capturing index name => exact congrArg (name :: ·) hbody
  | .look direction negated body _, p, h => by
    obtain ⟨p, hp, rfl⟩ := map_eq_ok.mp h
    rw [Piece.toBlocks, Block.captureNames_singleton]
    exact captureNames_of_piece body hp
  | .repetition count greedy body _, p, h => by
    obtain ⟨p, hp, rfl⟩ := map_eq_ok.mp h
    rw [Piece.toBlocks, Block.captureNames_singleton, Block.captureNames_setQuant,
      Block.captureNames_toBlock]
    exact captureNames_of_piece body hp
  | .concat terms _, p, h => by
    obtain ⟨ps, hps, rfl⟩ := map_eq_ok.mp h
    rw [captures, ← captureNames_of_pieces terms hps]
    exact Block.captureNames_join [] ps
  | .alternation branches _, p, h => by
    obtain ⟨ps, hps, rfl⟩ := map_eq_ok.mp h
    rw [captures, ← captureNames_of_pieces branches hps, Piece.toBlocks,
      Block.captureNames_singleton]
    exact Block.captureNames_mkAlternation ps

theorem captureNames_of_pieces : (rs : List Regex) → ∀ {ps : List Piece}, pieces rs = .ok ps →
    (ps.flatMap fun p => Block.captureNames (Block.nodesOfAll p.toBlocks)) =
      (capturesOfAll rs).map (·.name)
  | [], ps, h => by
    cases h
    rfl
  | r :: rs, ps, h => by
    obtain ⟨p, ps, hp, hps, rfl⟩ := Grammar.pieces_cons_eq_ok.mp h
    rw [List.flatMap_cons, captureNames_of_piece r hp, captureNames_of_pieces rs hps,
      capturesOfAll, List.map_append]

end

end Regex

end PatternBlocks
