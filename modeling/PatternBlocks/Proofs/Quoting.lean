import PatternBlocks.Proofs.RoundTrip
import PatternBlocks.Proofs.Tiling

/-!
Quoted text means the characters that were quoted. Inside brackets they are members behind those of
the named ranges, and outside brackets they are one literal, in both modes and whatever the text.
-/
namespace PatternBlocks

/-! ### Inside brackets -/

namespace CharClass

theorem map_snd_members (c : CharClass) :
    c.members.map (·.2) =
      c.toggles.ranges.map NamedRange.item ++ c.custom.toList.map ClassItem.char := by
  simp [members, Function.comp_def]

example : (members { toggles := { lower := true, digit := true, whitespace := true }
                     custom := "]é" }).map (·.2) =
    [.range 'a' 'z', .range '0' '9', .escape .space, .char ']', .char 'é'] := rfl

theorem utf8ByteSize_text (c : CharClass) :
    c.text.utf8ByteSize = 0 + '['.utf8Size + utf8Length c.inside + ']'.utf8Size := by
  rw [text, utf8ByteSize_ofList, render_eq]
  simp [Nat.add_assoc]

end CharClass

/-- A class without a body of its own is a pattern in both modes. It means the named ranges that are
switched on and behind them each of its characters. -/
theorem Pattern.parse_charClass (unicode negate : Bool) (toggles : Toggles) (custom : String) :
    Pattern.parse unicode (CharClass.text { negate, toggles, custom }) =
      .ok ⟨.bracket
        { negated := negate
          items := toggles.ranges.map NamedRange.item ++ custom.toList.map ClassItem.char
          raw := String.ofList (CharClass.body { negate, toggles, custom })
          span := ⟨0, (CharClass.text { negate, toggles, custom }).utf8ByteSize⟩ }, 0, []⟩ := by
  have hread : Grammar.bracketBody unicode 0 _ = _ :=
    CharClass.bracketBody_of_raw_eq_none (c := { negate, toggles, custom }) rfl 0
      (0 + '['.utf8Size) []
  rw [CharClass.map_snd_members, ← CharClass.utf8ByteSize_text] at hread
  exact Pattern.parse_of_bracketBody hread

/-! ### Outside brackets -/

theorem Piece.join_chars (text run : List Char) :
    join run (text.map .char) = ofRun (text.reverse ++ run) := by
  induction text generalizing run with
  | nil => rfl
  | cons ch text ih => simp [join, ih]

theorem Piece.ofRun_reverse (text : String) :
    ofRun text.toList.reverse = if text = "" then [] else [.literal text .one] := by
  by_cases htext : text = ""
  · subst htext
    rfl
  · simp [ofRun, Block.mkLiteral, htext]

namespace Block

/-- A literal that nothing stands around. -/
theorem pattern_ofRun (run : List Char) :
    pattern (Piece.ofRun run) = String.ofList (quote literalSpecials run.reverse) := by
  by_cases hrun : run = []
  · subst hrun
    rfl
  · have hrender := renderAll_ofRun_append false hrun []
    rw [List.append_nil, renderAll, List.append_nil, literalText_false] at hrender
    rw [pattern, hrender]

theorem reread_ofRun (run : List Char) : reread (Piece.ofRun run) = Piece.ofRun run := by
  rw [reread, piecesOfAll_ofRun, Piece.join_chars, List.reverse_reverse, List.append_nil]

theorem captureNames_nodesOfAll_ofRun (run : List Char) :
    captureNames (nodesOfAll (Piece.ofRun run)) = [] := by
  unfold Piece.ofRun
  split <;> rfl

theorem writable_ofRun (unicode : Bool) (run : List Char) :
    Writable unicode (Piece.ofRun run) := by
  have hnames := captureNames_nodesOfAll_ofRun run
  obtain ⟨hadmissible, hshallow⟩ : (∀ x ∈ nodesOfAll (Piece.ofRun run), x.Admissible unicode []) ∧
      depthOfAll (Piece.ofRun run) ≤ nestingLimit := settled_ofRun run
  exact ⟨hnames ▸ hadmissible, by simp [hnames], hshallow⟩

end Block

/-- Quoted text is accepted under all flags, and is read as a literal of the text unless there is
none. -/
theorem Conversion.ofPattern_quote (text flags : String) :
    ∃ c, Conversion.ofPattern (String.ofList (quote literalSpecials text.toList))
        (Flags.ofString flags) = .ok c ∧
      c.blocks = (if text = "" then [] else [.literal text .one]) ∧
      c.flags = Flags.ofString flags := by
  have hwritable := Block.writable_ofRun (Flags.ofString flags).unicode text.toList.reverse
  obtain ⟨p, hparse, hblocks⟩ := Pattern.parse_pattern hwritable
  rw [Block.pattern_ofRun, List.reverse_reverse] at hparse
  rw [Block.reread_ofRun, Piece.ofRun_reverse] at hblocks
  exact ⟨_, Conversion.ofPattern_of_parse hparse hblocks, rfl, rfl⟩

end PatternBlocks
