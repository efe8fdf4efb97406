import PatternBlocks.Conversion
import PatternBlocks.Proofs.ReadBack

/-!
Lists of blocks within the restrictions of the grammar have patterns that are accepted, and what is
read has the same pattern again.
-/
namespace PatternBlocks

open Capture (Scan)

theorem Pattern.parse_of_reads {unicode : Bool} {text : String} {rs : Regex × List Regex}
    {t : Grammar.State}
    (h : Grammar.ReadsAlternatives ⟨unicode, .ofString text⟩ nestingLimit
      { cursor := .ofString text } rs t)
    (hend : t.cursor.rest = [])
    (hrefs : ∀ x ∈ Regex.namedReferencesOfAll (rs.1 :: rs.2), t.groups.hasName x.1) :
    ∃ p, Pattern.parse unicode text = .ok p ∧
      p.root = Grammar.choice rs (t.cursor.spanSince 0) := by
  refine ⟨⟨Grammar.choice rs (t.cursor.spanSince 0), t.groups.size, t.groups.names⟩, ?_, rfl⟩
  refine Pattern.parse_eq_ok_of_reads h hend rfl rfl rfl fun x hx => hrefs x ?_
  rwa [Grammar.namedReferences_choice] at hx

/-- A text in brackets that is read as a class is a pattern by itself. -/
theorem Pattern.parse_of_bracketBody {unicode : Bool} {inside : List Char} {b : Bracket}
    {position : Nat} (h : Grammar.bracketBody unicode 0 ⟨inside ++ [']'], 0 + '['.utf8Size⟩ =
      .ok (b, ⟨[], position⟩)) :
    Pattern.parse unicode (String.ofList ('[' :: inside ++ [']'])) = .ok ⟨.bracket b, 0, []⟩ := by
  have hcursor : Cursor.ofString (String.ofList ('[' :: inside ++ [']'])) =
      ⟨'[' :: (inside ++ [']']), 0⟩ := by
    rw [Cursor.ofString, String.toList_ofList, List.cons_append]
  have hrepeated : Grammar.repeated unicode 0 (.bracket b) ⟨[], position⟩ =
      .ok (.bracket b, ⟨[], position⟩) := rfl
  have hterm : Grammar.ReadsTerm ⟨unicode, .ofString (String.ofList ('[' :: inside ++ [']']))⟩
      nestingLimit { cursor := ⟨'[' :: (inside ++ [']']), 0⟩ } (.bracket b)
      { cursor := ⟨[], position⟩ } :=
    .plain rfl (by decide) (Grammar.plainAtom_bracket h) hrepeated
  have hterms := Grammar.ReadsTerms.cons (by simp [Grammar.endsAlternative, Cursor.peek?]) hterm
    (.nil rfl)
  have halternatives := Grammar.ReadsAlternatives.last hterms rfl
  rw [← hcursor] at halternatives
  exact Pattern.parse_eq_ok_of_reads halternatives rfl rfl rfl rfl
    (by simp [Regex.namedReferences])

namespace Block

variable {unicode : Bool}

theorem isName_of_mem_captureNames {captures : List (Option String)} {bs : List Block}
    (h : ∀ b ∈ bs, b.Admissible unicode captures) {name : String}
    (hname : some name ∈ captureNames bs) : GroupName.IsName name := by
  obtain ⟨b, hb, hcapture⟩ := List.mem_filterMap.mp hname
  have hadmissible := h b hb
  cases b with
  | group capturing name' children q =>
    cases capturing with
    | false => cases hcapture
    | true =>
      cases hcapture
      exact (hadmissible.2 name rfl).2
  | _ => cases hcapture

/-- The count of captures that the text of the blocks will have. -/
def scan (captures : List (Option String)) : Scan := ⟨captures.length, captures.any Option.isSome⟩

theorem fits_of_admissible {bs : List Block}
    (h : ∀ b ∈ bs, b.Admissible unicode (captureNames bs)) :
    Grammar.Fits ⟨unicode, scan (captureNames bs)⟩ (captureNames bs) where
  counted := Nat.le_refl _
  named _ hname :=
    ⟨List.any_eq_true.mpr ⟨_, hname, rfl⟩, isName_of_mem_captureNames h hname⟩

theorem scan_of_opens {s t : Grammar.State} {gs : List Capture.Group}
    (h : Grammar.Opens s gs t) (hend : t.cursor.rest = []) {captures : List (Option String)}
    (hnames : t.groupNames = s.groupNames ++ captures) :
    Scan.ofChars false s.cursor.rest = scan captures := by
  have hcaptures : gs.map (·.name) = captures := by
    rw [Grammar.State.groupNames, h.registered, List.map_append] at hnames
    exact List.append_cancel_left hnames
  rw [h.counted, hend, ← hcaptures]
  simp [Scan.ofChars, Scan.behind, scan, List.any_map, Function.comp_def]

/-- At every level that is deep enough the pattern of admissible blocks is read as they are
reread. -/
theorem yieldsEach_pattern {bs : List Block}
    (h : ∀ b ∈ nodesOfAll bs, b.Admissible unicode (captureNames (nodesOfAll bs)))
    (hdistinct : Distinct (captureNames (nodesOfAll bs))) {levels : Nat}
    (hdepth : depthOfAll bs ≤ levels) :
    Grammar.YieldsEach ⟨unicode, .ofString (pattern bs)⟩ levels (captureNames (nodesOfAll bs))
      { cursor := .ofString (pattern bs) } [] [reread bs] (captureNames (nodesOfAll bs)) := by
  have hrest : (Cursor.ofString (pattern bs)).rest = renderAll false bs ++ [] := by
    rw [Cursor.ofString, pattern, String.toList_ofList, List.append_nil]
  have hall := Grammar.yields_all (fits_of_admissible h) bs h hdepth
  have hcloses : Grammar.Closes [] := by simp [Grammar.Closes]
  have hyields := hall (s := { cursor := .ofString (pattern bs) }) hrest hcloses hdistinct
  have heach := hyields.single (fun _ => isTerm_of_mem_piecesOfAll) (by simp)
  have hscan : Scan.ofString (pattern bs) = scan (captureNames (nodesOfAll bs)) := by
    obtain ⟨rs, t, ps, hrs, hend, -, -, -, hnames⟩ := heach
    exact scan_of_opens hrs.opens hend hnames
  rw [hscan]
  exact heach

end Block

/-- Alternatives that are read up to the end of the text are what parsing makes into blocks. -/
theorem Pattern.parse_of_yieldsEach {unicode : Bool} {text : String}
    {captures : List (Option String)} {branches : List (List Block)}
    (h : Grammar.YieldsEach ⟨unicode, .ofString text⟩ nestingLimit captures
      { cursor := .ofString text } [] branches captures) :
    ∃ p, Pattern.parse unicode text = .ok p ∧
      p.root.blocks = .ok (Block.joinBranches branches) := by
  obtain ⟨rs, t, ps, hrs, hend, hps, rfl, hrefs, hnames⟩ := h
  have hregistered (x) (hx : x ∈ Regex.namedReferencesOfAll (rs.1 :: rs.2)) :
      t.groups.hasName x.1 := by
    rw [Capture.Registry.hasName_iff]
    show some x.1 ∈ t.groupNames
    rw [hnames]
    exact List.mem_append_right _ (hrefs x hx)
  obtain ⟨p, hparse, hroot⟩ := Pattern.parse_of_reads hrs hend hregistered
  obtain ⟨piece, hpiece, htoBlocks⟩ := Grammar.piece_choice hps (t.cursor.spanSince 0)
  refine ⟨p, hparse, ?_⟩
  rw [hroot]
  exact map_eq_ok.mpr ⟨piece, hpiece, htoBlocks⟩

/-- The pattern of blocks within the restrictions of the grammar is accepted. -/
theorem Pattern.parse_pattern {unicode : Bool} {bs : List Block} (h : Block.Writable unicode bs) :
    ∃ p, Pattern.parse unicode (Block.pattern bs) = .ok p ∧
      p.root.blocks = .ok (Block.reread bs) :=
  Pattern.parse_of_yieldsEach (Block.yieldsEach_pattern h.admissible h.distinct h.shallow)

theorem Block.not_isBlank_of_writable {unicode : Bool} {bs : List Block}
    (h : Block.Writable unicode bs) : ∀ b ∈ Block.nodesOfAll bs, ¬b.IsBlank :=
  fun b hb => Grammar.not_isBlank_of_admissible (h.admissible b hb)

theorem Block.pattern_reread {bs : List Block} (h : ∀ b ∈ Block.nodesOfAll bs, ¬b.IsBlank) :
    Block.pattern (Block.reread bs) = Block.pattern bs := by
  rw [Block.pattern, Block.renderAll_reread h, Block.pattern]

theorem Conversion.ofPattern_of_parse {pattern : String} {flags : Flags} {p : Pattern}
    {bs : List Block} (h : Pattern.parse flags.unicode pattern = .ok p)
    (hbs : p.root.blocks = .ok bs) :
    Conversion.ofPattern pattern flags = .ok ⟨pattern, flags, p.root, bs⟩ := by
  rw [Conversion.ofPattern, h]
  simp only [hbs]

/-- A list of blocks within the restrictions of the grammar has a pattern that is accepted, and the
blocks that are read have the same pattern. -/
theorem Block.pattern_stable {bs : List Block} {flags : String}
    (h : Block.Writable (Flags.ofString flags).unicode bs) :
    ∃ c, Conversion.ofPattern (Block.pattern bs) (Flags.ofString flags) = .ok c ∧
      Block.pattern c.blocks = Block.pattern bs := by
  obtain ⟨p, hparse, hblocks⟩ := Pattern.parse_pattern h
  refine ⟨_, Conversion.ofPattern_of_parse hparse hblocks, ?_⟩
  exact Block.pattern_reread (Block.not_isBlank_of_writable h)

/-- Blocks that are not what their pattern is read as. -/
def Block.handBuilt : List Block :=
  [.literal "a(" .one, .literal "bc" (.oneOrMore true),
    .alternation [[.literal "x" .one], [],
      [.group true (some "n") [.alternation [[], [.anchor .stop]] .one] .one]] (.zeroOrMore false),
    .backref (.index ⟨1, by decide⟩) .one, .literal "1" .one,
    .charClass { toggles := { lower := true }, custom := "]" } (.range 2 3 true),
    .look .ahead false [.backref (.name "n") .one] .one]

theorem Block.pattern_stable_handBuilt :
    ∃ c, Conversion.ofPattern (Block.pattern Block.handBuilt) (Flags.ofString "") = .ok c ∧
      Block.pattern c.blocks = Block.pattern Block.handBuilt := by
  have hname : GroupName.IsName "n" := ⟨⟨[], 1⟩, by decide +kernel, rfl⟩
  have hcaptures : Block.captureNames (Block.nodesOfAll Block.handBuilt) = [some "n"] := rfl
  refine Block.pattern_stable ⟨?_, by decide, by decide⟩
  rw [hcaptures]
  intro b hb
  simp only [Block.handBuilt, Block.nodesOfAll, Block.nodes, Block.nodesOfBranches,
    List.cons_append, List.nil_append, List.append_nil, List.mem_cons, List.not_mem_nil,
    or_false] at hb
  rcases hb with rfl | rfl | rfl | rfl | rfl | rfl | rfl | rfl | rfl | rfl | rfl | rfl
  all_goals simp [Block.Admissible, Block.quant, Quantifier.InOrder, hname]

end PatternBlocks
