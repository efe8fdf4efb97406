import PatternBlocks.Proofs.Nesting

/-!
The output of a conversion as a pattern. It gives the blocks of the conversion again, except that
an alternation that makes up a whole pattern comes back inside a group. The parentheses of that
group are one level of nesting more, which is too much if the pattern is as deep as it may be.
-/
namespace PatternBlocks

theorem Conversion.ofPattern_eq_ok {pattern : String} {flags : Flags} {c : Conversion}
    (h : Conversion.ofPattern pattern flags = .ok c) :
    ∃ p, Pattern.parse flags.unicode pattern = .ok p ∧ p.root.blocks = .ok c.blocks ∧
      c.flags = flags ∧ c.root = p.root := by
  unfold Conversion.ofPattern at h
  split at h
  next => cases h
  next p hparse =>
    split at h
    next => cases h
    next hblocks =>
      cases h
      exact ⟨p, hparse, hblocks, rfl, rfl⟩

theorem Conversion.exists_of_any {pattern : String} {flags : Flags} {check : Conversion → Bool}
    (h : (Conversion.ofPattern pattern flags).toOption.any check) :
    ∃ c, Conversion.ofPattern pattern flags = .ok c ∧ check c :=
  PatternBlocks.exists_of_any h

/-- The blocks of a pattern are settled, and their captures have distinct names. -/
theorem Conversion.settled_of_ofPattern {pattern : String} {flags : Flags} {c : Conversion}
    (h : Conversion.ofPattern pattern flags = .ok c) :
    Block.SettledBody flags.unicode (Block.captureNames (Block.nodesOfAll c.blocks)) nestingLimit
        c.blocks ∧
      Distinct (Block.captureNames (Block.nodesOfAll c.blocks)) := by
  obtain ⟨p, hparse, hblocks, -⟩ := Conversion.ofPattern_eq_ok h
  exact Pattern.settled_of_parse hparse hblocks

/-- The output of a conversion is read as its blocks are reread, if there is room to nest them. -/
theorem Conversion.ofPattern_output_of_le {pattern : String} {flags : Flags} {c : Conversion}
    (h : Conversion.ofPattern pattern flags = .ok c)
    (hdepth : Block.depthOfAll c.blocks ≤ nestingLimit) :
    ∃ d, Conversion.ofPattern c.output flags = .ok d ∧ d.blocks = Block.reread c.blocks ∧
      d.output = c.output ∧ d.flags = c.flags := by
  obtain ⟨-, -, -, hflags, -⟩ := Conversion.ofPattern_eq_ok h
  obtain ⟨hsettled, hdistinct⟩ := Conversion.settled_of_ofPattern h
  have hwritable : Block.Writable flags.unicode c.blocks :=
    ⟨hsettled.admissible, hdistinct, hdepth⟩
  have houtput := Block.pattern_reread (Block.not_isBlank_of_writable hwritable)
  obtain ⟨p, hparse, hblocks⟩ := Pattern.parse_pattern hwritable
  exact ⟨_, Conversion.ofPattern_of_parse hparse hblocks, rfl, houtput, hflags.symm⟩

theorem Conversion.ofPattern_output_of_lt {pattern : String} {flags : Flags} {c : Conversion}
    (h : Conversion.ofPattern pattern flags = .ok c)
    (hdepth : nestingLimit < Block.depthOfAll c.blocks) :
    ∃ span, Conversion.ofPattern c.output flags =
      .error ⟨c.output, flags, .malformed ⟨.nestingTooDeep, span⟩⟩ := by
  obtain ⟨hsettled, hdistinct⟩ := Conversion.settled_of_ofPattern h
  obtain ⟨span, herror⟩ := Pattern.parse_pattern_of_deep hsettled.admissible hdistinct hdepth
  refine ⟨span, ?_⟩
  rw [Conversion.ofPattern, Conversion.output, herror]

/-- The output of a conversion is accepted and gives the same blocks again, unless they are an
alternation by itself. -/
theorem Conversion.ofPattern_output {pattern flags : String} {c : Conversion}
    (h : Conversion.ofPattern pattern (Flags.ofString flags) = .ok c)
    (hlone : ¬Block.IsLoneAlternation c.blocks) :
    ∃ d, Conversion.ofPattern c.output (Flags.ofString flags) = .ok d ∧ d.blocks = c.blocks ∧
      d.flags = c.flags := by
  obtain ⟨hsettled, -⟩ := Conversion.settled_of_ofPattern h
  have hdepth := hsettled.shallow
  rw [Block.depthOfBody_eq hlone] at hdepth
  have hreread := hsettled.rereadBody_eq
  rw [Block.rereadBody_eq hlone] at hreread
  obtain ⟨d, hd, hblocks, -, hflags⟩ := Conversion.ofPattern_output_of_le h hdepth
  exact ⟨d, hd, hblocks.trans hreread, hflags⟩

theorem Conversion.ofPattern_output_mixed :
    ∃ c d, Conversion.ofPattern "(?<n>[^)]{2,}?|\\k<n>)\\1\\60(?!ab*)"
        (Flags.ofString "gi") = .ok c ∧
      Conversion.ofPattern c.output (Flags.ofString "gi") = .ok d ∧ d.blocks = c.blocks ∧
      d.flags = c.flags := by
  have hcheck : (Conversion.ofPattern "(?<n>[^)]{2,}?|\\k<n>)\\1\\60(?!ab*)"
      (Flags.ofString "gi")).toOption.any (·.blocks.length = 4) := by decide +kernel
  obtain ⟨c, hc, hlength⟩ := Conversion.exists_of_any hcheck
  have hlone : ¬Block.IsLoneAlternation c.blocks := by
    rintro ⟨branches, hb⟩
    simp [hb] at hlength
  obtain ⟨d, hd⟩ := Conversion.ofPattern_output hc hlone
  exact ⟨c, d, hc, hd⟩

/-- The branches of an alternation by itself. -/
def Block.loneBranches? : List Block → Option (List (List Block))
  | [.alternation branches .one] => some branches
  | _ => none

theorem Block.loneBranches?_eq_some {bs : List Block} {branches : List (List Block)}
    (h : Block.loneBranches? bs = some branches) : bs = [.alternation branches .one] := by
  unfold Block.loneBranches? at h
  split at h
  next =>
    cases h
    rfl
  next => cases h

/-- Outside parentheses an alternation is a level deeper than its branches. -/
theorem Block.depthOfAll_alternation (branches : List (List Block)) :
    Block.depthOfAll [.alternation branches .one] = Block.depthOfBranches branches + 1 :=
  Nat.max_zero _

/-- An alternation by itself comes back inside a group, whose text is the same again. If its
branches are as deep as a pattern may be, then the output nests too deep. -/
theorem Conversion.ofPattern_output_of_alternation {pattern flags : String} {c : Conversion}
    {branches : List (List Block)}
    (h : Conversion.ofPattern pattern (Flags.ofString flags) = .ok c)
    (halternation : c.blocks = [.alternation branches .one]) :
    Block.depthOfBranches branches ≤ nestingLimit ∧
      (Block.depthOfBranches branches < nestingLimit →
        ∃ d, Conversion.ofPattern c.output (Flags.ofString flags) = .ok d ∧
          d.blocks = [.group false none c.blocks .one] ∧ d.output = c.output) ∧
      (Block.depthOfBranches branches = nestingLimit →
        ∃ span, Conversion.ofPattern c.output (Flags.ofString flags) =
          .error ⟨c.output, Flags.ofString flags, .malformed ⟨.nestingTooDeep, span⟩⟩) := by
  obtain ⟨hsettled, -⟩ := Conversion.settled_of_ofPattern h
  have hbody := hsettled.shallow
  have hreread := hsettled.rereadBody_eq
  have hdepth := Block.depthOfAll_alternation branches
  rw [halternation] at hbody hreread
  rw [← halternation] at hdepth
  refine ⟨hbody, ?_, ?_⟩
  · intro hlt
    obtain ⟨d, hd, hblocks, houtput, -⟩ := Conversion.ofPattern_output_of_le h (by omega)
    refine ⟨d, hd, ?_, houtput⟩
    rw [hblocks, halternation]
    exact congrArg (fun bs => [Block.group false none bs .one]) hreread
  · intro heq
    exact Conversion.ofPattern_output_of_lt h (by omega)

theorem Conversion.ofPattern_output_of_alternation_shallow :
    ∃ c d, Conversion.ofPattern "a|(b|c)*" (Flags.ofString "u") = .ok c ∧
      Conversion.ofPattern c.output (Flags.ofString "u") = .ok d ∧
      d.blocks = [.group false none c.blocks .one] ∧ d.output = c.output := by
  have hcheck : (Conversion.ofPattern "a|(b|c)*" (Flags.ofString "u")).toOption.any fun c =>
      (Block.loneBranches? c.blocks).any (Block.depthOfBranches · < nestingLimit) := by
    decide +kernel
  obtain ⟨c, hc, hlone⟩ := Conversion.exists_of_any hcheck
  obtain ⟨branches, hbranches, hdepth⟩ := (Option.any_eq_true ..).mp hlone
  obtain ⟨-, hshallow, -⟩ :=
    Conversion.ofPattern_output_of_alternation hc (Block.loneBranches?_eq_some hbranches)
  obtain ⟨d, hd⟩ := hshallow (of_decide_eq_true hdepth)
  exact ⟨c, d, hc, hd⟩

/-- A pattern as deep as it may be, with an alternation around the groups. -/
theorem Conversion.ofPattern_output_rejected :
    ∃ c branches, Conversion.ofPattern
        (String.ofList (List.replicate 128 '(' ++ List.replicate 128 ')' ++ ['|']))
        (Flags.ofString "") = .ok c ∧
      c.blocks = [.alternation branches .one] ∧
      ¬∃ d, Conversion.ofPattern c.output (Flags.ofString "") = .ok d := by
  have hcheck : (Conversion.ofPattern
      (String.ofList (List.replicate 128 '(' ++ List.replicate 128 ')' ++ ['|']))
      (Flags.ofString "")).toOption.any fun c =>
        (Block.loneBranches? c.blocks).any (Block.depthOfBranches · = nestingLimit) := by
    -- Taking the characters of a long text out again is slow to evaluate.
    rw [Conversion.ofPattern, Pattern.parse, Cursor.ofString, Capture.Scan.ofString,
      String.toList_ofList]
    decide +kernel
  obtain ⟨c, hc, hlone⟩ := Conversion.exists_of_any hcheck
  obtain ⟨branches, hbranches, hdepth⟩ := (Option.any_eq_true ..).mp hlone
  have halternation := Block.loneBranches?_eq_some hbranches
  have hdeep : nestingLimit < Block.depthOfAll c.blocks := by
    rw [halternation, Block.depthOfAll_alternation, of_decide_eq_true hdepth]
    exact Nat.lt_succ_self _
  obtain ⟨span, herror⟩ := Conversion.ofPattern_output_of_lt hc hdeep
  refine ⟨c, branches, hc, halternation, ?_⟩
  rintro ⟨d, hd⟩
  rw [herror] at hd
  cases hd

end PatternBlocks
