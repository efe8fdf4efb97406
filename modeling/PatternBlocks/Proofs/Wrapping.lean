import PatternBlocks.Proofs.Enclosure

/-!
Patterns in parentheses. What the grammar accepts may nest up to its limit and no deeper, and a
pattern in parentheses that capture nothing is accepted as the pattern inside one group or
lookaround, exactly as long as there is room for one level more.
-/
namespace PatternBlocks

namespace Regex

mutual

/-- How deep groups and lookarounds nest. -/
def depth : Regex → Nat
  | .group _ body _ | .look _ _ body _ => body.depth + 1
  | .repetition _ _ body _ => body.depth
  | .concat rs _ | .alternation rs _ => depthOfAll rs
  | _ => 0

def depthOfAll : List Regex → Nat
  | [] => 0
  | r :: rs => max r.depth (depthOfAll rs)

end

/-! ### What does not depend on spans -/

mutual

theorem depth_erase : (r : Regex) → r.erase.depth = r.depth
  | .empty _ | .char .. | .dot _ | .classEscape .. | .property _ | .bracket _ | .assertion ..
  | .backref .. => rfl
  | .group (.capturing ..) body _ | .group .nonCapturing body _ | .look _ _ body _ =>
    congrArg (· + 1) (depth_erase body)
  | .repetition _ _ body _ => depth_erase body
  | .concat rs _ | .alternation rs _ => depthOfAll_eraseAll rs

theorem depthOfAll_eraseAll : (rs : List Regex) → depthOfAll (eraseAll rs) = depthOfAll rs
  | [] => rfl
  | r :: rs => by rw [eraseAll, depthOfAll, depthOfAll, depth_erase r, depthOfAll_eraseAll rs]

end

mutual

theorem piece_erase {p : Piece} : (r : Regex) → (r.erase.piece = .ok p ↔ r.piece = .ok p)
  | .empty _ | .char .. | .dot _ | .classEscape .. | .bracket _ | .assertion .. => .rfl
  | .property _ => ⟨nofun, nofun⟩
  | .backref (.name _) _ => .rfl
  | .backref (.number n) _ => by
    simp only [erase, piece, Block.ofReference]
    cases Block.mkNumberReference n with
    | ok => exact .rfl
    | error => exact ⟨nofun, nofun⟩
  | .group (.capturing ..) body _ | .group .nonCapturing body _ | .look _ _ body _
  | .repetition _ _ body _ => by
    rw [erase, piece, piece, map_eq_ok, map_eq_ok]
    exact exists_congr fun _ => and_congr (piece_erase body) .rfl
  | .concat rs _ | .alternation rs _ => by
    rw [erase, piece, piece, map_eq_ok, map_eq_ok]
    exact exists_congr fun _ => and_congr (pieces_eraseAll rs) .rfl

theorem pieces_eraseAll {ps : List Piece} : (rs : List Regex) →
    (pieces (eraseAll rs) = .ok ps ↔ pieces rs = .ok ps)
  | [] => .rfl
  | r :: rs => by
    rw [eraseAll, Grammar.pieces_cons_eq_ok, Grammar.pieces_cons_eq_ok]
    exact exists_congr fun _ => exists_congr fun _ =>
      and_congr (piece_erase r) (and_congr (pieces_eraseAll rs) .rfl)

end

mutual

theorem map_fst_namedReferences_erase :
    (r : Regex) → r.erase.namedReferences.map (·.1) = r.namedReferences.map (·.1)
  | .empty _ | .char .. | .dot _ | .classEscape .. | .property _ | .bracket _ | .assertion ..
  | .backref (.name _) _ | .backref (.number _) _ => rfl
  | .group (.capturing ..) body _ | .group .nonCapturing body _ | .look _ _ body _
  | .repetition _ _ body _ => map_fst_namedReferences_erase body
  | .concat rs _ | .alternation rs _ => map_fst_namedReferencesOfAll_eraseAll rs

theorem map_fst_namedReferencesOfAll_eraseAll : (rs : List Regex) →
    (namedReferencesOfAll (eraseAll rs)).map (·.1) = (namedReferencesOfAll rs).map (·.1)
  | [] => rfl
  | r :: rs => by
    rw [eraseAll, namedReferencesOfAll, namedReferencesOfAll, List.map_append, List.map_append,
      map_fst_namedReferences_erase r, map_fst_namedReferencesOfAll_eraseAll rs]

end

end Regex

namespace Grammar

variable {mode : Mode}

/-! ### Depth -/

theorem depth_of_leaf {r : Regex} (h : Leaf mode r) : r.depth = 0 := by
  cases h <;> rfl

theorem depth_of_repeated {unicode : Bool} {start : Nat} {a r : Regex} {c d : Cursor}
    (h : repeated unicode start a c = .ok (r, d)) : r.depth = a.depth := by
  obtain ⟨rfl, -⟩ | ⟨count, greedy, rfl, -⟩ := repeated_eq_ok h <;> rfl

theorem depth_close (o : Opening) (r : Regex) (span : Span) :
    (o.close r span).depth = r.depth + 1 := by
  cases o <;> rfl

theorem depth_sequence (rs : List Regex) (span : Span) :
    (sequence rs span).depth = Regex.depthOfAll rs := by
  match rs with
  | [] => rfl
  | [r] => exact (Nat.max_zero _).symm
  | _ :: _ :: _ => rfl

theorem depth_choice (rs : Regex × List Regex) (span : Span) :
    (choice rs span).depth = Regex.depthOfAll (rs.1 :: rs.2) := by
  match rs with
  | (_, []) => exact (Nat.max_zero _).symm
  | (_, _ :: _) => rfl

mutual

theorem ReadsTerm.depth_le {levels : Nat} {s t : State} {r : Regex} :
    ReadsTerm mode levels s r t → r.depth ≤ levels
  | .plain _ _ atom count => by
    rw [depth_of_repeated count, depth_of_leaf (leaf_of_plainAtom atom)]
    exact Nat.zero_le _
  | .group _ _ inside _ count => by
    rw [depth_of_repeated count, depth_close, depth_choice]
    exact Nat.succ_le_succ inside.depth_le

theorem ReadsTerms.depth_le {levels : Nat} {s t : State} {rs : List Regex} :
    ReadsTerms mode levels s rs t → Regex.depthOfAll rs ≤ levels
  | .nil _ => Nat.zero_le _
  | .cons _ head tail => Nat.max_le.mpr ⟨head.depth_le, tail.depth_le⟩

/-- What is read nests no deeper than it may. -/
theorem ReadsAlternatives.depth_le {levels : Nat} {s t : State} {rs : Regex × List Regex} :
    ReadsAlternatives mode levels s rs t → Regex.depthOfAll (rs.1 :: rs.2) ≤ levels
  | .last terms _ => by
    rw [Regex.depthOfAll, depth_sequence]
    exact Nat.max_le.mpr ⟨terms.depth_le, Nat.zero_le _⟩
  | .more terms _ tail => by
    rw [Regex.depthOfAll, depth_sequence]
    exact Nat.max_le.mpr ⟨terms.depth_le, tail.depth_le⟩

end

mutual

theorem ReadsTerm.ofDepth {levels levels' : Nat} {s t : State} {r : Regex} :
    ReadsTerm mode levels s r t → r.depth ≤ levels' → ReadsTerm mode levels' s r t
  | .plain first noGroup atom count, _ => .plain first noGroup atom count
  | .group first opened inside closed count, h => by
    rw [depth_of_repeated count, depth_close, depth_choice] at h
    obtain ⟨l, rfl⟩ := Nat.exists_eq_succ_of_ne_zero (Nat.ne_zero_of_lt h)
    exact .group first opened (inside.ofDepth (Nat.le_of_succ_le_succ h)) closed count

theorem ReadsTerms.ofDepth {levels levels' : Nat} {s t : State} {rs : List Regex} :
    ReadsTerms mode levels s rs t → Regex.depthOfAll rs ≤ levels' →
    ReadsTerms mode levels' s rs t
  | .nil last, _ => .nil last
  | .cons more head tail, h =>
    have ⟨hhead, htail⟩ := Nat.max_le.mp h
    .cons more (head.ofDepth hhead) (tail.ofDepth htail)

/-- What is read is read wherever there is room for its depth. -/
theorem ReadsAlternatives.ofDepth {levels levels' : Nat} {s t : State}
    {rs : Regex × List Regex} : ReadsAlternatives mode levels s rs t →
    Regex.depthOfAll (rs.1 :: rs.2) ≤ levels' → ReadsAlternatives mode levels' s rs t
  | .last terms noBar, h => by
    rw [Regex.depthOfAll, depth_sequence] at h
    exact .last (terms.ofDepth (Nat.max_le.mp h).1) noBar
  | .more terms bar tail, h => by
    rw [Regex.depthOfAll, depth_sequence] at h
    have ⟨hterms, htail⟩ := Nat.max_le.mp h
    exact .more (terms.ofDepth hterms) bar (tail.ofDepth htail)

end

/-! ### Parentheses around a text -/

/-- The text in parentheses with the mark behind the first one. -/
def wrap (mark text : List Char) : List Char := '(' :: '?' :: (mark ++ (text ++ [')']))

/-- At the end of the text no quantifier follows. -/
theorem repeated_nil (unicode : Bool) (start : Nat) (r : Regex) (position : Nat) :
    repeated unicode start r ⟨[], position⟩ = .ok (r, ⟨[], position⟩) :=
  rfl

theorem opening_wrap {mark : List Char} {o : Opening} (h : (mark, o) ∈ markedOpenings)
    (start position : Nat) (body : List Char) :
    ∃ shift, opening start { cursor := ⟨'?' :: (mark ++ body), position⟩ } =
      .ok (o, { cursor := ⟨body, shift⟩ }) := by
  simp only [markedOpenings, List.mem_cons, Prod.mk.injEq, List.not_mem_nil, or_false] at h
  obtain ⟨rfl, rfl⟩ | ⟨rfl, rfl⟩ | ⟨rfl, rfl⟩ | ⟨rfl, rfl⟩ | ⟨rfl, rfl⟩ := h
  all_goals exact ⟨_, rfl⟩

/-- A text that is read to its end is read in parentheses as what they enclose. -/
theorem ReadsAlternatives.wrap {levels : Nat} {text mark : List Char} {o : Opening}
    {rs : Regex × List Regex} {t : State}
    (h : ReadsAlternatives mode levels { cursor := ⟨text, 0⟩ } rs t) (hend : t.cursor.rest = [])
    (ho : (mark, o) ∈ markedOpenings) :
    ∃ body span u,
      ReadsAlternatives mode (levels + 1) { cursor := ⟨Grammar.wrap mark text, 0⟩ }
        (o.close body span, []) u ∧
      u.cursor.rest = [] ∧ u.groups = t.groups ∧
      body.erase = (choice rs (t.cursor.spanSince 0)).erase := by
  obtain ⟨shift, hopen⟩ := opening_wrap ho 0 ('('.utf8Size) (text ++ [')'])
  obtain ⟨rs', references, hinside, hfirst, hmore⟩ := h.enclose shift [] []
  obtain ⟨⟨_, position⟩, groups, _⟩ := t
  dsimp only at hend
  subst hend
  simp only [State.enclose, Cursor.enclose, Nat.zero_add] at hinside
  have hclosed : Cursor.eat? ')' ⟨[] ++ [')'], position + shift⟩ =
      some ⟨[], position + shift + ')'.utf8Size⟩ := rfl
  have hterm := ReadsTerm.group (s := { cursor := ⟨Grammar.wrap mark text, 0⟩ }) rfl hopen hinside
    hclosed (repeated_nil _ _ _ _)
  refine ⟨_, _, _, .last (.cons ?_ hterm (.nil rfl)) rfl, rfl, rfl, erase_choice hfirst hmore _ _⟩
  simp [Grammar.wrap, endsAlternative, Cursor.peek?]

end Grammar

/-! ### Patterns in parentheses -/

/-- The texts that begin a group or a lookaround that captures nothing, and the block that each
makes of the blocks inside it. -/
def Block.wrappings (bs : List Block) : List (String × Block) :=
  [("(?:", .group false none bs .one), ("(?=", .look .ahead true bs .one),
    ("(?!", .look .ahead false bs .one), ("(?<=", .look .behind true bs .one),
    ("(?<!", .look .behind false bs .one)]

theorem Block.mem_wrappings {bs : List Block} {x : String × Block} (h : x ∈ wrappings bs) :
    ∃ mark o, (mark, o) ∈ Grammar.markedOpenings ∧ x.2 = o.block bs ∧
      ∀ pattern : String,
        (x.1 ++ pattern ++ ")").toList = Grammar.wrap mark pattern.toList := by
  have htext (begin : String) (mark : List Char) (hbegin : begin.toList = '(' :: '?' :: mark)
      (pattern : String) :
      (begin ++ pattern ++ ")").toList = Grammar.wrap mark pattern.toList := by
    rw [String.toList_append, String.toList_append, hbegin, List.append_assoc]
    rfl
  simp only [wrappings, List.mem_cons, List.not_mem_nil, or_false] at h
  obtain rfl | rfl | rfl | rfl | rfl := h
  · exact ⟨[':'], .group .nonCapturing, by decide, rfl, htext "(?:" _ (by decide)⟩
  · exact ⟨['='], .look .ahead false, by decide, rfl, htext "(?=" _ (by decide)⟩
  · exact ⟨['!'], .look .ahead true, by decide, rfl, htext "(?!" _ (by decide)⟩
  · exact ⟨['<', '='], .look .behind false, by decide, rfl, htext "(?<=" _ (by decide)⟩
  · exact ⟨['<', '!'], .look .behind true, by decide, rfl, htext "(?<!" _ (by decide)⟩

namespace Pattern

variable {unicode : Bool} {text wrapped : String} {p : Pattern} {mark : List Char}
  {o : Grammar.Opening}

/-- Parentheses that capture nothing do not count. -/
theorem scan_wrap (h : Pattern.parse unicode text = .ok p)
    (ho : (mark, o) ∈ Grammar.markedOpenings)
    (hwrapped : wrapped.toList = Grammar.wrap mark text.toList) :
    Capture.Scan.ofString wrapped = Capture.Scan.ofString text := by
  obtain ⟨rs, t, hrs, hend, -⟩ := Pattern.parse_eq_ok h
  obtain ⟨body, span, u, hread, huend, hgroups, -⟩ := hrs.wrap hend ho
  obtain ⟨hregistered, hcounted⟩ := hrs.opens
  obtain ⟨hregistered', hcounted'⟩ := hread.opens
  rw [hgroups, hregistered] at hregistered'
  rw [← List.append_cancel_left hregistered', huend] at hcounted'
  rw [hend] at hcounted
  rw [Capture.Scan.ofString, hwrapped, hcounted', ← hcounted]
  rfl

/-- A pattern that leaves room for one level more is accepted in parentheses. -/
theorem parse_wrap_of_lt (h : Pattern.parse unicode text = .ok p)
    (ho : (mark, o) ∈ Grammar.markedOpenings)
    (hwrapped : wrapped.toList = Grammar.wrap mark text.toList)
    (hdepth : p.root.depth < nestingLimit) :
    ∃ q body span, Pattern.parse unicode wrapped = .ok q ∧ q.root = o.close body span ∧
      body.erase = p.root.erase := by
  have hscan := scan_wrap h ho hwrapped
  obtain ⟨rs, t, hrs, hend, hroot, -, -, hrefs⟩ := Pattern.parse_eq_ok h
  rw [hroot, Grammar.depth_choice] at hdepth
  obtain ⟨levels, hlevels⟩ := Nat.exists_eq_succ_of_ne_zero (Nat.ne_zero_of_lt hdepth)
  have hroom : Regex.depthOfAll (rs.1 :: rs.2) ≤ levels := Nat.le_of_lt_succ (hlevels ▸ hdepth)
  obtain ⟨body, span, u, hread, huend, hgroups, herase⟩ := (hrs.ofDepth hroom).wrap hend ho
  rw [← hroot] at herase
  refine ⟨⟨o.close body span, u.groups.size, u.groups.names⟩, body, span, ?_, rfl, herase⟩
  rw [← hscan, ← Nat.succ_eq_add_one, ← hlevels] at hread
  rw [← hwrapped, ← Cursor.ofString] at hread
  refine Pattern.parse_eq_ok_of_reads hread huend rfl rfl rfl ?_
  intro x hx
  dsimp only at hx
  rw [Grammar.namedReferences_close] at hx
  have hnames : body.namedReferences.map (·.1) = p.root.namedReferences.map (·.1) := by
    rw [← Regex.map_fst_namedReferences_erase body, herase,
      Regex.map_fst_namedReferences_erase]
  have hname := List.mem_map_of_mem (f := (·.1)) hx
  rw [hnames] at hname
  obtain ⟨y, hy, hxy⟩ := List.mem_map.mp hname
  rw [hgroups, ← hxy]
  exact hrefs y hy

/-- A pattern that is as deep as it may be is too deep in parentheses. -/
theorem parse_wrap_of_eq (h : Pattern.parse unicode text = .ok p)
    (ho : (mark, o) ∈ Grammar.markedOpenings)
    (hwrapped : wrapped.toList = Grammar.wrap mark text.toList)
    (hdepth : p.root.depth = nestingLimit) :
    ∃ span, Pattern.parse unicode wrapped = .error ⟨.nestingTooDeep, span⟩ := by
  have hscan := scan_wrap h ho hwrapped
  obtain ⟨rs, t, hrs, hend, hroot, -⟩ := Pattern.parse_eq_ok h
  obtain ⟨body, span, u, hread, huend, hgroups, herase⟩ := hrs.wrap hend ho
  rw [← hroot] at herase
  have hbody : body.depth = nestingLimit := by
    rw [← Regex.depth_erase body, herase, Regex.depth_erase, hdepth]
  rcases hread.atLevel nestingLimit with hread | ⟨span, herror⟩
  · have hle := hread.depth_le
    rw [Regex.depthOfAll, Grammar.depth_close, hbody] at hle
    exact absurd (Nat.le_trans (Nat.le_max_left _ _) hle) (Nat.not_succ_le_self _)
  · refine ⟨span, ?_⟩
    unfold Pattern.parse
    rw [Cursor.ofString, hwrapped, hscan]
    simp only [Grammar.bodyReader_read, Grammar.disjunction, herror]

/-- Every depth up to the limit is that of some pattern. -/
theorem exists_depth_eq (unicode : Bool) {depth : Nat} (h : depth ≤ nestingLimit) :
    ∃ text p, Pattern.parse unicode text = .ok p ∧ p.root.depth = depth := by
  induction depth with
  | zero =>
    have hterms : Grammar.ReadsTerms ⟨unicode, .ofString ""⟩ nestingLimit
        { cursor := .ofString "" } [] { cursor := .ofString "" } := .nil (by decide)
    have hread := Grammar.ReadsAlternatives.last hterms (by decide)
    exact ⟨"", ⟨.empty (.point 0), 0, []⟩,
      Pattern.parse_eq_ok_of_reads hread (by decide) rfl rfl rfl nofun, rfl⟩
  | succ depth ih =>
    obtain ⟨text, p, hparse, hdepth⟩ := ih (Nat.le_of_succ_le h)
    have hmark : ([':'], .group .nonCapturing) ∈ Grammar.markedOpenings := by decide
    have hroom : p.root.depth < nestingLimit := hdepth ▸ h
    obtain ⟨q, body, span, hq, hroot, herase⟩ :=
      parse_wrap_of_lt hparse hmark String.toList_ofList hroom
    refine ⟨_, q, hq, ?_⟩
    rw [hroot, Grammar.depth_close, ← Regex.depth_erase, herase, Regex.depth_erase, hdepth]

end Pattern

/-- Patterns nest no deeper than the limit. In parentheses that capture nothing a pattern gives one
block around its own blocks, unless it is already as deep as it may be. -/
theorem Conversion.ofPattern_wrapped {pattern : String} {flags : Flags} {c : Conversion}
    (h : Conversion.ofPattern pattern flags = .ok c) :
    c.root.depth ≤ nestingLimit ∧ ∀ x ∈ Block.wrappings c.blocks,
      (c.root.depth < nestingLimit →
        Block.ofPattern (x.1 ++ pattern ++ ")") flags = .ok [x.2]) ∧
      (c.root.depth = nestingLimit → ∃ span, Block.ofPattern (x.1 ++ pattern ++ ")") flags =
        .error ⟨x.1 ++ pattern ++ ")", flags, .malformed ⟨.nestingTooDeep, span⟩⟩) := by
  obtain ⟨p, hparse, hblocks, -, hroot⟩ := Conversion.ofPattern_eq_ok h
  rw [hroot]
  constructor
  · obtain ⟨rs, t, hrs, -, hchoice, -⟩ := Pattern.parse_eq_ok hparse
    rw [hchoice, Grammar.depth_choice]
    exact hrs.depth_le
  · intro x hx
    obtain ⟨mark, o, ho, hblock, htext⟩ := Block.mem_wrappings hx
    constructor
    · intro hdepth
      obtain ⟨q, body, span, hq, hclose, herase⟩ :=
        Pattern.parse_wrap_of_lt hparse ho (htext pattern) hdepth
      obtain ⟨piece, hpiece, hbs⟩ := map_eq_ok.mp hblocks
      have hbody : body.piece = .ok piece := by
        rwa [← Regex.piece_erase, herase, Regex.piece_erase]
      have hqblocks : q.root.blocks = .ok [x.2] := by
        rw [hclose, Regex.blocks, Grammar.piece_close o hbody, hbs, hblock]
        rfl
      rw [Block.ofPattern, Conversion.ofPattern_of_parse hq hqblocks]
      rfl
    · intro hdepth
      obtain ⟨span, herror⟩ := Pattern.parse_wrap_of_eq hparse ho (htext pattern) hdepth
      refine ⟨span, ?_⟩
      rw [Block.ofPattern, Conversion.ofPattern, herror]
      rfl

/-- Patterns whose readings run into the end of the text, where the parenthesis now stands. -/
theorem Conversion.ofPattern_wrapped_unfinished :
    ∃ c, Conversion.ofPattern "(?=(a)|\\cé[)]\\2\\u00)x\x7b1,😀\\x" {} = .ok c ∧
      c.root.depth ≤ nestingLimit ∧ ∀ x ∈ Block.wrappings c.blocks,
        (c.root.depth < nestingLimit →
          Block.ofPattern (x.1 ++ "(?=(a)|\\cé[)]\\2\\u00)x\x7b1,😀\\x" ++ ")") {} = .ok [x.2]) ∧
        (c.root.depth = nestingLimit →
          ∃ span, Block.ofPattern (x.1 ++ "(?=(a)|\\cé[)]\\2\\u00)x\x7b1,😀\\x" ++ ")") {} =
            .error ⟨x.1 ++ "(?=(a)|\\cé[)]\\2\\u00)x\x7b1,😀\\x" ++ ")", {},
              .malformed ⟨.nestingTooDeep, span⟩⟩) := by
  have hcheck : (Conversion.ofPattern "(?=(a)|\\cé[)]\\2\\u00)x\x7b1,😀\\x" {}).toOption.any
      fun _ => true := by
    decide +kernel
  obtain ⟨c, hc, -⟩ := Conversion.exists_of_any hcheck
  exact ⟨c, hc, Conversion.ofPattern_wrapped hc⟩

end PatternBlocks
