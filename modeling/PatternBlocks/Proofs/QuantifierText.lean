import PatternBlocks.Proofs.Arrival
import PatternBlocks.Proofs.HandBuilt

/-!
Quantifiers survive text. A block without a quantifier is written as an atom, and whatever
quantifier it is given is read behind the atom as it was, except that equal bounds are read as one
number. Bounds in the wrong order are an error.
-/
namespace PatternBlocks

namespace Block

/-- A single character, a shorthand, a class without a body of its own, or a capturing group of such
blocks without a name, all without quantifiers. Groups nest at most `levels` deep. -/
inductive IsSimple : Nat → Block → Prop
  | literal {levels : Nat} (ch : Char) : IsSimple levels (.literal (String.singleton ch) .one)
  | shorthand {levels : Nat} (which : Shorthand) : IsSimple levels (.shorthand which .one)
  | charClass {levels : Nat} {payload : CharClass} (h : payload.raw = none) :
      IsSimple levels (.charClass payload .one)
  | group {levels : Nat} {children : List Block} (h : ∀ b ∈ children, IsSimple levels b) :
      IsSimple (levels + 1) (.group true none children .one)

variable {levels : Nat} {x : Block}

theorem IsSimple.renderAfter_setQuant (h : x.IsSimple levels) (q : Quantifier)
    (afterNumber : Bool) :
    (x.setQuant q).renderAfter afterNumber = x.renderAfter afterNumber ++ q.render := by
  have hone : Quantifier.one.render = [] := rfl
  cases h <;> simp [setQuant, renderAfter, hone]

theorem setQuant_setQuant (x : Block) (q q' : Quantifier) :
    (x.setQuant q).setQuant q' = x.setQuant q' := by
  cases x <;> rfl

/-! ### Simple blocks are admissible -/

theorem IsSimple.nodes (h : x.IsSimple levels) : ∀ y ∈ x.nodes, ∃ l, y.IsSimple l := by
  induction h with
  | literal ch => exact List.forall_mem_singleton.mpr ⟨0, .literal ch⟩
  | shorthand which => exact List.forall_mem_singleton.mpr ⟨0, .shorthand which⟩
  | charClass h => exact List.forall_mem_singleton.mpr ⟨0, .charClass h⟩
  | group h ih =>
    refine List.forall_mem_cons.mpr ⟨⟨_, .group h⟩, fun y hy => ?_⟩
    obtain ⟨b, hb, hy⟩ := mem_nodesOfAll.mp hy
    exact ih b hb y hy

theorem IsSimple.admissible (h : x.IsSimple levels) (unicode : Bool)
    (captures : List (Option String)) : x.Admissible unicode captures := by
  cases h with
  | literal ch => exact ⟨trivial, by simp⟩
  | shorthand which => exact ⟨trivial, trivial⟩
  | charClass h => exact ⟨trivial, .inl h⟩
  | group h => exact ⟨trivial, nofun⟩

theorem IsSimple.capture?_eq (h : x.IsSimple levels) {name : Option String}
    (hname : x.capture? = some name) : name = none := by
  cases h <;> cases hname
  rfl

theorem IsSimple.depth_le (h : x.IsSimple levels) : x.depth ≤ levels := by
  induction h with
  | literal | shorthand | charClass => exact Nat.zero_le _
  | group h ih =>
    exact Nat.succ_le_succ (Nat.le_trans (depthOfBody_le _) (depthOfAll_le_iff.mpr ih))

theorem IsSimple.distinct {children : List Block} (h : ∀ b ∈ children, b.IsSimple levels) :
    Distinct (none :: captureNames (nodesOfAll children)) := by
  have hnone : ∀ name ∈ captureNames (nodesOfAll children), name = none := by
    intro name hname
    obtain ⟨y, hy, hcapture⟩ := List.mem_filterMap.mp hname
    obtain ⟨b, hb, hy⟩ := mem_nodesOfAll.mp hy
    obtain ⟨l, hsimple⟩ := (h b hb).nodes y hy
    exact hsimple.capture?_eq hcapture
  have hnames : (none :: captureNames (nodesOfAll children)).filterMap id = [] := by
    rw [List.filterMap_eq_nil_iff]
    exact List.forall_mem_cons.mpr ⟨rfl, hnone⟩
  rw [Distinct, hnames]
  exact List.nodup_nil

end Block

/-- With any quantifier, the piece becomes a single block that has the quantifier. -/
def Piece.TakesQuantifiers (p : Piece) : Prop :=
  ∀ q, (p.repeated q).IsTerm ∧ ∃ b, Piece.join [] [p.repeated q] = [b] ∧ b.quant = q

theorem Piece.TakesQuantifiers.char (ch : Char) : (Piece.char ch).TakesQuantifiers := by
  intro q
  by_cases hq : q = .one
  · subst hq
    exact ⟨trivial, _, rfl, rfl⟩
  · rw [repeated, if_neg hq]
    exact ⟨trivial, _, rfl, rfl⟩

theorem Piece.TakesQuantifiers.block {b : Block} (h : b.setQuant .one = b)
    (hterm : ∀ q, (Piece.block (b.setQuant q)).IsTerm) (hquant : ∀ q, (b.setQuant q).quant = q) :
    (Piece.block b).TakesQuantifiers := by
  intro q
  rw [repeated_block h]
  exact ⟨hterm q, _, rfl, hquant q⟩

namespace Block

open Grammar (YieldsAtom)

variable {levels : Nat} {x : Block}

/-- At the beginning of a pattern, a simple block is read as an atom whatever follows it. -/
theorem IsSimple.yieldsAtom (h : x.IsSimple levels) (mode : Grammar.Mode) {s : Grammar.State}
    {rest : List Char} (hs : s.cursor.rest = x.renderAfter false ++ rest)
    (hfirst : s.groupNames = []) :
    ∃ p repeats names, YieldsAtom mode levels [] s rest p repeats names ∧ repeats ∧
      p.TakesQuantifiers := by
  have hone : Quantifier.one.render = [] := rfl
  cases h with
  | literal ch =>
    have hatom : Grammar.ReadsAtom mode _ rest (.char ch) True :=
      Grammar.readsAtom_literalText false ch rest
    refine ⟨_, True, [], .of_readsAtom hatom nofun ?_, trivial, .char ch⟩
    simpa [renderAfter, hone] using hs
  | shorthand which =>
    refine ⟨_, True, [], .of_readsAtom (Grammar.readsAtom_shorthand which rest) nofun ?_, trivial,
      .block rfl (fun _ => trivial) fun _ => rfl⟩
    simpa [renderAfter, hone] using hs
  | @charClass _ payload hraw =>
    have hatom : Grammar.ReadsAtom mode _ rest (.block (.mkCharClass payload.reread)) True :=
      Grammar.readsAtom_charClass (CharClass.isInside_of_raw_eq_none hraw) rest
    refine ⟨_, True, [], .of_readsAtom hatom nofun ?_, trivial,
      .block rfl (fun _ => trivial) fun _ => rfl⟩
    simpa [renderAfter, hone] using hs
  | @group levels children hchildren =>
    have hadmissible : ∀ y ∈ nodesOfAll children, y.Admissible mode.unicode [] := by
      intro y hy
      obtain ⟨b, hb, hy⟩ := mem_nodesOfAll.mp hy
      obtain ⟨l, hsimple⟩ := (hchildren b hb).nodes y hy
      exact hsimple.admissible mode.unicode []
    have hdepth : depthOfBody children ≤ levels :=
      Nat.le_trans (depthOfBody_le children)
        (depthOfAll_le_iff.mpr fun b hb => (hchildren b hb).depth_le)
    have hopen := Grammar.opensGroup_plain
      (Grammar.follows_renderBody hadmissible (Grammar.follows_close rest)).1 s
    have hfits : Grammar.Fits mode [] := ⟨Nat.zero_le _, by simp⟩
    have hbody := Grammar.yields_body hfits children hadmissible hdepth
    have hatom := YieldsAtom.of_group hopen (fun t ht hnames => hbody ht (by simp) ?_)
      (by simpa [renderAfter, groupMark, hone] using hs)
    · exact ⟨_, _, _, hatom, rfl, .block rfl (fun _ => trivial) fun _ => rfl⟩
    · rw [hnames, hfirst]
      exact IsSimple.distinct hchildren

end Block

theorem Pattern.parse_of_yieldsAtom {unicode : Bool} {text : String} {p : Piece} {repeats : Prop}
    {names : List (Option String)} {q : Quantifier}
    (h : Grammar.YieldsAtom ⟨unicode, .ofString text⟩ nestingLimit names
      { cursor := .ofString text } (q.render ++ []) p repeats names)
    (hrepeats : repeats) (hp : p.TakesQuantifiers) :
    (¬q.Reversed → ∃ pattern b, Pattern.parse unicode text = .ok pattern ∧
      pattern.root.blocks = .ok [b] ∧ b.quant = q.asRead) ∧
    (q.Reversed → ∃ span, Pattern.parse unicode text = .error ⟨.quantifierOutOfOrder, span⟩) := by
  constructor
  · intro hreversed
    obtain ⟨hterm, b, hb, hquant⟩ := hp q.asRead
    have hyields := h.repeated hreversed (.inr hrepeats) (beginsWithout_nil _)
    have heach := hyields.single (List.forall_mem_singleton.mpr hterm) (by simp)
    obtain ⟨pattern, hparse, hblocks⟩ := Pattern.parse_of_yieldsEach heach
    rw [hb] at hblocks
    exact ⟨pattern, b, hparse, hblocks, hquant⟩
  · intro hreversed
    obtain ⟨more, a, ⟨⟨trest, position⟩, groups⟩, hatom, ht, -⟩ := h
    dsimp only at ht
    subst ht
    have hrepeated : ∃ span, Grammar.repeated unicode (Cursor.ofString text).position a
        ⟨q.render ++ [], position⟩ = .error ⟨.quantifierOutOfOrder, span⟩ :=
      Grammar.repeated_of_reversed hreversed a _ [] position
    obtain ⟨span, herror⟩ := hrepeated
    have hcomes : Pattern.ComesTo unicode text nestingLimit { cursor := .ofString text } :=
      .here .nil more
    refine ⟨span, hcomes.parse_eq_error ?_⟩
    simp only [Grammar.term, hatom, herror, Grammar.keepGroups]

/-- Whatever quantifier a block is given that is simple without one, it is what the block's text is
read with, and the text is an error if the bounds of the quantifier are in the wrong order. -/
theorem Conversion.ofPattern_setQuant {x : Block} (h : (x.setQuant .one).IsSimple nestingLimit)
    (q : Quantifier) (flags : Flags) :
    (¬q.Reversed → ∃ c b, Conversion.ofPattern (Block.pattern [x.setQuant q]) flags = .ok c ∧
      c.blocks = [b] ∧ b.quant = q.asRead) ∧
    (q.Reversed → ∃ span, Conversion.ofPattern (Block.pattern [x.setQuant q]) flags =
      .error ⟨Block.pattern [x.setQuant q], flags, .malformed ⟨.quantifierOutOfOrder, span⟩⟩) := by
  have htext : (Cursor.ofString (Block.pattern [x.setQuant q])).rest =
      (x.setQuant .one).renderAfter false ++ (q.render ++ []) := by
    have hrender := h.renderAfter_setQuant q false
    rw [Block.setQuant_setQuant] at hrender
    simp [Cursor.ofString, Block.pattern, Block.renderAll, hrender]
  obtain ⟨p, repeats, names, hatom, hrepeats, hp⟩ := h.yieldsAtom
    ⟨flags.unicode, .ofString (Block.pattern [x.setQuant q])⟩
    (s := { cursor := .ofString (Block.pattern [x.setQuant q]) }) htext rfl
  obtain ⟨hok, herror⟩ :=
    Pattern.parse_of_yieldsAtom (hatom.mono (List.nil_subset _)) hrepeats hp
  constructor
  · intro hreversed
    obtain ⟨pattern, b, hparse, hblocks, hquant⟩ := hok hreversed
    exact ⟨_, b, Conversion.ofPattern_of_parse hparse hblocks, rfl, hquant⟩
  · intro hreversed
    obtain ⟨span, hparse⟩ := herror hreversed
    exact ⟨span, by rw [Conversion.ofPattern, hparse]⟩

/-- A group in a group, with a parenthesis for a literal. -/
def Block.nestedGroups : Block :=
  .group true none [.literal "(" .one, .group true none [.shorthand .any .one] .one,
    .charClass { negate := true, custom := "]" } .one] .one

/-- Equal bounds at the largest word, and bounds in the wrong order. -/
theorem Conversion.ofPattern_setQuant_nestedGroups :
    (∃ c b, Conversion.ofPattern
        (Block.pattern [Block.nestedGroups.setQuant (.range 4294967295 4294967295 false)])
        { unicode := true } = .ok c ∧
      c.blocks = [b] ∧ b.quant = .exactly 4294967295 false) ∧
    ∃ span, Conversion.ofPattern (Block.pattern [Block.nestedGroups.setQuant (.range 1 0 true)])
        {} = .error ⟨"(\\((.)[^\\]]){1,0}", {}, .malformed ⟨.quantifierOutOfOrder, span⟩⟩ := by
  have hinner : (Block.group true none [.shorthand .any .one] .one).IsSimple 127 :=
    .group (List.forall_mem_singleton.mpr (.shorthand .any))
  have hsimple : (Block.nestedGroups.setQuant .one).IsSimple nestingLimit := by
    refine .group ?_
    simp only [List.forall_mem_cons, List.not_mem_nil, false_imp_iff, implies_true, and_true]
    exact ⟨.literal '(', hinner, .charClass rfl⟩
  constructor
  · exact (Conversion.ofPattern_setQuant hsimple (.range 4294967295 4294967295 false) _).1
      (UInt32.lt_irrefl _)
  · have htext : Block.pattern [Block.nestedGroups.setQuant (.range 1 0 true)] =
        "(\\((.)[^\\]]){1,0}" := by decide +kernel
    rw [← htext]
    have hlt : (0 : UInt32) < 1 := by decide
    exact (Conversion.ofPattern_setQuant hsimple (.range 1 0 true) {}).2 hlt

end PatternBlocks
