import PatternBlocks.Proofs.GroupText

/-!
The text of blocks is read back as the pieces of these blocks. What follows the text of a block
never runs on into it: no text begins like a quantifier, and none like a number behind a number.
-/
namespace PatternBlocks.Grammar

variable {mode : Mode} {levels : Nat} {captures : List (Option String)}

/-- The text may follow a term, or behind a bare number a number. -/
def Follows (afterNumber : Bool) (rest : List Char) : Prop :=
  BeginsWithout startsQuantifier rest ∧ (afterNumber → BeginsWithout Char.isDigit rest)

theorem follows_cons {afterNumber : Bool} {ch : Char} {rest : List Char}
    (hq : startsQuantifier ch = false) (hd : ch.isDigit = false) :
    Follows afterNumber (ch :: rest) := by
  refine ⟨?_, fun _ => ?_⟩ <;> rw [beginsWithout_cons] <;> simp [hq, hd]

theorem follows_close {afterNumber : Bool} (rest : List Char) : Follows afterNumber (')' :: rest) :=
  follows_cons (by decide) (by decide)

theorem Closes.follows {rest : List Char} (h : Closes rest) (afterNumber : Bool) :
    Follows afterNumber rest := by
  cases rest with
  | nil => exact ⟨beginsWithout_nil _, fun _ => beginsWithout_nil _⟩
  | cons ch rest =>
    obtain rfl | rfl := h ch rfl
    · exact follows_cons (by decide) (by decide)
    · exact follows_cons (by decide) (by decide)

theorem follows_quote {ch : Char} {afterNumber : Bool} (h : afterNumber → ¬ch.isDigit)
    (rest : List Char) : Follows afterNumber (quote literalSpecials [ch] ++ rest) := by
  by_cases hspecial : ch ∈ literalSpecials
  · have hquote : quote literalSpecials [ch] = ['\\', ch] := by simp [quote, hspecial]
    rw [hquote]
    exact follows_cons (by decide) (by decide)
  · have hquote : quote literalSpecials [ch] = [ch] := by simp [quote, hspecial]
    rw [hquote, List.singleton_append]
    refine ⟨beginsWithout_cons.mpr fun hstart => hspecial ?_,
      fun hafter => beginsWithout_cons.mpr (h hafter)⟩
    simp only [startsQuantifier, Bool.or_eq_true, decide_eq_true_eq] at hstart
    obtain ((rfl | rfl) | rfl) | rfl := hstart <;> decide

theorem follows_literalText (afterNumber : Bool) (ch : Char) (rest : List Char) :
    Follows afterNumber (Block.literalText afterNumber [ch] ++ rest) := by
  by_cases h : afterNumber ∧ ch.isDigit
  · rw [h.1, literalText_digit h.2]
    exact follows_cons (by decide) (by decide)
  · rw [literalText_quote (not_and.mp h)]
    exact follows_quote (not_and.mp h) rest

/-- The text of a block may follow any other. -/
theorem follows_renderAfter {b : Block} (h : ¬b.IsBlank) (afterNumber : Bool) (rest : List Char) :
    Follows afterNumber (b.renderAfter afterNumber ++ rest) := by
  cases b with
  | literal text q =>
    cases htext : text.toList with
    | nil => exact absurd (String.toList_eq_nil_iff.mp htext) h
    | cons ch cs =>
      rw [Block.renderAfter, htext, Block.literalText_cons, List.append_assoc, List.append_assoc]
      exact follows_literalText ..
  | shorthand which q => cases which <;> exact follows_cons (by decide) (by decide)
  | anchor which => cases which <;> exact follows_cons (by decide) (by decide)
  | boundary which q => cases which <;> exact follows_cons (by decide) (by decide)
  | charClass payload q => exact follows_cons (by decide) (by decide)
  | group capturing name children q =>
    rw [Block.renderAfter]
    exact follows_cons (by decide) (by decide)
  | alternation branches q =>
    rw [Block.renderAfter]
    exact follows_cons (by decide) (by decide)
  | look direction positive children q =>
    rw [Block.renderAfter]
    exact follows_cons (by decide) (by decide)
  | backref target q => cases target <;> exact follows_cons (by decide) (by decide)

theorem follows_renderAll {bs : List Block} (h : ∀ b ∈ bs, ¬b.IsBlank) {afterNumber : Bool}
    {rest : List Char} (hrest : Follows afterNumber rest) :
    Follows afterNumber (Block.renderAll afterNumber bs ++ rest) := by
  cases bs with
  | nil => exact hrest
  | cons b bs =>
    rw [Block.renderAll, List.append_assoc]
    exact follows_renderAfter (h b List.mem_cons_self) ..

theorem follows_renderBranches {branches : List (List Block)}
    (h : ∀ bs ∈ branches, ∀ b ∈ bs, ¬b.IsBlank) {rest : List Char} (hrest : Follows false rest) :
    Follows false (Block.renderBranches branches ++ rest) := by
  match branches with
  | [] => exact hrest
  | [branch] => exact follows_renderAll (h branch List.mem_cons_self) hrest
  | branch :: next :: branches =>
    rw [Block.renderBranches, List.append_assoc]
    · exact follows_renderAll (h branch List.mem_cons_self) (follows_cons (by decide) (by decide))
    · nofun

/-! ### Blocks without parentheses -/

/-- The count ahead of parsing allows for the given captures, whose names can be read. -/
structure Fits (mode : Mode) (captures : List (Option String)) : Prop where
  counted : captures.length ≤ mode.scan.count
  named : ∀ name, some name ∈ captures → mode.scan.anyNamed ∧ GroupName.IsName name

/-- A literal is read character by character, with the quantifier behind the last one. -/
theorem yields_literal {text : List Char} (htext : text ≠ []) {q : Quantifier}
    (horder : q.InOrder) {rest : List Char} (hrest : BeginsWithout startsQuantifier rest)
    {afterNumber : Bool} {s : State}
    (hs : s.cursor.rest = Block.literalText afterNumber text ++ q.render ++ rest) :
    Yields mode levels captures s rest (Block.literalPieces q text) [] := by
  induction text generalizing afterNumber s with
  | nil => exact absurd rfl htext
  | cons ch more ih =>
    cases more with
    | nil =>
      exact Yields.of_atom (readsAtom_literalText afterNumber ch (q.render ++ rest)) horder
        (.inr trivial) hrest (by simp) hs
    | cons ch' more =>
      have hfollows : Follows false
          (Block.literalText false (ch' :: more) ++ q.render ++ rest) := by
        rw [Block.literalText_cons, List.append_assoc, List.append_assoc]
        exact follows_literalText ..
      have hfirst : s.cursor.rest = Block.literalText afterNumber [ch] ++ Quantifier.one.render ++
          (Block.literalText false (ch' :: more) ++ q.render ++ rest) := by
        rw [hs, Block.literalText_cons]
        simp [Block.literalText_false, Quantifier.render, Quantifier.countMark,
          Quantifier.isGreedy]
      have hone : Yields mode levels captures s _ [Piece.char ch] [] :=
        Yields.of_atom (q := .one) (readsAtom_literalText afterNumber ch _) trivial (.inl rfl)
          hfollows.1 (by simp) hfirst
      exact hone.append fun t ht _ => ih (List.cons_ne_nil ch' more) ht

theorem isInside_of_admissible {unicode : Bool} {c : CharClass} {q : Quantifier}
    (h : (Block.charClass c q).Admissible unicode captures) :
    CharClass.IsInside unicode c.inside :=
  h.2.elim CharClass.isInside_of_raw_eq_none CharClass.isInside_of_standsAlone

theorem yields_backref (fits : Fits mode captures) {target : Target} {q : Quantifier}
    (h : (Block.backref target q).Admissible mode.unicode captures) {rest : List Char}
    (hrest : Follows (Block.backref target q).isBareNumber rest) {s : State}
    (hs : s.cursor.rest = target.render ++ q.render ++ rest) :
    Yields mode levels captures s rest [.block (.backref target q)] [] := by
  have hpiece : (Piece.block (.backref target .one)).repeated q = .block (.backref target q) :=
    Piece.repeated_block rfl q
  rw [← hpiece]
  cases target with
  | index n =>
    have hcount : n.value.toNat ≤ mode.scan.count := Nat.le_trans h.2 fits.counted
    have hdigit : BeginsWithout Char.isDigit (q.render ++ rest) := by
      cases q with
      | one => exact hrest.2 rfl
      | _ => exact beginsWithout_cons.mpr (by decide)
    exact Yields.of_atom (readsAtom_number hcount hdigit) h.1 (.inr trivial) hrest.1 nofun hs
  | name name =>
    obtain ⟨hnamed, hname⟩ := fits.named name h.2
    refine Yields.of_atom (readsAtom_name hnamed hname _) h.1 (.inr trivial) hrest.1 ?_ hs
    rintro _ ⟨⟩
    exact h.2

/-! ### All blocks -/

theorem not_isBlank_of_admissible {unicode : Bool} {b : Block}
    (h : b.Admissible unicode captures) : ¬b.IsBlank := by
  cases b with
  | literal text q => exact h.2
  | _ => exact id

theorem mem_nodes_self (b : Block) : b ∈ b.nodes := by
  cases b <;> exact List.mem_cons_self

theorem mem_nodesOfAll_self {b : Block} {bs : List Block} (h : b ∈ bs) :
    b ∈ Block.nodesOfAll bs :=
  Block.mem_nodesOfAll.mpr ⟨b, h, mem_nodes_self b⟩

/-- The inside of parentheses may follow them. -/
theorem follows_renderBody {unicode : Bool} {bs : List Block}
    (h : ∀ x ∈ Block.nodesOfAll bs, x.Admissible unicode captures) {rest : List Char}
    (hrest : Follows false rest) : Follows false (Block.renderBody bs ++ rest) := by
  by_cases hlone : Block.IsLoneAlternation bs
  · obtain ⟨branches, rfl⟩ := hlone
    refine follows_renderBranches (fun branch hbranch b hb => ?_) hrest
    refine not_isBlank_of_admissible (h b ?_)
    have hnodes := Block.mem_nodesOfBranches.mpr ⟨branch, hbranch, mem_nodesOfAll_self hb⟩
    exact List.mem_append_left _ (List.mem_cons_of_mem _ hnodes)
  · rw [Block.renderBody_eq hlone]
    exact follows_renderAll
      (fun b hb => not_isBlank_of_admissible (h b (mem_nodesOfAll_self hb))) hrest

theorem captureNames_cons (b : Block) (bs : List Block) :
    Block.captureNames (b :: bs) = Block.captureNames [b] ++ Block.captureNames bs := by
  rw [← List.singleton_append, Block.captureNames, List.filterMap_append]
  rfl

theorem captureNames_append (as bs : List Block) :
    Block.captureNames (as ++ bs) = Block.captureNames as ++ Block.captureNames bs :=
  List.filterMap_append

theorem opensGroup_groupMark {capturing : Bool} {name : Option String} {children : List Block}
    {q : Quantifier}
    (h : (Block.group capturing name children q).Admissible mode.unicode captures) {s : State}
    {names : List (Option String)}
    (hnew : Distinct (s.groupNames ++
      (Block.captureNames [.group capturing name children q] ++ names)))
    {body : List Char} (hbody : BeginsWithout startsQuantifier body) :
    ∃ o, OpensGroup s (Block.groupMark capturing name) body o
        (Block.captureNames [.group capturing name children q]) ∧
      (∀ bs, (o.block bs).setQuant q = .group capturing name bs q) ∧ o.mayRepeat mode.unicode := by
  cases capturing with
  | false =>
    obtain rfl : name = none := by
      cases name with
      | none => rfl
      | some name => exact absurd (h.2 name rfl).1 (by decide)
    exact ⟨.group .nonCapturing, opensGroup_mark (by decide) s body, fun _ => rfl, rfl⟩
  | true =>
    cases name with
    | none => exact ⟨_, opensGroup_plain hbody s, fun _ => rfl, rfl⟩
    | some name =>
      exact ⟨_, opensGroup_named (h.2 name rfl).2 hnew.not_mem body, fun _ => rfl, rfl⟩

theorem opensGroup_lookMark {direction : LookDirection} {positive : Bool} {children : List Block}
    {q : Quantifier}
    (h : (Block.look direction positive children q).Admissible mode.unicode captures)
    (s : State) (body : List Char) :
    ∃ o, OpensGroup s (Block.lookMark direction positive) body o [] ∧
      (∀ bs, (o.block bs).setQuant q = .look direction positive bs q) ∧
      (q = .one ∨ o.mayRepeat mode.unicode) := by
  have hmark : ∃ mark, Block.lookMark direction positive = '?' :: mark ∧
      (mark, Opening.look direction (!positive)) ∈ markedOpenings := by
    cases direction <;> cases positive <;> exact ⟨_, rfl, by decide⟩
  obtain ⟨mark, htext, hmem⟩ := hmark
  refine ⟨.look direction (!positive), ?_, fun bs => ?_, ?_⟩
  · rw [htext]
    exact opensGroup_mark hmem s body
  · simp [Opening.block, Block.mkLook, Block.setQuant]
  · by_cases hlook : direction = .behind ∨ mode.unicode
    · exact .inl (h.2 hlook)
    · right
      cases direction with
      | behind => exact absurd (.inl rfl) hlook
      | ahead => simpa [Opening.mayRepeat] using hlook

/-- Wherever it may stand, the text of the block is read as its pieces. -/
def ReadsBack (mode : Mode) (levels : Nat) (captures : List (Option String)) (b : Block) : Prop :=
  ∀ ⦃afterNumber : Bool⦄ ⦃rest : List Char⦄ ⦃s : State⦄,
    s.cursor.rest = b.renderAfter afterNumber ++ rest → Follows b.isBareNumber rest →
    Distinct (s.groupNames ++ Block.captureNames b.nodes) →
    Yields mode levels captures s rest b.pieces (Block.captureNames b.nodes)

def ReadsBackAll (mode : Mode) (levels : Nat) (captures : List (Option String))
    (bs : List Block) : Prop :=
  ∀ ⦃afterNumber : Bool⦄ ⦃rest : List Char⦄ ⦃s : State⦄,
    s.cursor.rest = Block.renderAll afterNumber bs ++ rest → Closes rest →
    Distinct (s.groupNames ++ Block.captureNames (Block.nodesOfAll bs)) →
    Yields mode levels captures s rest (Block.piecesOfAll bs)
      (Block.captureNames (Block.nodesOfAll bs))

theorem ReadsBack.cons {b : Block} {bs : List Block} (hb : ReadsBack mode levels captures b)
    (hbs : ReadsBackAll mode levels captures bs)
    (h : ∀ x ∈ Block.nodesOfAll bs, x.Admissible mode.unicode captures) :
    ReadsBackAll mode levels captures (b :: bs) := by
  intro afterNumber rest s hs hrest hdistinct
  have hfollows : Follows b.isBareNumber (Block.renderAll b.isBareNumber bs ++ rest) :=
    follows_renderAll (fun x hx => not_isBlank_of_admissible (h x (mem_nodesOfAll_self hx)))
      (hrest.follows _)
  rw [Block.renderAll, List.append_assoc] at hs
  rw [Block.nodesOfAll, captureNames_append, ← List.append_assoc] at hdistinct
  rw [Block.piecesOfAll, Block.nodesOfAll, captureNames_append]
  apply (hb hs hfollows hdistinct.left).append
  intro t ht hnames
  apply hbs ht hrest
  rwa [hnames]

/-- The texts of the branches, with bars between them, are read as the branches. -/
def ReadsBackEach (mode : Mode) (levels : Nat) (captures : List (Option String))
    (branches : List (List Block)) : Prop :=
  ∀ ⦃rest : List Char⦄ ⦃s : State⦄, s.cursor.rest = Block.renderBranches branches ++ rest →
    (∀ ch ∈ rest.head?, ch = ')') →
    Distinct (s.groupNames ++ Block.captureNames (Block.nodesOfBranches branches)) →
    YieldsEach mode levels captures s rest (Block.rereadEach branches)
      (Block.captureNames (Block.nodesOfBranches branches))

theorem ReadsBackAll.single {branch : List Block} (h : ReadsBackAll mode levels captures branch) :
    ReadsBackEach mode levels captures [branch] := by
  intro rest s hs hrest hdistinct
  simp only [Block.nodesOfBranches, List.append_nil] at hdistinct ⊢
  exact (h hs (fun ch hch => .inr (hrest ch hch)) hdistinct).single
    (fun _ => Block.isTerm_of_mem_piecesOfAll) hrest

theorem ReadsBackAll.before {branch next : List Block} {branches : List (List Block)}
    (h : ReadsBackAll mode levels captures branch)
    (k : ReadsBackEach mode levels captures (next :: branches)) :
    ReadsBackEach mode levels captures (branch :: next :: branches) := by
  intro rest s hs hrest hdistinct
  rw [Block.renderBranches, List.append_assoc] at hs
  · rw [Block.nodesOfBranches, captureNames_append, ← List.append_assoc] at hdistinct
    rw [Block.rereadEach, Block.nodesOfBranches, captureNames_append]
    have hbar : Closes ('|' :: (Block.renderBranches (next :: branches) ++ rest)) := by
      rintro _ ⟨⟩
      exact .inl rfl
    refine (h hs hbar hdistinct.left).before (fun _ => Block.isTerm_of_mem_piecesOfAll)
      fun t ht hnames => k ht hrest ?_
    rwa [hnames]
  · exact List.cons_ne_nil _ _

/-- The text inside parentheses is read as what the parentheses enclose. -/
def ReadsBackBody (mode : Mode) (levels : Nat) (captures : List (Option String)) (text : List Char)
    (children : List Block) (names : List (Option String)) : Prop :=
  ∀ ⦃rest : List Char⦄ ⦃s : State⦄, s.cursor.rest = text ++ rest →
    (∀ ch ∈ rest.head?, ch = ')') → Distinct (s.groupNames ++ names) →
    YieldsBody mode levels captures s rest children names

/-- No branches at all are read as one that is empty. -/
theorem readsBackBody_of_each {branches : List (List Block)}
    (h : branches ≠ [] → ReadsBackEach mode levels captures branches) :
    ReadsBackBody mode levels captures (Block.renderBranches branches)
      (Block.joinBranches (Block.rereadEach branches))
      (Block.captureNames (Block.nodesOfBranches branches)) := by
  intro rest s hs hrest hdistinct
  cases branches with
  | nil =>
    obtain rfl : s.cursor.rest = rest := hs
    exact ⟨[[]], Yields.nil.single nofun hrest, rfl⟩
  | cons branch branches => exact ⟨_, h nofun hs hrest hdistinct, rfl⟩

theorem readsBack_group {capturing : Bool} {name : Option String} {children : List Block}
    {q : Quantifier}
    (hself : (Block.group capturing name children q).Admissible mode.unicode captures)
    (hchildren : ∀ x ∈ Block.nodesOfAll children, x.Admissible mode.unicode captures)
    (hinside : ReadsBackBody mode levels captures (Block.renderBody children)
      (Block.rereadBody children) (Block.captureNames (Block.nodesOfAll children))) :
    ReadsBack mode (levels + 1) captures (.group capturing name children q) := by
  intro afterNumber rest s hs hrest hdistinct
  have hbody := follows_renderBody hchildren (follows_close (q.render ++ rest))
  rw [Block.nodes, captureNames_cons] at hdistinct ⊢
  obtain ⟨o, hopen, hblock, hmay⟩ := opensGroup_groupMark hself hdistinct hbody.1
  rw [Block.pieces, ← hblock]
  refine Yields.of_group hopen (fun t ht hnames => ?_) hself.1 (.inr hmay) hrest.1 ?_
  · apply hinside ht (by simp)
    rwa [hnames, List.append_assoc]
  · simpa [Block.renderAfter] using hs

theorem readsBack_alternation {branches : List (List Block)} {q : Quantifier}
    (hself : (Block.alternation branches q).Admissible mode.unicode captures)
    (hinside : ReadsBackBody mode levels captures (Block.renderBranches branches)
      (Block.joinBranches (Block.rereadEach branches))
      (Block.captureNames (Block.nodesOfBranches branches))) :
    ReadsBack mode (levels + 1) captures (.alternation branches q) := by
  intro afterNumber rest s hs hrest hdistinct
  have hmark : ([':'], .group .nonCapturing) ∈ markedOpenings := by decide
  have hopen := opensGroup_mark hmark s
    (Block.renderBranches branches ++ ')' :: (q.render ++ rest))
  refine Yields.of_group hopen (fun t ht hnames => ?_) hself.1 (.inr rfl) hrest.1 ?_
  · apply hinside ht (by simp)
    rw [hnames, List.append_nil]
    exact hdistinct
  · simpa [Block.renderAfter] using hs

theorem readsBack_look {direction : LookDirection} {positive : Bool} {children : List Block}
    {q : Quantifier}
    (hself : (Block.look direction positive children q).Admissible mode.unicode captures)
    (hinside : ReadsBackBody mode levels captures (Block.renderBody children)
      (Block.rereadBody children) (Block.captureNames (Block.nodesOfAll children))) :
    ReadsBack mode (levels + 1) captures (.look direction positive children q) := by
  intro afterNumber rest s hs hrest hdistinct
  obtain ⟨o, hopen, hblock, hmay⟩ := opensGroup_lookMark hself s
    (Block.renderBody children ++ ')' :: (q.render ++ rest))
  rw [Block.pieces, ← hblock]
  refine Yields.of_group hopen (fun t ht hnames => ?_) hself.1 hmay hrest.1 ?_
  · apply hinside ht (by simp)
    rw [hnames, List.append_nil]
    exact hdistinct
  · simpa [Block.renderAfter] using hs

/-- Blocks without parentheses need no room to nest. -/
theorem readsBack_leaf (fits : Fits mode captures) {b : Block} (hdepth : b.depth = 0)
    (hself : b.Admissible mode.unicode captures) : ReadsBack mode levels captures b := by
  intro afterNumber rest s hs hrest _
  cases b with
  | literal text q =>
    have htext : text.toList ≠ [] := mt String.toList_eq_nil_iff.mp hself.2
    exact yields_literal htext hself.1 hrest.1 hs
  | shorthand which q =>
    have hpiece : (Piece.block (.mkShorthand which)).repeated q = .block (.shorthand which q) :=
      Piece.repeated_block rfl q
    show Yields mode levels captures s rest [.block (.shorthand which q)] []
    rw [← hpiece]
    exact Yields.of_atom (readsAtom_shorthand which _) hself.1 (.inr trivial) hrest.1 nofun hs
  | anchor which =>
    have hs : s.cursor.rest = which.render ++ [] ++ rest := by
      rw [List.append_nil]
      exact hs
    exact Yields.of_atom (q := .one) (readsAtom_anchor which _) trivial (.inl rfl) hrest.1 nofun hs
  | boundary which q =>
    obtain rfl : q = .one := hself.2
    exact Yields.of_atom (q := .one) (readsAtom_boundary which _) trivial (.inl rfl) hrest.1
      nofun hs
  | charClass payload q =>
    have hpiece : (Piece.block (.mkCharClass payload.reread)).repeated q =
        .block (.charClass payload.reread q) := Piece.repeated_block rfl q
    rw [Block.pieces, ← hpiece]
    exact Yields.of_atom (readsAtom_charClass (isInside_of_admissible hself) _) hself.1
      (.inr trivial) hrest.1 nofun hs
  | backref target q => exact yields_backref fits hself hrest hs
  | group | alternation | look => exact absurd hdepth (Nat.succ_ne_zero _)

mutual

theorem yields_pieces (fits : Fits mode captures) : (b : Block) →
    (∀ x ∈ b.nodes, x.Admissible mode.unicode captures) → ∀ {levels : Nat}, b.depth ≤ levels →
    ReadsBack mode levels captures b
  | .group capturing name children q, h, levels, hdepth => by
    have hchildren (x) (hx : x ∈ Block.nodesOfAll children) := h x (List.mem_cons_of_mem _ hx)
    cases levels with
    | zero => exact absurd hdepth (Nat.not_succ_le_zero _)
    | succ levels =>
      have hinside := yields_body fits children hchildren (Nat.le_of_succ_le_succ hdepth)
      exact readsBack_group (h _ List.mem_cons_self) hchildren hinside
  | .alternation branches q, h, levels, hdepth => by
    have hbranches (x) (hx : x ∈ Block.nodesOfBranches branches) :=
      h x (List.mem_cons_of_mem _ hx)
    cases levels with
    | zero => exact absurd hdepth (Nat.not_succ_le_zero _)
    | succ levels =>
      have hinside := readsBackBody_of_each fun hne =>
        yields_each fits branches hne hbranches (Nat.le_of_succ_le_succ hdepth)
      exact readsBack_alternation (h _ List.mem_cons_self) hinside
  | .look direction positive children q, h, levels, hdepth => by
    have hchildren (x) (hx : x ∈ Block.nodesOfAll children) := h x (List.mem_cons_of_mem _ hx)
    cases levels with
    | zero => exact absurd hdepth (Nat.not_succ_le_zero _)
    | succ levels =>
      have hinside := yields_body fits children hchildren (Nat.le_of_succ_le_succ hdepth)
      exact readsBack_look (h _ List.mem_cons_self) hinside
  | .literal .., h, _, _ | .shorthand .., h, _, _ | .anchor _, h, _, _ | .boundary .., h, _, _
  | .charClass .., h, _, _ | .backref .., h, _, _ =>
    readsBack_leaf fits rfl (h _ List.mem_cons_self)

theorem yields_all (fits : Fits mode captures) : (bs : List Block) →
    (∀ x ∈ Block.nodesOfAll bs, x.Admissible mode.unicode captures) → ∀ {levels : Nat},
    Block.depthOfAll bs ≤ levels → ReadsBackAll mode levels captures bs
  | [], _, levels, _ => by
    intro afterNumber rest s hs _ _
    obtain rfl : s.cursor.rest = rest := hs
    exact .nil
  | b :: bs, h, levels, hdepth => by
    have hbs (x) (hx : x ∈ Block.nodesOfAll bs) := h x (List.mem_append_right _ hx)
    have hb := yields_pieces fits b (fun x hx => h x (List.mem_append_left _ hx))
      (Nat.le_trans (Nat.le_max_left ..) hdepth)
    exact hb.cons (yields_all fits bs hbs (Nat.le_trans (Nat.le_max_right ..) hdepth)) hbs

theorem yields_each (fits : Fits mode captures) : (branches : List (List Block)) →
    branches ≠ [] → (∀ x ∈ Block.nodesOfBranches branches, x.Admissible mode.unicode captures) →
    ∀ {levels : Nat}, Block.depthOfBranches branches ≤ levels →
    ReadsBackEach mode levels captures branches
  | [], hne, _, _, _ => absurd rfl hne
  | [branch], _, h, levels, hdepth =>
    (yields_all fits branch (fun x hx => h x (List.mem_append_left _ hx))
      (Nat.le_trans (Nat.le_max_left ..) hdepth)).single
  | branch :: next :: branches, _, h, levels, hdepth =>
    (yields_all fits branch (fun x hx => h x (List.mem_append_left _ hx))
      (Nat.le_trans (Nat.le_max_left ..) hdepth)).before
    (yields_each fits (next :: branches) nofun (fun x hx => h x (List.mem_append_right _ hx))
      (Nat.le_trans (Nat.le_max_right ..) hdepth))

theorem yields_body (fits : Fits mode captures) : (bs : List Block) →
    (∀ x ∈ Block.nodesOfAll bs, x.Admissible mode.unicode captures) → ∀ {levels : Nat},
    Block.depthOfBody bs ≤ levels →
    ReadsBackBody mode levels captures (Block.renderBody bs) (Block.rereadBody bs)
      (Block.captureNames (Block.nodesOfAll bs))
  | [], _, levels, _ => by
    intro rest s hs hrest _
    obtain rfl : s.cursor.rest = rest := hs
    exact ⟨[[]], Yields.nil.single nofun hrest, rfl⟩
  | b :: bs, h, levels, hdepth => by
    by_cases hlone : Block.IsLoneAlternation (b :: bs)
    · obtain ⟨branches, heq⟩ := hlone
      cases heq
      have hbranches (x) (hx : x ∈ Block.nodesOfBranches branches) :=
        h x (List.mem_append_left _ (List.mem_cons_of_mem _ hx))
      have hbody := readsBackBody_of_each fun hne => yields_each fits branches hne hbranches hdepth
      have hnames : Block.captureNames (Block.nodesOfAll [.alternation branches .one]) =
          Block.captureNames (Block.nodesOfBranches branches) := by
        rw [Block.nodesOfAll, Block.nodesOfAll, List.append_nil]
        rfl
      rw [hnames]
      exact hbody
    · rw [Block.depthOfBody_eq hlone] at hdepth
      have hbs (x) (hx : x ∈ Block.nodesOfAll bs) := h x (List.mem_append_right _ hx)
      have hb := yields_pieces fits b (fun x hx => h x (List.mem_append_left _ hx))
        (Nat.le_trans (Nat.le_max_left ..) hdepth)
      have hall := hb.cons (yields_all fits bs hbs (Nat.le_trans (Nat.le_max_right ..) hdepth)) hbs
      rw [Block.rereadBody_eq hlone, Block.renderBody_eq hlone]
      intro rest s hs hrest hdistinct
      have heach := hall.single hs hrest
      simp only [Block.nodesOfBranches, List.append_nil] at heach
      exact ⟨[Block.reread (b :: bs)], heach hdistinct, rfl⟩

end

end PatternBlocks.Grammar
