import PatternBlocks.Proofs.CaptureNames
import PatternBlocks.Proofs.HandBuilt

/-!
Blocks that are read are settled: they are within the restrictions of the grammar, and reading their
own text again would not change them. Each rule of the grammar keeps to what is settled.
-/
namespace PatternBlocks

variable {unicode : Bool} {captures : List (Option String)} {levels : Nat}

namespace Block

/-- A block that is read again as itself. -/
structure Settled (unicode : Bool) (captures : List (Option String)) (levels : Nat) (b : Block) :
    Prop where
  pieces_eq : b.pieces = [.block b]
  admissible : ∀ x ∈ b.nodes, x.Admissible unicode captures
  shallow : b.depth ≤ levels

/-- Blocks in a row that are read again as themselves. -/
structure SettledAll (unicode : Bool) (captures : List (Option String)) (levels : Nat)
    (bs : List Block) : Prop where
  reread_eq : reread bs = bs
  admissible : ∀ x ∈ nodesOfAll bs, x.Admissible unicode captures
  shallow : depthOfAll bs ≤ levels

/-- Blocks that are read again as themselves inside parentheses. -/
structure SettledBody (unicode : Bool) (captures : List (Option String)) (levels : Nat)
    (bs : List Block) : Prop where
  rereadBody_eq : rereadBody bs = bs
  admissible : ∀ x ∈ nodesOfAll bs, x.Admissible unicode captures
  shallow : depthOfBody bs ≤ levels

end Block

/-- A term is settled if its block is. -/
def Piece.Settled (unicode : Bool) (captures : List (Option String)) (levels : Nat) : Piece → Prop
  | .char _ => True
  | .block b => b.Settled unicode captures levels
  | _ => False

open Block

theorem Piece.Settled.isTerm {p : Piece} (h : p.Settled unicode captures levels) : p.IsTerm := by
  cases p with
  | char => trivial
  | block b => exact isTerm_of_mem_pieces (b := b) (h.pieces_eq ▸ List.mem_cons_self)
  | _ => exact h

/-! ### Sequences and branches -/

theorem literalPieces_one (text : List Char) : literalPieces .one text = text.map .char := by
  induction text with
  | nil => rfl
  | cons ch more ih => cases more <;> simp_all [literalPieces]

theorem piecesOfAll_append (as bs : List Block) :
    piecesOfAll (as ++ bs) = piecesOfAll as ++ piecesOfAll bs := by
  induction as with
  | nil => rfl
  | cons a as ih => simp [piecesOfAll, ih]

theorem depthOfAll_append (as bs : List Block) :
    depthOfAll (as ++ bs) = max (depthOfAll as) (depthOfAll bs) := by
  induction as with
  | nil => simp [depthOfAll]
  | cons a as ih => simp [depthOfAll, ih, Nat.max_assoc]

theorem piecesOfAll_ofRun (run : List Char) :
    piecesOfAll (Piece.ofRun run) = run.reverse.map .char := by
  unfold Piece.ofRun
  split
  next hrun => simp [List.isEmpty_iff.mp hrun, piecesOfAll]
  next => simp [piecesOfAll, mkLiteral, pieces, literalPieces_one]

theorem settled_ofRun (run : List Char) :
    (∀ x ∈ nodesOfAll (Piece.ofRun run), x.Admissible unicode captures) ∧
      depthOfAll (Piece.ofRun run) ≤ levels := by
  unfold Piece.ofRun
  split
  next => exact ⟨nofun, Nat.zero_le _⟩
  next hrun =>
    refine ⟨?_, Nat.zero_le _⟩
    intro x hx
    obtain rfl := List.mem_singleton.mp hx
    have htext : String.ofList run.reverse ≠ "" := by simpa using hrun
    exact ⟨trivial, htext⟩

theorem Piece.join_block (run : List Char) (b : Block) (ps : List Piece) :
    join run (.block b :: ps) = ofRun run ++ b :: join [] ps :=
  rfl

/-- Merging the characters of settled terms gives blocks that are settled. -/
theorem settled_join {ps : List Piece} (h : ∀ p ∈ ps, p.Settled unicode captures levels)
    (run : List Char) :
    piecesOfAll (Piece.join run ps) = run.reverse.map .char ++ ps ∧
      (∀ x ∈ nodesOfAll (Piece.join run ps), x.Admissible unicode captures) ∧
      depthOfAll (Piece.join run ps) ≤ levels := by
  induction ps generalizing run with
  | nil =>
    rw [List.append_nil]
    exact ⟨piecesOfAll_ofRun run, settled_ofRun run⟩
  | cons p ps ih =>
    have hps : ∀ p ∈ ps, p.Settled unicode captures levels :=
      fun p hp => h p (List.mem_cons_of_mem _ hp)
    have hp := h p List.mem_cons_self
    cases p with
    | nothing => exact hp.elim
    | sequence => exact hp.elim
    | char ch =>
      obtain ⟨hpieces, hrest⟩ := ih hps (ch :: run)
      refine ⟨?_, hrest⟩
      rw [Piece.join, hpieces]
      simp
    | block b =>
      obtain ⟨hpieces, hadmissible, hdepth⟩ := ih hps []
      have hrun : (∀ x ∈ nodesOfAll (Piece.ofRun run), x.Admissible unicode captures) ∧
          depthOfAll (Piece.ofRun run) ≤ levels := settled_ofRun run
      rw [Piece.join_block]
      refine ⟨?_, ?_, ?_⟩
      · simp [piecesOfAll_append, piecesOfAll_ofRun, piecesOfAll, hp.pieces_eq, hpieces]
      · intro x hx
        rw [nodesOfAll_append, nodesOfAll] at hx
        rcases List.mem_append.mp hx with hx | hx
        · exact hrun.1 x hx
        rcases List.mem_append.mp hx with hx | hx
        · exact hp.admissible x hx
        · exact hadmissible x hx
      · rw [depthOfAll_append, depthOfAll]
        exact Nat.max_le.mpr ⟨hrun.2, Nat.max_le.mpr ⟨hp.shallow, hdepth⟩⟩

theorem settledAll_join {ps : List Piece} (h : ∀ p ∈ ps, p.Settled unicode captures levels) :
    SettledAll unicode captures levels (Piece.join [] ps) := by
  obtain ⟨hpieces, hadmissible, hdepth⟩ := settled_join h []
  exact ⟨congrArg (Piece.join []) hpieces, hadmissible, hdepth⟩

theorem Block.SettledAll.not_isLoneAlternation {bs : List Block}
    (h : SettledAll unicode captures levels bs) : ¬IsLoneAlternation bs :=
  h.reread_eq ▸ not_isLoneAlternation_reread bs

theorem rereadEach_eq {branches : List (List Block)}
    (h : ∀ branch ∈ branches, SettledAll unicode captures levels branch) :
    rereadEach branches = branches := by
  induction branches with
  | nil => rfl
  | cons branch branches ih =>
    have hbranch := (h branch List.mem_cons_self).reread_eq
    rw [rereadEach, ih fun branch hb => h branch (List.mem_cons_of_mem _ hb)]
    exact congrArg (· :: branches) hbranch

theorem admissible_of_settledAll {branches : List (List Block)}
    (h : ∀ branch ∈ branches, SettledAll unicode captures levels branch) :
    ∀ x ∈ nodesOfBranches branches, x.Admissible unicode captures := by
  induction branches with
  | nil => exact nofun
  | cons branch branches ih =>
    intro x hx
    rcases List.mem_append.mp hx with hx | hx
    · exact (h branch List.mem_cons_self).admissible x hx
    · exact ih (fun branch hb => h branch (List.mem_cons_of_mem _ hb)) x hx

theorem depthOfBranches_le {branches : List (List Block)}
    (h : ∀ branch ∈ branches, SettledAll unicode captures levels branch) :
    depthOfBranches branches ≤ levels := by
  induction branches with
  | nil => exact Nat.zero_le _
  | cons branch branches ih =>
    exact Nat.max_le.mpr ⟨(h branch List.mem_cons_self).shallow,
      ih fun branch hb => h branch (List.mem_cons_of_mem _ hb)⟩

/-- Settled branches are settled inside parentheses. -/
theorem settledBody_joinBranches {branches : List (List Block)}
    (h : ∀ branch ∈ branches, SettledAll unicode captures levels branch) :
    SettledBody unicode captures levels (joinBranches branches) := by
  match branches with
  | [] => exact ⟨rfl, nofun, Nat.zero_le _⟩
  | [branch] =>
    have hbranch := h branch List.mem_cons_self
    have hlone := hbranch.not_isLoneAlternation
    rw [joinBranches]
    refine ⟨?_, hbranch.admissible, ?_⟩
    · rw [rereadBody_eq hlone, hbranch.reread_eq]
    · rw [depthOfBody_eq hlone]
      exact hbranch.shallow
  | first :: second :: branches =>
    refine ⟨?_, ?_, depthOfBranches_le h⟩
    · rw [joinBranches, rereadBody, rereadEach_eq h]
      · rfl
      all_goals nofun
    · intro x hx
      rw [joinBranches, nodesOfAll, nodesOfAll, List.append_nil] at hx
      · rcases List.mem_cons.mp hx with rfl | hx
        · exact ⟨trivial, trivial⟩
        · exact admissible_of_settledAll h x hx
      all_goals nofun

/-! ### Terms -/

theorem ofCount_ne_one (count : Count) (greedy : Bool) :
    Quantifier.ofCount greedy count ≠ .one := by
  cases count with
  | range least most =>
    cases most with
    | none => simp [Quantifier.ofCount]
    | some most =>
      rw [Quantifier.ofCount]
      split <;> simp
  | _ => simp [Quantifier.ofCount]

theorem inOrder_ofCount {count : Count} (h : count.InOrder) (greedy : Bool) :
    (Quantifier.ofCount greedy count).InOrder := by
  cases count with
  | range least most =>
    cases most with
    | none => trivial
    | some most =>
      by_cases heq : most = least
      · rw [Quantifier.ofCount, if_pos heq]
        trivial
      · rw [Quantifier.ofCount, if_neg heq]
        have hle : least.toNat ≤ most.toNat := UInt32.le_iff_toNat_le.mp h
        have hne : most.toNat ≠ least.toNat := mt UInt32.toNat_inj.mp heq
        exact UInt32.lt_iff_toNat_lt.mpr (by omega)
  | _ => trivial

/-- The piece of a term is that of its atom with a quantifier that may apply. -/
theorem piece_of_repeated {start : Nat} {a r : Regex} {c d : Cursor} {p : Piece}
    (h : Grammar.repeated unicode start a c = .ok (r, d)) (hp : r.piece = .ok p) :
    ∃ p₀ q, a.piece = .ok p₀ ∧ p = p₀.repeated q ∧ q.InOrder ∧
      (q = .one ∨ Grammar.mayRepeat unicode a) ∧ r.namedReferences = a.namedReferences := by
  obtain ⟨rfl, -⟩ | ⟨count, greedy, rfl, hmay, horder⟩ := Grammar.repeated_eq_ok h
  · exact ⟨p, .one, hp, rfl, trivial, .inl rfl, rfl⟩
  · obtain ⟨p₀, hp₀, rfl⟩ := map_eq_ok.mp hp
    refine ⟨p₀, .ofCount greedy count, hp₀, ?_, inOrder_ofCount horder greedy, .inr hmay, ?_⟩
    · rw [Piece.repeated, if_neg (ofCount_ne_one count greedy)]
    · rw [Regex.namedReferences]

/-- A block that holds no others is settled if it is read again as itself. -/
theorem settled_of_nodes_eq {b : Block} (hpieces : b.pieces = [.block b]) (hnodes : b.nodes = [b])
    (hdepth : b.depth = 0) (h : b.Admissible unicode captures) :
    b.Settled unicode captures levels where
  pieces_eq := hpieces
  admissible x hx := by
    rw [hnodes] at hx
    rwa [List.mem_singleton.mp hx]
  shallow := hdepth ▸ Nat.zero_le _

theorem settled_char {q : Quantifier} (h : q.InOrder) (ch : Char) :
    ((Piece.char ch).repeated q).Settled unicode captures levels := by
  unfold Piece.repeated
  split
  next => trivial
  next hq =>
    have htext : String.singleton ch ≠ "" := by
      intro hempty
      have := congrArg String.toList hempty
      simp at this
    refine settled_of_nodes_eq ?_ rfl rfl ⟨h, htext⟩
    simp [Piece.toBlock, mkLiteral, setQuant, pieces, literalPieces, hq]

/-- A text that is read as a class is by itself a pattern, namely that class. -/
theorem CharClass.standsAlone_of_isInside {c : CharClass} (h : IsInside unicode c.inside) :
    c.StandsAlone unicode := by
  obtain ⟨b, ⟨drest, dposition⟩, hread, hd, -⟩ :=
    Grammar.bracketBody_of_isInside h 0 (0 + '['.utf8Size) []
  dsimp only at hd
  subst hd
  exact ⟨_, b, Pattern.parse_of_bracketBody hread, rfl⟩

theorem settled_bracket {b : Bracket} {opening : Nat} {c d : Cursor}
    (h : Grammar.bracketBody unicode opening c = .ok (b, d)) {q : Quantifier} (hq : q.InOrder) :
    ((Piece.block (.ofBracket b)).repeated q).Settled unicode captures levels := by
  obtain ⟨inside, -, hinside, hblock⟩ := Grammar.isInside_of_bracketBody h
  have hself : (CharClass.ofInside inside).inside = inside := CharClass.inside_ofInside inside
  rw [hblock, Piece.repeated_block rfl]
  refine settled_of_nodes_eq ?_ rfl rfl ⟨hq, .inr ?_⟩
  · rw [setQuant, pieces, CharClass.reread, hself]
  · apply CharClass.standsAlone_of_isInside
    rwa [hself]

theorem settled_number {n : UInt32} (hpos : n ≠ 0) (hle : n.toNat ≤ captures.length) {span : Span}
    {p : Piece} (hp : (Regex.backref (.number n) span).piece = .ok p) {q : Quantifier}
    (hq : q.InOrder) : (p.repeated q).Settled unicode captures levels := by
  cases hp.symm.trans (Grammar.piece_number ⟨n, hpos⟩ span)
  rw [Piece.repeated_block rfl]
  exact settled_of_nodes_eq rfl rfl rfl ⟨hq, hle⟩

/-- Atoms without parentheses are settled with any quantifier that they take. -/
theorem settled_leaf {mode : Grammar.Mode} (hcount : mode.scan.count ≤ captures.length) {a : Regex}
    (h : Grammar.Leaf mode a) {p : Piece} (hp : a.piece = .ok p)
    (hrefs : ∀ x ∈ a.namedReferences, some x.1 ∈ captures) {q : Quantifier} (hq : q.InOrder)
    (hmay : q = .one ∨ Grammar.mayRepeat mode.unicode a) :
    (p.repeated q).Settled mode.unicode captures levels := by
  cases h with
  | char value escaped span =>
    cases hp
    exact settled_char hq value
  | dot span =>
    cases hp
    rw [Piece.repeated_block rfl]
    exact settled_of_nodes_eq rfl rfl rfl ⟨hq, trivial⟩
  | classEscape kind span =>
    cases hp
    rw [Piece.repeated_block rfl]
    exact settled_of_nodes_eq rfl rfl rfl ⟨hq, trivial⟩
  | property => cases hp
  | bracket body =>
    cases hp
    exact settled_bracket body hq
  | assertion kind span =>
    obtain rfl : q = .one := hmay.resolve_right nofun
    cases hp
    cases kind <;> exact settled_of_nodes_eq rfl rfl rfl ⟨trivial, by trivial⟩
  | number span hpos hle => exact settled_number hpos (Nat.le_trans hle hcount) hp hq
  | name span =>
    cases hp
    rw [Piece.repeated_block rfl]
    exact settled_of_nodes_eq rfl rfl rfl ⟨hq, hrefs _ List.mem_cons_self⟩

/-! ### Groups -/

theorem GroupName.isName_of_groupName? {c d : Cursor} {name : String}
    (h : c.groupName? = some (name, d)) : IsName name := by
  unfold Cursor.groupName? at h
  split at h
  next => cases h
  next first e he =>
    split at h
    next hstart =>
      simp only [Cursor.takeWhile, Option.some.injEq, Prod.mk.injEq] at h
      obtain ⟨rfl, -⟩ := h
      have hall : ∀ ch ∈ e.rest.takeWhile isContinue, isContinue ch :=
        fun ch hch => List.all_eq_true.mp List.all_takeWhile ch hch
      generalize e.rest.takeWhile isContinue = more at hall
      have htake : (more ++ []).takeWhile isContinue = more ++ [].takeWhile isContinue :=
        List.takeWhile_append_of_pos hall
      have hdrop : (more ++ []).dropWhile isContinue = [].dropWhile isContinue :=
        List.dropWhile_append_of_pos hall
      rw [List.append_nil] at htake hdrop
      refine ⟨⟨[], 0 + first.utf8Size + utf8Length more⟩, ?_, rfl⟩
      simp [Cursor.groupName?, Cursor.ofString, Cursor.next?, hstart, Cursor.takeWhile, htake,
        hdrop]
    next => cases h

/-- The name of a capturing group is read as one. -/
theorem isName_of_opening {start index : Nat} {s t : Grammar.State} {name : String}
    (h : Grammar.opening start s = .ok (.group (.capturing index (some name)), t)) :
    GroupName.IsName name := by
  cases Grammar.readsOpening_of_opening h with
  | plain _ numbered =>
    obtain ⟨heq, -⟩ := Grammar.capture_eq_ok numbered
    cases heq
  | marked _ mark =>
    obtain ⟨_, hmem, -⟩ := Grammar.markedOpening?_eq_some mark
    simp [Grammar.markedOpenings] at hmem
  | named _ _ _ read _ numbered =>
    obtain ⟨heq, -⟩ := Grammar.capture_eq_ok numbered
    cases heq
    exact GroupName.isName_of_groupName? read

/-- A block in parentheses is settled if its body is and if the block itself is admissible. -/
theorem settled_of_body {b : Block} {children : List Block}
    (h : SettledBody unicode captures levels children) (hpieces : b.pieces = [.block b])
    (hnodes : b.nodes = b :: nodesOfAll children) (hdepth : b.depth = depthOfBody children + 1)
    (hself : b.Admissible unicode captures) : b.Settled unicode captures (levels + 1) where
  pieces_eq := hpieces
  admissible x hx := by
    rw [hnodes] at hx
    rcases List.mem_cons.mp hx with rfl | hx
    · exact hself
    · exact h.admissible x hx
  shallow := hdepth ▸ Nat.succ_le_succ h.shallow

/-- A group or a lookaround with a settled body is settled with any quantifier that it takes. -/
theorem settled_close {start : Nat} {s t : Grammar.State} {o : Grammar.Opening}
    (ho : Grammar.opening start s = .ok (o, t)) {children : List Block}
    (h : SettledBody unicode captures levels children) {q : Quantifier} (hq : q.InOrder)
    (hmay : q = .one ∨ o.mayRepeat unicode) :
    ((o.block children).setQuant q).Settled unicode captures (levels + 1) := by
  have hreread := h.rereadBody_eq
  cases o with
  | group kind =>
    cases kind with
    | nonCapturing =>
      have hpieces : (Block.group false none children q).pieces =
          [.block (.group false none children q)] := by rw [pieces, hreread]
      exact settled_of_body h hpieces rfl rfl ⟨hq, nofun⟩
    | capturing index name =>
      have hpieces : (Block.group true name children q).pieces =
          [.block (.group true name children q)] := by rw [pieces, hreread]
      refine settled_of_body h hpieces rfl rfl ⟨hq, ?_⟩
      rintro name rfl
      exact ⟨rfl, isName_of_opening ho⟩
  | look direction negated =>
    have hpieces : (Block.look direction (!negated) children q).pieces =
        [.block (.look direction (!negated) children q)] := by rw [pieces, hreread]
    refine settled_of_body h hpieces rfl rfl ⟨hq, fun hstrict => ?_⟩
    apply hmay.resolve_right
    intro hlook
    simp only [Grammar.Opening.mayRepeat, Bool.and_eq_true, decide_eq_true_eq] at hlook
    obtain ⟨rfl, hunicode⟩ := hlook
    cases unicode with
    | true => cases hunicode
    | false => rcases hstrict with h | h <;> cases h

/-! ### All readings -/

theorem pieces_of_sequence {rs : List Regex} {span : Span} {p : Piece}
    (h : (Grammar.sequence rs span).piece = .ok p) : ∃ ps, Regex.pieces rs = .ok ps := by
  match rs with
  | [] => exact ⟨[], rfl⟩
  | [r] => exact ⟨[p], Grammar.pieces_cons_eq_ok.mpr ⟨p, [], h, rfl, rfl⟩⟩
  | r :: r' :: rs =>
    rw [Grammar.sequence, Regex.piece] at h
    · obtain ⟨ps, hps, -⟩ := map_eq_ok.mp h
      exact ⟨ps, hps⟩
    · rintro ⟨⟩
    · rintro _ ⟨⟩

theorem pieces_of_choice {rs : Regex × List Regex} {span : Span} {p : Piece}
    (h : (Grammar.choice rs span).piece = .ok p) :
    ∃ ps, Regex.pieces (rs.1 :: rs.2) = .ok ps ∧
      p.toBlocks = joinBranches (ps.map Piece.toBlocks) := by
  have hps : ∃ ps, Regex.pieces (rs.1 :: rs.2) = .ok ps := by
    match rs with
    | (r, []) => exact ⟨[p], Grammar.pieces_cons_eq_ok.mpr ⟨p, [], h, rfl, rfl⟩⟩
    | (r, r' :: rs) =>
      rw [Grammar.choice, Regex.piece] at h
      · obtain ⟨ps, hps, -⟩ := map_eq_ok.mp h
        exact ⟨ps, hps⟩
      · rintro ⟨⟩
  obtain ⟨ps, hps⟩ := hps
  obtain ⟨p', hp', hblocks⟩ := Grammar.piece_choice hps span
  rw [h] at hp'
  cases hp'
  exact ⟨ps, hps, hblocks⟩

theorem piece_of_close {o : Grammar.Opening} {r : Regex} {span : Span} {p : Piece}
    (h : (o.close r span).piece = .ok p) :
    ∃ p₀, r.piece = .ok p₀ ∧ p = .block (o.block p₀.toBlocks) := by
  cases o <;>
  · obtain ⟨p₀, hp₀, rfl⟩ := map_eq_ok.mp h
    exact ⟨p₀, hp₀, rfl⟩

theorem toBlocks_of_sequence {rs : List Regex} {span : Span} {p : Piece} {ps : List Piece}
    (hps : Regex.pieces rs = .ok ps) (hp : (Grammar.sequence rs span).piece = .ok p)
    (h : ∀ p ∈ ps, p.IsTerm) : p.toBlocks = Piece.join [] ps := by
  obtain ⟨p', hp', hblocks⟩ := Grammar.piece_sequence hps h span
  rw [hp] at hp'
  cases hp'
  exact hblocks

theorem settledAll_of_sequence {rs : List Regex} {span : Span} {p : Piece} {ps : List Piece}
    (hps : Regex.pieces rs = .ok ps) (hp : (Grammar.sequence rs span).piece = .ok p)
    (h : ∀ p ∈ ps, p.Settled unicode captures levels) :
    SettledAll unicode captures levels p.toBlocks := by
  rw [toBlocks_of_sequence hps hp fun p hmem => (h p hmem).isTerm]
  exact settledAll_join h

namespace Grammar

variable {mode : Mode}

mutual

/-- A term that is read is settled. -/
theorem ReadsTerm.settled (hcount : mode.scan.count ≤ captures.length) {levels : Nat}
    {s t : State} {r : Regex} : ReadsTerm mode levels s r t → ∀ {p : Piece}, r.piece = .ok p →
    (∀ x ∈ r.namedReferences, some x.1 ∈ captures) → p.Settled mode.unicode captures levels
  | .plain first noGroup atom count, p, hp, hrefs => by
    obtain ⟨p₀, q, hp₀, rfl, hq, hmay, heq⟩ := piece_of_repeated count hp
    rw [heq] at hrefs
    exact settled_leaf hcount (leaf_of_plainAtom atom) hp₀ hrefs hq hmay
  | .group first opened inside closed count, p, hp, hrefs => by
    obtain ⟨p₀, q, hp₀, rfl, hq, hmay, heq⟩ := piece_of_repeated count hp
    obtain ⟨p₁, hp₁, rfl⟩ := piece_of_close hp₀
    obtain ⟨ps, hps, hblocks⟩ := pieces_of_choice hp₁
    rw [heq, namedReferences_close, namedReferences_choice] at hrefs
    rw [mayRepeat_close] at hmay
    rw [Piece.repeated_block (setQuant_one_block ..), hblocks]
    refine settled_close opened (settledBody_joinBranches fun branch hbranch => ?_) hq hmay
    obtain ⟨p, hp, rfl⟩ := List.mem_map.mp hbranch
    exact inside.settled hcount hps hrefs p hp

theorem ReadsTerms.settled (hcount : mode.scan.count ≤ captures.length) {levels : Nat}
    {s t : State} {rs : List Regex} : ReadsTerms mode levels s rs t → ∀ {ps : List Piece},
    Regex.pieces rs = .ok ps → (∀ x ∈ Regex.namedReferencesOfAll rs, some x.1 ∈ captures) →
    ∀ p ∈ ps, p.Settled mode.unicode captures levels
  | .nil _, ps, hps, _ => by
    cases hps
    exact nofun
  | .cons _ head tail, ps, hps, hrefs => by
    obtain ⟨p, ps', hp, hps', rfl⟩ := pieces_cons_eq_ok.mp hps
    have htail := tail.settled hcount hps' fun x hx => hrefs x (List.mem_append_right _ hx)
    intro p' hp'
    rcases List.mem_cons.mp hp' with rfl | hp'
    · exact head.settled hcount hp fun x hx => hrefs x (List.mem_append_left _ hx)
    · exact htail p' hp'

theorem ReadsAlternatives.settled (hcount : mode.scan.count ≤ captures.length) {levels : Nat}
    {s t : State} {rs : Regex × List Regex} : ReadsAlternatives mode levels s rs t →
    ∀ {ps : List Piece}, Regex.pieces (rs.1 :: rs.2) = .ok ps →
    (∀ x ∈ Regex.namedReferencesOfAll (rs.1 :: rs.2), some x.1 ∈ captures) →
    ∀ p ∈ ps, SettledAll mode.unicode captures levels p.toBlocks
  | .last terms _, ps, hps, hrefs => by
    obtain ⟨p, ps', hp, hnil, rfl⟩ := pieces_cons_eq_ok.mp hps
    cases hnil
    obtain ⟨qs, hqs⟩ := pieces_of_sequence hp
    rw [Regex.namedReferencesOfAll, namedReferences_sequence] at hrefs
    have hterms := terms.settled hcount hqs fun x hx => hrefs x (List.mem_append_left _ hx)
    intro p' hp'
    obtain rfl := List.mem_singleton.mp hp'
    exact settledAll_of_sequence hqs hp hterms
  | .more terms _ tail, ps, hps, hrefs => by
    obtain ⟨p, ps', hp, hps', rfl⟩ := pieces_cons_eq_ok.mp hps
    obtain ⟨qs, hqs⟩ := pieces_of_sequence hp
    rw [Regex.namedReferencesOfAll, namedReferences_sequence] at hrefs
    have hterms := terms.settled hcount hqs fun x hx => hrefs x (List.mem_append_left _ hx)
    have htail := tail.settled hcount hps' fun x hx => hrefs x (List.mem_append_right _ hx)
    intro p' hp'
    rcases List.mem_cons.mp hp' with rfl | hp'
    · exact settledAll_of_sequence hqs hp hterms
    · exact htail p' hp'

end

end Grammar

/-- The blocks of a pattern that is accepted are settled, and their captures have distinct names. -/
theorem Pattern.settled_of_parse {text : String} {p : Pattern} {bs : List Block}
    (h : Pattern.parse unicode text = .ok p) (hbs : p.root.blocks = .ok bs) :
    SettledBody unicode (captureNames (nodesOfAll bs)) nestingLimit bs ∧
      Distinct (captureNames (nodesOfAll bs)) := by
  obtain ⟨rs, t, hrs, hend, hroot, -, -, hrefs⟩ := Pattern.parse_eq_ok h
  obtain ⟨q, hq, rfl⟩ := map_eq_ok.mp hbs
  have hcaptureNames := Regex.captureNames_of_piece p.root hq
  have hgroups : t.groupNames = captureNames (nodesOfAll q.toBlocks) := by
    rw [hcaptureNames, Grammar.State.groupNames, hrs.opens.registered, hroot,
      Grammar.captures_choice]
    rfl
  rw [hroot] at hq hrefs
  obtain ⟨ps, hps, hblocks⟩ := pieces_of_choice hq
  have hdistinct :=
    Grammar.distinct_groupNames (hrs.wellFormed Capture.Registry.wellFormed_empty)
  rw [hgroups] at hdistinct
  refine ⟨?_, hdistinct⟩
  have hscan : Capture.Scan.ofString text = Block.scan (captureNames (nodesOfAll q.toBlocks)) :=
    Block.scan_of_opens hrs.opens hend hgroups
  have hcount : (Capture.Scan.ofString text).count ≤
      (captureNames (nodesOfAll q.toBlocks)).length := by
    rw [hscan]
    exact Nat.le_refl _
  have hrefs' (x) (hx : x ∈ Regex.namedReferencesOfAll (rs.1 :: rs.2)) :
      some x.1 ∈ captureNames (nodesOfAll q.toBlocks) := by
    rw [← Grammar.namedReferences_choice rs (t.cursor.spanSince 0)] at hx
    rw [← hgroups]
    exact Capture.Registry.hasName_iff.mp (hrefs x hx)
  have hsettled := hrs.settled hcount hps hrefs'
  rw [hblocks] at hsettled ⊢
  apply settledBody_joinBranches
  intro branch hbranch
  obtain ⟨p, hp, rfl⟩ := List.mem_map.mp hbranch
  exact hsettled p hp

end PatternBlocks
