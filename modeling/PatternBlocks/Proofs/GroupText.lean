import PatternBlocks.Proofs.Registration
import PatternBlocks.Proofs.Runs

/-!
The texts of groups and of alternatives inside them. Parentheses enclose what their inside yields,
and what is opened gets a name that no earlier group has.
-/
namespace PatternBlocks

open Capture (Registry)

/-- No name is given twice. -/
def Distinct (names : List (Option String)) : Prop := (names.filterMap id).Nodup

theorem Distinct.left {as bs : List (Option String)} (h : Distinct (as ++ bs)) : Distinct as := by
  unfold Distinct at h ⊢
  rw [List.filterMap_append] at h
  exact (List.nodup_append.mp h).1

theorem Distinct.not_mem {as bs : List (Option String)} {name : String}
    (h : Distinct (as ++ some name :: bs)) : some name ∉ as := by
  intro hmem
  unfold Distinct at h
  rw [List.filterMap_append] at h
  refine (List.nodup_append.mp h).2.2 name (List.mem_filterMap.mpr ⟨_, hmem, rfl⟩) name ?_ rfl
  simp

namespace Grammar

variable {mode : Mode} {levels : Nat} {captures : List (Option String)}

theorem distinct_groupNames {s : State} (h : s.groups.WellFormed) : Distinct s.groupNames := by
  have hnames : s.groupNames.filterMap id = s.groups.names := by
    rw [State.groupNames, List.filterMap_map]
    rfl
  rw [Distinct, hnames]
  exact h.distinct

/-! ### What opens a group -/

/-- The block that a group becomes, given the blocks inside it. -/
def Opening.block (children : List Block) : Opening → Block
  | .group kind => Block.ofGroup children kind
  | .look direction negated => .mkLook direction (!negated) children

def Opening.mayRepeat (unicode : Bool) : Opening → Bool
  | .group _ => true
  | .look direction _ => direction = .ahead && !unicode

theorem piece_close (o : Opening) {r : Regex} {p : Piece} (h : r.piece = .ok p) (span : Span) :
    (o.close r span).piece = .ok (.block (o.block p.toBlocks)) := by
  cases o <;> simp [Opening.close, Regex.piece, h, Except.map, Opening.block]

theorem mayRepeat_close (o : Opening) (unicode : Bool) (r : Regex) (span : Span) :
    Grammar.mayRepeat unicode (o.close r span) = o.mayRepeat unicode := by
  cases o <;> rfl

/-- The text `w` behind a parenthesis opens a group in front of `body`. -/
def OpensGroup (s : State) (w body : List Char) (o : Opening) (names : List (Option String)) :
    Prop :=
  ∀ start position, ∃ t, opening start { s with cursor := ⟨w ++ body, position⟩ } = .ok (o, t) ∧
    t.cursor.rest = body ∧ t.groupNames = s.groupNames ++ names

theorem opensGroup_mark {mark : List Char} {o : Opening} (h : (mark, o) ∈ markedOpenings)
    (s : State) (body : List Char) : OpensGroup s ('?' :: mark) body o [] := by
  intro start position
  simp only [markedOpenings, List.mem_cons, Prod.mk.injEq, List.not_mem_nil, or_false] at h
  obtain ⟨rfl, rfl⟩ | ⟨rfl, rfl⟩ | ⟨rfl, rfl⟩ | ⟨rfl, rfl⟩ | ⟨rfl, rfl⟩ := h
  all_goals exact ⟨_, rfl, rfl, (List.append_nil _).symm⟩

theorem opensGroup_plain {body : List Char} (h : BeginsWithout startsQuantifier body)
    (s : State) :
    OpensGroup s [] body (.group (.capturing (s.groups.size + 1) none)) [none] := by
  intro start position
  have hmark : body.head? ≠ some '?' := fun hhead => h '?' hhead (by decide)
  refine ⟨⟨⟨body, position⟩, s.groups.push none, s.references⟩, ?_, rfl, ?_⟩
  · simp [opening, Cursor.eat?_eq_none hmark, capture, Registry.register, Registry.enrol]
  · simp [State.groupNames, Registry.push]

theorem opensGroup_named {name : String} (hname : GroupName.IsName name) {s : State}
    (hnew : some name ∉ s.groupNames) (body : List Char) :
    OpensGroup s ('?' :: '<' :: name.toList ++ ['>']) body
      (.group (.capturing (s.groups.size + 1) (some name))) [some name] := by
  intro start position
  obtain ⟨first, more, hs, hstart, -, -⟩ := eq_cons_of_isName hname
  obtain ⟨⟨drest, dposition⟩, hread, hd⟩ :=
    groupName?_of_isName hname body (position + '?'.utf8Size + '<'.utf8Size)
  dsimp only at hd
  subst hd
  have hmarked (position : Nat) :
      markedOpening? ⟨'<' :: (name.toList ++ '>' :: body), position⟩ = none := by
    have hequals : first ≠ '=' := by
      rintro rfl
      revert hstart
      decide +kernel
    have hbang : first ≠ '!' := by
      rintro rfl
      revert hstart
      decide +kernel
    simp [markedOpening?, markedOpenings, Cursor.eatAll?, Cursor.eat?, hs, hequals, hbang]
  have hregister : s.groups.hasName name = false := by
    rw [Bool.eq_false_iff]
    exact fun h => hnew (Registry.hasName_iff.mp h)
  refine ⟨⟨⟨body, dposition + '>'.utf8Size⟩, s.groups.push (some name), s.references⟩, ?_, rfl,
    ?_⟩
  · simp [opening, Cursor.eat?, hmarked, namedOpening, hread, capture, Registry.register,
      Registry.enrol, hregister]
  · simp [State.groupNames, Registry.push]

/-! ### What stands inside a group -/

theorem piece_sequence {rs : List Regex} {ps : List Piece} (h : Regex.pieces rs = .ok ps)
    (hterms : ∀ p ∈ ps, p.IsTerm) (span : Span) :
    ∃ p, (sequence rs span).piece = .ok p ∧ p.toBlocks = Piece.join [] ps := by
  match rs with
  | [] =>
    cases h
    exact ⟨.nothing, rfl, rfl⟩
  | [r] =>
    obtain ⟨p, ps', hr, hnil, rfl⟩ := pieces_cons_eq_ok.mp h
    cases hnil
    refine ⟨p, hr, ?_⟩
    cases p with
    | nothing => exact (hterms _ List.mem_cons_self).elim
    | sequence => exact (hterms _ List.mem_cons_self).elim
    | char ch => rfl
    | block b => rfl
  | r :: r' :: rs =>
    refine ⟨.sequence (Piece.join [] ps), ?_, rfl⟩
    rw [sequence, Regex.piece, h]
    · rfl
    · rintro ⟨⟩
    · rintro _ ⟨⟩

theorem piece_choice {rs : Regex × List Regex} {ps : List Piece}
    (h : Regex.pieces (rs.1 :: rs.2) = .ok ps) (span : Span) :
    ∃ p, (choice rs span).piece = .ok p ∧
      p.toBlocks = Block.joinBranches (ps.map Piece.toBlocks) := by
  match rs with
  | (r, []) =>
    obtain ⟨p, ps', hr, hnil, rfl⟩ := pieces_cons_eq_ok.mp h
    cases hnil
    exact ⟨p, hr, rfl⟩
  | (r, r' :: rs) =>
    refine ⟨.block (.mkAlternation (ps.map Piece.toBlocks)), ?_, ?_⟩
    · rw [choice, Regex.piece, h]
      · rfl
      · rintro ⟨⟩
    · obtain ⟨p, ps', -, htail, rfl⟩ := pieces_cons_eq_ok.mp h
      obtain ⟨p', ps'', -, -, rfl⟩ := pieces_cons_eq_ok.mp htail
      rfl

/-- The text from `s` up to `rest` is read as alternatives that contribute the given branches. -/
def YieldsEach (mode : Mode) (levels : Nat) (captures : List (Option String)) (s : State)
    (rest : List Char) (branches : List (List Block)) (names : List (Option String)) : Prop :=
  ∃ rs t ps, ReadsAlternatives mode levels s rs t ∧ t.cursor.rest = rest ∧
    Regex.pieces (rs.1 :: rs.2) = .ok ps ∧ ps.map Piece.toBlocks = branches ∧
    (∀ x ∈ Regex.namedReferencesOfAll (rs.1 :: rs.2), some x.1 ∈ captures) ∧
    t.groupNames = s.groupNames ++ names

/-- An alternative goes on up to a bar, a closing parenthesis or the end. -/
def Closes (rest : List Char) : Prop := ∀ ch ∈ rest.head?, ch = '|' ∨ ch = ')'

theorem Yields.single {s : State} {rest : List Char} {ps : List Piece}
    {names : List (Option String)} (h : Yields mode levels captures s rest ps names)
    (hterms : ∀ p ∈ ps, p.IsTerm) (hrest : ∀ ch ∈ rest.head?, ch = ')') :
    YieldsEach mode levels captures s rest [Piece.join [] ps] names := by
  obtain ⟨rs, t, hrun, ht, hps, hrefs, hnames⟩ := h
  have hlast : endsAlternative t.cursor := by
    rw [endsAlternative, Cursor.peek?, ht]
    cases hhead : rest.head? with
    | none => rfl
    | some ch => simp [hrest ch hhead]
  have hbar : t.cursor.eat? '|' = none := by
    have hhead : rest.head? ≠ some '|' := fun hhead => absurd (hrest '|' hhead) (by decide)
    rw [← ht] at hhead
    exact Cursor.eat?_eq_none hhead _
  obtain ⟨p, hp, hblocks⟩ :=
    piece_sequence hps hterms (t.cursor.spanSince s.cursor.position)
  refine ⟨_, t, [p], .last (hrun.readsTerms hlast) hbar, ht,
    pieces_cons_eq_ok.mpr ⟨p, [], hp, rfl, rfl⟩, ?_, ?_, hnames⟩
  · simp [hblocks]
  · simpa [Regex.namedReferencesOfAll, namedReferences_sequence] using hrefs

theorem Yields.before {s : State} {rest rest' : List Char} {ps : List Piece}
    {branches : List (List Block)} {names names' : List (Option String)}
    (h : Yields mode levels captures s ('|' :: rest) ps names) (hterms : ∀ p ∈ ps, p.IsTerm)
    (k : ∀ t : State, t.cursor.rest = rest → t.groupNames = s.groupNames ++ names →
      YieldsEach mode levels captures t rest' branches names') :
    YieldsEach mode levels captures s rest' (Piece.join [] ps :: branches) (names ++ names') := by
  obtain ⟨rs, t, hrun, ht, hps, hrefs, hnames⟩ := h
  obtain ⟨⟨trest, tposition⟩, groups, references⟩ := t
  dsimp only at ht
  subst ht
  obtain ⟨qs, u, ps', halternatives, hu, hps', rfl, hrefs', hnames'⟩ :=
    k ⟨⟨rest, tposition + '|'.utf8Size⟩, groups, references⟩ rfl hnames
  obtain ⟨p, hp, hblocks⟩ := piece_sequence hps hterms
    (Cursor.spanSince s.cursor.position ⟨'|' :: rest, tposition⟩)
  refine ⟨_, u, p :: ps', .more (hrun.readsTerms rfl) rfl halternatives, hu,
    pieces_cons_eq_ok.mpr ⟨p, ps', hp, hps', rfl⟩, ?_, ?_, ?_⟩
  · simp [hblocks]
  · intro x hx
    rw [Regex.namedReferencesOfAll, namedReferences_sequence, List.mem_append] at hx
    exact hx.elim (hrefs x) (hrefs' x)
  · rw [hnames', ← List.append_assoc]
    exact congrArg (· ++ names') hnames

theorem setQuant_one_block (o : Opening) (children : List Block) :
    (o.block children).setQuant .one = o.block children := by
  cases o with
  | group kind => cases kind <;> rfl
  | look => rfl

/-- The text from `s` up to `rest` is read as the inside of a group that consists of `children`. -/
def YieldsBody (mode : Mode) (levels : Nat) (captures : List (Option String)) (s : State)
    (rest : List Char) (children : List Block) (names : List (Option String)) : Prop :=
  ∃ branches, YieldsEach mode levels captures s rest branches names ∧
    Block.joinBranches branches = children

/-- A group or a lookaround. -/
theorem YieldsAtom.of_group {o : Opening} {w inside rest : List Char} {children : List Block}
    {names names' : List (Option String)} {s : State}
    (hopen : OpensGroup s w (inside ++ ')' :: rest) o names)
    (hinside : ∀ t : State, t.cursor.rest = inside ++ ')' :: rest →
      t.groupNames = s.groupNames ++ names →
      YieldsBody mode levels captures t (')' :: rest) children names')
    (hs : s.cursor.rest = '(' :: (w ++ (inside ++ ')' :: rest))) :
    YieldsAtom mode (levels + 1) captures s rest (.block (o.block children))
      (o.mayRepeat mode.unicode) (names ++ names') := by
  obtain ⟨⟨srest, position⟩, groups, references⟩ := s
  dsimp only at hs
  subst hs
  obtain ⟨t, hopened, ht, hnames⟩ := hopen position (position + '('.utf8Size)
  obtain ⟨_, ⟨rs, ⟨⟨urest, uposition⟩, ugroups, ureferences⟩, ps, hrs, hu, hps, rfl, hrefs,
    hnames'⟩, rfl⟩ := hinside t ht hnames
  dsimp only at hu
  subst hu
  obtain ⟨p, hp, hblocks⟩ := piece_choice hps (Cursor.spanSince t.cursor.position
    ⟨')' :: rest, uposition⟩)
  have hread : atom mode (innerReader mode (levels + 1))
      ⟨⟨'(' :: (w ++ (inside ++ ')' :: rest)), position⟩, groups, references⟩ =
      .ok (o.close (choice rs (Cursor.spanSince t.cursor.position ⟨')' :: rest, uposition⟩))
        ⟨position, uposition + ')'.utf8Size⟩,
        ⟨⟨rest, uposition + ')'.utf8Size⟩, ugroups, ureferences⟩) := by
    simp only [atom, Cursor.next?, if_true, group, innerReader_succ, hopened, bodyReader_read,
      disjunction, hrs.alternatives_eq, Cursor.eat?]
    rfl
  refine ⟨not_endsAlternative rfl (by decide) (by decide), _, _, hread, rfl, ?_, ?_, ?_, ?_⟩
  · rw [← hblocks]
    exact piece_close o hp _
  · rw [mayRepeat_close]
    exact id
  · rwa [namedReferences_close, namedReferences_choice]
  · rw [← List.append_assoc, ← hnames]
    exact hnames'

/-- A group or a lookaround with a quantifier behind it. -/
theorem Yields.of_group {o : Opening} {w inside rest : List Char} {children : List Block}
    {names names' : List (Option String)} {q : Quantifier} {s : State}
    (hopen : OpensGroup s w (inside ++ ')' :: (q.render ++ rest)) o names)
    (hinside : ∀ t : State, t.cursor.rest = inside ++ ')' :: (q.render ++ rest) →
      t.groupNames = s.groupNames ++ names →
      YieldsBody mode levels captures t (')' :: (q.render ++ rest)) children names')
    (horder : q.InOrder) (hmay : q = .one ∨ o.mayRepeat mode.unicode)
    (hrest : BeginsWithout startsQuantifier rest)
    (hs : s.cursor.rest = '(' :: (w ++ (inside ++ ')' :: (q.render ++ rest)))) :
    Yields mode (levels + 1) captures s rest
      [.block ((o.block children).setQuant q)] (names ++ names') := by
  have hyields := (YieldsAtom.of_group hopen hinside hs).repeated horder.not_reversed hmay hrest
  rwa [horder.asRead_eq, Piece.repeated_block (setQuant_one_block o _)] at hyields

end Grammar

end PatternBlocks
