import PatternBlocks.Proofs.Layout

/-!
Readings place what they read: the span of an expression is the text between the cursors before and
after it, and each mark of the grammar stands where the expression says. So the spans of a pattern
that is accepted share out its text.
-/
namespace PatternBlocks

open PatternBlocks.Span (Joined)

namespace Grammar

variable {mode : Mode} {text : String}

/-! ### Escapes -/

/-- The trees that escapes are read as. -/
def isEscape : Regex → Bool
  | .char _ escaped _ => escaped
  | .assertion kind _ => kind = .wordBoundary || kind = .notWordBoundary
  | .classEscape .. | .property _ | .backref .. => true
  | _ => false

theorem span_of_propertyEscape {negated : Bool} {start : Nat} {p : Property} {c d : Cursor}
    (h : propertyEscape negated start c = .ok (p, d)) : p.span = d.spanSince start := by
  unfold propertyEscape at h
  split at h
  next => cases h
  next =>
    dsimp only at h
    split at h
    next => cases h
    next =>
      split at h <;> cases h
      rfl

theorem escape_of_decimalEscape {start : Nat} {r : Regex} {c d : Cursor}
    (h : decimalEscape mode start c = .ok (r, d)) : isEscape r ∧ r.span = d.spanSince start := by
  unfold decimalEscape at h
  dsimp only at h
  split at h
  next =>
    cases h
    exact ⟨rfl, rfl⟩
  next =>
    split at h <;> cases h
    exact ⟨rfl, rfl⟩

theorem escape_of_namedBackref {start : Nat} {r : Regex} {c d : Cursor}
    (h : namedBackref mode start c = .ok (r, d)) : isEscape r ∧ r.span = d.spanSince start := by
  unfold namedBackref at h
  split at h
  next =>
    cases h
    exact ⟨rfl, rfl⟩
  split at h
  next => cases h
  next =>
    split at h
    next => cases h
    next =>
      split at h <;> cases h
      exact ⟨rfl, rfl⟩

theorem escape_of_characterAtom {unicode : Bool} {start : Nat} {r : Regex} {c d : Cursor}
    (h : characterAtom unicode start c = .ok (r, d)) :
    isEscape r ∧ r.span = d.spanSince start := by
  unfold characterAtom at h
  split at h
  next => cases h
  next =>
    split at h <;> cases h
    exact ⟨rfl, rfl⟩

/-- The span of an escape begins at the backslash, however far the reading went before it was
taken back. -/
theorem escape_of_atomEscape {start : Nat} {r : Regex} {c d : Cursor}
    (h : atomEscape mode start c = .ok (r, d)) : isEscape r ∧ r.span = d.spanSince start := by
  unfold atomEscape at h
  split at h
  next => cases h
  next =>
    split at h
    next =>
      cases h
      exact ⟨rfl, rfl⟩
    iterate 2
      split at h
      next =>
        cases h
        exact ⟨rfl, rfl⟩
    split at h
    next =>
      obtain ⟨⟨p, e⟩, hp, heq⟩ := map_eq_ok.mp h
      cases heq
      exact ⟨rfl, span_of_propertyEscape hp⟩
    split at h
    next => exact escape_of_namedBackref h
    split at h
    next => exact escape_of_decimalEscape h
    next => exact escape_of_characterAtom h

theorem wellPlaced_of_isEscape {c d e : Cursor} {r : Regex} (hc : c.IsOn text)
    (hbackslash : c.Passes ['\\'] d) (hde : d.Reaches e) (hr : isEscape r)
    (hspan : r.span = e.spanSince c.position) : r.WellPlaced text := by
  obtain ⟨w, hw⟩ := hde
  have hspells : r.span.Spells text ('\\' :: w) := by
    rw [hspan]
    exact (hbackslash.trans hw).spells hc
  refine ⟨hspells.inText, ?_⟩
  cases r with
  | char value escaped span =>
    obtain rfl : escaped = true := hr
    exact ⟨w, hspells⟩
  | assertion kind =>
    cases kind with
    | wordBoundary | notWordBoundary => exact ⟨w, hspells⟩
    | _ => cases hr
  | classEscape | property | backref => exact ⟨w, hspells⟩
  | _ => cases hr

/-! ### Bracket expressions -/

/-- The property stands somewhere behind the cursor. -/
def StandsBehind (c : Cursor) (p : Property) : Prop :=
  ∃ d e, c.Reaches d ∧ d.Reaches e ∧ p.span = e.spanSince d.position

theorem StandsBehind.of_reaches {c d : Cursor} {p : Property} (h : StandsBehind d p)
    (hcd : c.Reaches d) : StandsBehind c p :=
  let ⟨e, f, hde, hef, hspan⟩ := h
  ⟨e, f, hcd.trans hde, hef, hspan⟩

theorem StandsBehind.inText {c : Cursor} {p : Property} (h : StandsBehind c p)
    (hc : c.IsOn text) : p.span.InText text := by
  obtain ⟨d, e, hcd, hde, hspan⟩ := h
  rw [hspan]
  exact hde.inText (Cursor.Reaches.trans hc hcd)

theorem span_of_classEscapeAtom {unicode : Bool} {opening start : Nat} {p : Property}
    {c d : Cursor} (h : classEscapeAtom unicode opening start c = .ok (.property p, d)) :
    p.span = d.spanSince start := by
  unfold classEscapeAtom at h
  split at h
  next => cases h
  next =>
    split at h
    next => cases h
    split at h
    next => cases h
    split at h
    next =>
      obtain ⟨⟨p', e⟩, hp, heq⟩ := map_eq_ok.mp h
      cases heq
      exact span_of_propertyEscape hp
    split at h
    next => cases h
    next =>
      obtain ⟨_, -, heq⟩ := map_eq_ok.mp h
      cases heq

theorem standsBehind_of_classAtom {unicode : Bool} {opening : Nat} {p : Property} {c d : Cursor}
    (h : classAtom unicode opening c = .ok (.property p, d)) : StandsBehind c p := by
  have hcd := (advances_of_classAtom h).reaches
  unfold classAtom at h
  split at h
  next => cases h
  next =>
    split at h
    next => exact ⟨c, d, .refl c, hcd, span_of_classEscapeAtom h⟩
    next => cases h

theorem eq_property_of_item {a : ClassAtom} {p : Property} (h : a.item = .property p) :
    a = .property p := by
  cases a with
  | code n =>
    rw [ClassAtom.item] at h
    split at h <;> cases h
  | escape => cases h
  | property =>
    cases h
    rfl

theorem eq_property_of_joinAtoms {unicode : Bool} {start : Nat} {low high : ClassAtom}
    {items : List ClassItem} {c d : Cursor} {p : Property}
    (h : joinAtoms unicode start low high c = .ok (items, d)) (hp : .property p ∈ items) :
    low = .property p ∨ high = .property p := by
  unfold joinAtoms at h
  split at h
  next first last =>
    split at h <;> cases h
    have hrange := List.mem_singleton.mp hp
    unfold rangeItem at hrange
    split at hrange <;> cases hrange
  next =>
    split at h <;> cases h
    simp only [List.mem_cons, List.not_mem_nil, or_false] at hp
    obtain hp | hp | hp := hp
    · exact .inl (eq_property_of_item hp.symm)
    · cases hp
    · exact .inr (eq_property_of_item hp.symm)

theorem standsBehind_of_classMember {unicode : Bool} {opening : Nat} {items : List ClassItem}
    {c d : Cursor} {p : Property} (h : classMember unicode opening c = .ok (items, d))
    (hp : .property p ∈ items) : StandsBehind c p := by
  unfold classMember at h
  split at h
  next => cases h
  next low e hlow =>
    split at h
    next =>
      cases h
      obtain rfl := eq_property_of_item (List.mem_singleton.mp hp).symm
      exact standsBehind_of_classAtom hlow
    next f hhyphen =>
      split at h
      next => cases h
      next high g hhigh =>
        obtain rfl | rfl := eq_property_of_joinAtoms h hp
        · exact standsBehind_of_classAtom hlow
        · exact (standsBehind_of_classAtom hhigh).of_reaches
            ((advances_of_classAtom hlow).reaches.trans (advances_of_rangeHyphen? hhyphen).reaches)

theorem standsBehind_of_classMembers {unicode : Bool} {opening : Nat} {items : List ClassItem}
    {c d : Cursor} {p : Property} (h : classMembers unicode opening c = .ok (items, d))
    (hp : .property p ∈ items) : StandsBehind c p := by
  fun_induction classMembers unicode opening c generalizing items with
  | case1 => cases h
  | case2 =>
    cases h
    cases hp
  | case3 => cases h
  | case4 => cases h
  | case5 c _ _ _ items' e he more f hf ih =>
    cases h
    rcases List.mem_append.mp hp with hp | hp
    · exact standsBehind_of_classMember he hp
    · exact (ih hf hp).of_reaches (advances_of_classMember he).reaches

theorem passes_negation (c : Cursor) :
    c.Passes (if (negation c).1 then ['^'] else []) (negation c).2 := by
  unfold negation
  split
  next => exact .refl _
  next hd => exact Cursor.passes_of_eat? hd

theorem wellPlaced_of_bracketBody {unicode : Bool} {c d e : Cursor} {b : Bracket}
    (hc : c.IsOn text) (hopening : c.Passes ['['] d)
    (h : bracketBody unicode c.position d = .ok (b, e)) : (Regex.bracket b).WellPlaced text := by
  obtain ⟨items, f, hmembers, hnext, rfl⟩ := bracketBody_eq_ok h
  have hmark := passes_negation d
  obtain ⟨w, hw⟩ := reaches_of_classMembers hmembers
  have hpasses := hopening.trans ((hmark.trans hw).trans (Cursor.passes_of_next? hnext))
  have hspells := hpasses.spells hc
  refine ⟨hspells.inText, ?_, fun p hp => ?_⟩
  · rw [hw.textTo_eq]
    simpa [Bracket.source] using hspells
  · have hbody := (hopening.trans hmark).isOn hc
    exact (standsBehind_of_classMembers hmembers hp).inText hbody

theorem span_of_bracketBody {unicode : Bool} {opening : Nat} {c d : Cursor} {b : Bracket}
    (h : bracketBody unicode opening c = .ok (b, d)) : b.span = d.spanSince opening := by
  obtain ⟨items, e, -, -, rfl⟩ := bracketBody_eq_ok h
  rfl

/-! ### Atoms -/

/-- The expression takes up the text between two cursors, and all of it is well placed. -/
structure Placed (text : String) (c d : Cursor) (r : Regex) : Prop where
  span_eq : r.span = d.spanSince c.position
  wellPlaced : ∀ x ∈ r.subtrees, x.WellPlaced text

theorem wellPlaced_of_plainAtom {ch : Char} {r : Regex} {c d e : Cursor} (hc : c.IsOn text)
    (first : c.next? = some (ch, d)) (h : plainAtom mode ch c d = .ok (r, e)) :
    r.span = e.spanSince c.position ∧ r.WellPlaced text := by
  have hpasses := Cursor.passes_of_next? first
  have hspells := hpasses.spells hc
  unfold plainAtom at h
  dsimp only at h
  iterate 3
    split at h
    next hch =>
      subst hch
      cases h
      exact ⟨rfl, hspells.inText, hspells⟩
  split at h
  next hch =>
    subst hch
    obtain ⟨⟨b, f⟩, hb, heq⟩ := map_eq_ok.mp h
    cases heq
    exact ⟨span_of_bracketBody hb, wellPlaced_of_bracketBody hc hpasses hb⟩
  split at h
  next hch =>
    subst hch
    obtain ⟨hr, hspan⟩ := escape_of_atomEscape h
    exact ⟨hspan, wellPlaced_of_isEscape hc hpasses (reaches_of_atomEscape h) hr hspan⟩
  split at h
  next => cases h
  split at h
  next hch =>
    unfold braceAtom at h
    split at h <;> cases h
    exact ⟨rfl, hspells.inText, hch ▸ hspells⟩
  split at h <;> cases h
  exact ⟨rfl, hspells.inText, hspells⟩

theorem placed_of_plainAtom {ch : Char} {r : Regex} {c d e : Cursor} (hc : c.IsOn text)
    (first : c.next? = some (ch, d)) (h : plainAtom mode ch c d = .ok (r, e)) :
    Placed text c e r := by
  obtain ⟨hspan, hplaced⟩ := wellPlaced_of_plainAtom hc first h
  refine ⟨hspan, ?_⟩
  rw [subtrees_of_leaf (leaf_of_plainAtom h)]
  exact List.forall_mem_singleton.mpr hplaced

/-! ### Groups and quantifiers -/

/-- What stands between the parenthesis and the body. -/
def Opening.mark : Opening → List Char
  | .group kind => kind.mark
  | .look direction negated => Block.lookMark direction !negated

theorem mark_of_mem_markedOpenings :
    ∀ x ∈ markedOpenings, x.2.mark = '?' :: x.1 := by decide

theorem passes_of_opening {start : Nat} {s t : State} {o : Opening}
    (h : opening start s = .ok (o, t)) : s.cursor.Passes o.mark t.cursor := by
  cases readsOpening_of_opening h with
  | plain _ numbered =>
    obtain ⟨rfl, rfl, -⟩ := capture_eq_ok numbered
    exact .refl _
  | marked question mark =>
    obtain ⟨_, hmem, hmark⟩ := markedOpening?_eq_some mark
    rw [mark_of_mem_markedOpenings _ hmem]
    exact (Cursor.passes_of_eat? question).trans (Cursor.passes_of_eatAll? hmark)
  | named question _ angle read close numbered =>
    obtain ⟨rfl, rfl, -⟩ := capture_eq_ok numbered
    have hangle := (Cursor.passes_of_eat? question).trans (Cursor.passes_of_eat? angle)
    have hname := (Cursor.passes_of_groupName? read).trans (Cursor.passes_of_eat? close)
    exact hangle.trans hname

theorem placed_close {o : Opening} {r : Regex} {c m n d : Cursor} (hc : c.IsOn text)
    (hopened : c.Passes ('(' :: o.mark) m) (hmn : m.Reaches n) (hbody : Placed text m n r)
    (hclosed : n.Passes [')'] d) : Placed text c d (o.close r (d.spanSince c.position)) := by
  have hn : n.IsOn text := (hopened.isOn hc).trans hmn
  have hcd : c.Reaches d := Cursor.Reaches.trans ⟨_, hopened⟩ (hmn.trans ⟨_, hclosed⟩)
  have hencloses : Span.Encloses text o.mark r.span (d.spanSince c.position) := by
    rw [hbody.span_eq]
    exact ⟨hopened.spells hc, hclosed.spells hn⟩
  have hself : (o.close r (d.spanSince c.position)).span = d.spanSince c.position ∧
      (o.close r (d.spanSince c.position)).WellPlaced text := by
    cases o <;> exact ⟨rfl, hcd.inText hc, hencloses⟩
  refine ⟨hself.1, ?_⟩
  rw [subtrees_close]
  exact List.forall_mem_cons.mpr ⟨hself.2, hbody.wellPlaced⟩

/-- A quantifier takes up some text of its own behind the atom. -/
theorem placed_of_repeated {unicode : Bool} {r r' : Regex} {c d e : Cursor} (hc : c.IsOn text)
    (hcd : c.Reaches d) (hr : Placed text c d r)
    (h : repeated unicode c.position r d = .ok (r', e)) : Placed text c e r' := by
  unfold repeated at h
  split at h
  next => cases h
  next =>
    cases h
    exact hr
  next count greedy f hf =>
    have hde := advances_of_quantifier? hf
    split at h <;> cases h
    have hself : (Regex.repetition count greedy r (e.spanSince c.position)).WellPlaced text := by
      refine ⟨(hcd.trans hde.reaches).inText hc, ?_⟩
      rw [Regex.LaidOut, hr.span_eq]
      exact ⟨rfl, hde.position_lt⟩
    exact ⟨rfl, List.forall_mem_cons.mpr ⟨hself, hr.wellPlaced⟩⟩

/-! ### Sequences and alternatives -/

/-- The expressions take up the text between two cursors one after the other. -/
structure PlacedAll (text : String) (sep : List Char) (c d : Cursor) (rs : List Regex) :
    Prop where
  joined : Joined text sep c.position (rs.map Regex.span) d.position
  wellPlaced : ∀ r ∈ rs, ∀ x ∈ r.subtrees, x.WellPlaced text

theorem Placed.singleton {sep : List Char} {c d : Cursor} {r : Regex} (h : Placed text c d r) :
    PlacedAll text sep c d [r] where
  joined := by
    rw [List.map_singleton, h.span_eq]
    exact ⟨rfl, rfl⟩
  wellPlaced := List.forall_mem_singleton.mpr h.wellPlaced

theorem PlacedAll.placed {sep : List Char} {c d : Cursor} {r : Regex}
    (h : PlacedAll text sep c d [r]) : Placed text c d r where
  span_eq := by
    obtain ⟨hstart, hstop⟩ := h.joined
    rw [Cursor.spanSince, ← hstart, ← hstop]
  wellPlaced := h.wellPlaced r List.mem_cons_self

theorem PlacedAll.wellPlaced_of_mem {sep : List Char} {c d : Cursor} {rs : List Regex}
    (h : PlacedAll text sep c d rs) : ∀ x ∈ Regex.subtreesOfAll rs, x.WellPlaced text := by
  intro x hx
  obtain ⟨r, hr, hx⟩ := Regex.mem_subtreesOfAll.mp hx
  exact h.wellPlaced r hr x hx

theorem Placed.cons {sep : List Char} {c d e f : Cursor} {r : Regex} {rs : List Regex}
    (h : Placed text c d r) (hd : d.IsOn text) (hsep : d.Passes sep e)
    (hrs : PlacedAll text sep e f rs) : PlacedAll text sep c f (r :: rs) where
  joined := by
    have hgap : (Span.mk r.span.stop e.position).Spells text sep := by
      rw [h.span_eq]
      exact hsep.spells hd
    rw [List.map_cons]
    refine hrs.joined.cons ?_ hgap
    rw [h.span_eq]
    rfl
  wellPlaced := List.forall_mem_cons.mpr ⟨h.wellPlaced, hrs.wellPlaced⟩

theorem placed_empty {c : Cursor} (hc : c.IsOn text) :
    Placed text c c (.empty (.point c.position)) :=
  have hempty : (Span.point c.position).Spells text [] := (Cursor.Passes.refl c).spells hc
  ⟨rfl, List.forall_mem_singleton.mpr ⟨hempty.inText, hempty⟩⟩

theorem placed_sequence {c d : Cursor} (hc : c.IsOn text) (hcd : c.Reaches d) {rs : List Regex}
    (h : (rs = [] ∧ d = c) ∨ PlacedAll text [] c d rs) :
    Placed text c d (sequence rs (d.spanSince c.position)) := by
  obtain ⟨rfl, rfl⟩ | h := h
  · exact placed_empty hc
  · match rs with
    | [] => exact h.joined.elim
    | [r] => exact h.placed
    | r :: r' :: rs =>
      have hself : (Regex.concat (r :: r' :: rs) (d.spanSince c.position)).WellPlaced text :=
        ⟨hcd.inText hc, h.joined⟩
      exact ⟨rfl, List.forall_mem_cons.mpr ⟨hself, h.wellPlaced_of_mem⟩⟩

theorem placed_choice {c d : Cursor} (hc : c.IsOn text) (hcd : c.Reaches d)
    {rs : Regex × List Regex} (h : PlacedAll text ['|'] c d (rs.1 :: rs.2)) :
    Placed text c d (choice rs (d.spanSince c.position)) := by
  match rs with
  | (r, []) => exact h.placed
  | (r, r' :: rs) =>
    have hself : (Regex.alternation (r :: r' :: rs) (d.spanSince c.position)).WellPlaced text :=
      ⟨hcd.inText hc, h.joined⟩
    exact ⟨rfl, List.forall_mem_cons.mpr ⟨hself, h.wellPlaced_of_mem⟩⟩

mutual

theorem ReadsTerm.placed {levels : Nat} {s t : State} {r : Regex} :
    ReadsTerm mode levels s r t → s.cursor.IsOn text → Placed text s.cursor t.cursor r
  | .plain first _ atom count, hs => by
    have hcd := advances_of_plainAtom (Cursor.advances_of_next? first) atom
    exact placed_of_repeated hs hcd.reaches (placed_of_plainAtom hs first atom) count
  | .group first opened inside closed count, hs => by
    have hopened := (Cursor.passes_of_next? first).trans (passes_of_opening opened)
    have hclosed := Cursor.passes_of_eat? closed
    have hbody := placed_choice (hopened.isOn hs) inside.reaches (inside.placed (hopened.isOn hs))
    have hatom := placed_close hs hopened inside.reaches hbody hclosed
    have hcd := Cursor.Reaches.trans ⟨_, hopened⟩ (inside.reaches.trans ⟨_, hclosed⟩)
    exact placed_of_repeated hs hcd hatom count

theorem ReadsTerms.placed {levels : Nat} {s t : State} {rs : List Regex} :
    ReadsTerms mode levels s rs t → s.cursor.IsOn text →
    (rs = [] ∧ t.cursor = s.cursor) ∨ PlacedAll text [] s.cursor t.cursor rs
  | .nil _, _ => .inl ⟨rfl, rfl⟩
  | .cons more head tail, hs => by
    have hhead := head.placed hs
    have hmid := Cursor.Reaches.trans hs (head.advances more).reaches
    right
    obtain ⟨rfl, heq⟩ | htail := tail.placed hmid
    · rw [heq]
      exact hhead.singleton
    · exact hhead.cons hmid (.refl _) htail

/-- Alternatives that are read stand one after the other, with a bar between any two. -/
theorem ReadsAlternatives.placed {levels : Nat} {s t : State} {rs : Regex × List Regex} :
    ReadsAlternatives mode levels s rs t → s.cursor.IsOn text →
    PlacedAll text ['|'] s.cursor t.cursor (rs.1 :: rs.2)
  | .last terms _, hs => (placed_sequence hs terms.reaches (terms.placed hs)).singleton
  | .more terms bar tail, hs => by
    have hhead := placed_sequence hs terms.reaches (terms.placed hs)
    have hmid := Cursor.Reaches.trans hs terms.reaches
    have hbar := Cursor.passes_of_eat? bar
    exact hhead.cons hmid hbar (tail.placed (hbar.isOn hmid))

end

end Grammar

theorem Pattern.wellPlaced_of_parse {unicode : Bool} {text : String} {p : Pattern}
    (h : Pattern.parse unicode text = .ok p) : ∀ x ∈ p.root.subtrees, x.WellPlaced text := by
  obtain ⟨rs, t, hrs, -, hroot, -⟩ := Pattern.parse_eq_ok h
  have hstart : (Cursor.ofString text).IsOn text := .refl _
  rw [hroot]
  exact (Grammar.placed_choice hstart hrs.reaches (hrs.placed hstart)).wellPlaced

/-- The expressions of a pattern that is accepted stand where their spans say, and each character of
the pattern belongs to exactly one place of its tree. -/
theorem Pattern.spans_tile {unicode : Bool} {text : String} {p : Pattern}
    (h : Pattern.parse unicode text = .ok p) :
    p.root.span = ⟨0, text.utf8ByteSize⟩ ∧ (∀ x ∈ p.root.subtrees, x.WellPlaced text) ∧
      ∀ before ch after, text.toList = before ++ ch :: after →
        ∃! k : Nat, ∃ s, p.root.places[k]? = some s ∧ s.Covers before ch := by
  obtain ⟨rs, t, hrs, hend, hroot, -⟩ := Pattern.parse_eq_ok h
  have hstart : (Cursor.ofString text).IsOn text := .refl _
  have hplaced := Grammar.placed_choice hstart hrs.reaches (hrs.placed hstart)
  have hstop := Cursor.IsOn.position_eq hrs.reaches hend
  have hspan : p.root.span = ⟨0, text.utf8ByteSize⟩ := by
    rw [hroot, ← hstop]
    exact hplaced.span_eq
  have hwellPlaced : ∀ x ∈ p.root.subtrees, x.WellPlaced text := by
    rw [hroot]
    exact hplaced.wellPlaced
  refine ⟨hspan, hwellPlaced, ?_⟩
  intro before ch after htext
  have htile := Regex.tile_places p.root hwellPlaced
  rw [hspan] at htile
  refine htile.existsUnique_covers htext (Nat.zero_le _) ?_
  rw [utf8ByteSize_eq, htext]
  simp only [utf8Length_append, utf8Length_cons, utf8Length_nil]
  omega

/-- Characters of several bytes, an escaped surrogate pair, an empty branch and a property. -/
theorem Pattern.spans_tile_mixed :
    ∃ text p, text = "é\\uD83D\\uDE00(?<n>|[^\\p{L}-]{2,})(?<!a|(?:\\k<n>))😀*?" ∧
      Pattern.parse true text = .ok p ∧
      p.root.span = ⟨0, text.utf8ByteSize⟩ ∧ (∀ x ∈ p.root.subtrees, x.WellPlaced text) ∧
      ∀ before ch after, text.toList = before ++ ch :: after →
        ∃! k : Nat, ∃ s, p.root.places[k]? = some s ∧ s.Covers before ch := by
  have hok : (Pattern.parse true
      "é\\uD83D\\uDE00(?<n>|[^\\p{L}-]{2,})(?<!a|(?:\\k<n>))😀*?").isOk := by decide +kernel
  obtain ⟨p, hp⟩ := Pattern.exists_of_isOk hok
  exact ⟨_, p, rfl, hp, Pattern.spans_tile hp⟩

end PatternBlocks
