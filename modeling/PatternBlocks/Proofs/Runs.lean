import PatternBlocks.Proofs.AtomText
import PatternBlocks.Proofs.Derivation

/-!
Runs of terms that stop in the middle of an alternative. A run yields pieces if its terms contribute
them; what a text yields is put together from what its parts yield.
-/
namespace PatternBlocks.Grammar

open Capture (Registry)

variable {mode : Mode} {levels : Nat} {captures : List (Option String)}

/-- The names, if any, of the groups opened so far. -/
def State.groupNames (s : State) : List (Option String) := s.groups.groups.toList.map (·.name)

inductive ReadsRun (mode : Mode) (levels : Nat) : State → List Regex → State → Prop
  | nil {s : State} : ReadsRun mode levels s [] s
  | cons {s t u : State} {r : Regex} {rs : List Regex} (more : ¬endsAlternative s.cursor)
      (head : ReadsTerm mode levels s r t) (tail : ReadsRun mode levels t rs u) :
      ReadsRun mode levels s (r :: rs) u

theorem ReadsRun.append {s t u : State} {rs qs : List Regex} (h : ReadsRun mode levels s rs t)
    (k : ReadsRun mode levels t qs u) : ReadsRun mode levels s (rs ++ qs) u := by
  induction h with
  | nil => exact k
  | cons more head tail ih => exact .cons more head (ih k)

theorem ReadsRun.readsTerms {s t : State} {rs : List Regex} (h : ReadsRun mode levels s rs t)
    (last : endsAlternative t.cursor) : ReadsTerms mode levels s rs t := by
  induction h with
  | nil => exact .nil last
  | cons more head tail ih => exact .cons more head (ih last)

theorem pieces_cons_eq_ok {r : Regex} {rs : List Regex} {ps : List Piece} :
    Regex.pieces (r :: rs) = .ok ps ↔
      ∃ p ps', r.piece = .ok p ∧ Regex.pieces rs = .ok ps' ∧ ps = p :: ps' := by
  rw [Regex.pieces]
  cases hp : r.piece with
  | error => simp
  | ok p => cases hps : Regex.pieces rs <;> simp [Except.map, eq_comm]

theorem pieces_append {rs qs : List Regex} {ps ps' : List Piece} (h : Regex.pieces rs = .ok ps)
    (h' : Regex.pieces qs = .ok ps') : Regex.pieces (rs ++ qs) = .ok (ps ++ ps') := by
  induction rs generalizing ps with
  | nil =>
    cases h
    exact h'
  | cons r rs ih =>
    obtain ⟨p, ps, hp, hps, rfl⟩ := pieces_cons_eq_ok.mp h
    exact pieces_cons_eq_ok.mpr ⟨p, ps ++ ps', hp, ih hps, rfl⟩

theorem namedReferencesOfAll_append (rs qs : List Regex) :
    Regex.namedReferencesOfAll (rs ++ qs) =
      Regex.namedReferencesOfAll rs ++ Regex.namedReferencesOfAll qs := by
  induction rs with
  | nil => rfl
  | cons r rs ih => simp [Regex.namedReferencesOfAll, ih]

/-- The text from `s` up to `rest` is read as terms that contribute `ps`, refer to captures by name
only, and open groups with the given names. -/
def Yields (mode : Mode) (levels : Nat) (captures : List (Option String)) (s : State)
    (rest : List Char) (ps : List Piece) (names : List (Option String)) : Prop :=
  ∃ rs t, ReadsRun mode levels s rs t ∧ t.cursor.rest = rest ∧ Regex.pieces rs = .ok ps ∧
    (∀ x ∈ Regex.namedReferencesOfAll rs, some x.1 ∈ captures) ∧
    t.groupNames = s.groupNames ++ names

theorem Yields.nil {s : State} : Yields mode levels captures s s.cursor.rest [] [] :=
  ⟨[], s, .nil, rfl, rfl, nofun, (List.append_nil _).symm⟩

theorem Yields.append {s : State} {rest rest' : List Char} {ps ps' : List Piece}
    {names names' : List (Option String)} (h : Yields mode levels captures s rest ps names)
    (k : ∀ t : State, t.cursor.rest = rest → t.groupNames = s.groupNames ++ names →
      Yields mode levels captures t rest' ps' names') :
    Yields mode levels captures s rest' (ps ++ ps') (names ++ names') := by
  obtain ⟨rs, t, hrun, ht, hps, hrefs, hnames⟩ := h
  obtain ⟨qs, u, hrun', hu, hps', hrefs', hnames'⟩ := k t ht hnames
  refine ⟨rs ++ qs, u, hrun.append hrun', hu, pieces_append hps hps', ?_, ?_⟩
  · intro x hx
    rw [namedReferencesOfAll_append, List.mem_append] at hx
    exact hx.elim (hrefs x) (hrefs' x)
  · rw [hnames', hnames, List.append_assoc]

theorem Yields.of_term {s t : State} {rest : List Char} {r : Regex} {p : Piece}
    {names : List (Option String)} (more : ¬endsAlternative s.cursor)
    (h : ReadsTerm mode levels s r t) (ht : t.cursor.rest = rest) (hp : r.piece = .ok p)
    (hrefs : ∀ x ∈ r.namedReferences, some x.1 ∈ captures)
    (hnames : t.groupNames = s.groupNames ++ names) :
    Yields mode levels captures s rest [p] names := by
  refine ⟨[r], t, .cons more h .nil, ht, pieces_cons_eq_ok.mpr ⟨p, [], hp, rfl, rfl⟩, ?_, hnames⟩
  simpa [Regex.namedReferencesOfAll] using hrefs

/-- An atom without parentheses refers to the name that its piece refers to. -/
theorem piece_of_mem_namedReferences {a : Regex} (h : Leaf mode a) {x : String × Span}
    (hx : x ∈ a.namedReferences) : a.piece = .ok (.block (.mkNameReference x.1)) := by
  cases h with
  | name span =>
    obtain rfl := List.mem_singleton.mp hx
    rfl
  | _ => cases hx

/-- The text from `s` up to `rest` is read as an atom that contributes `p` and may repeat if
`repeats` holds. It refers to captures by name only, and opens groups with the given names. -/
structure YieldsAtom (mode : Mode) (levels : Nat) (captures : List (Option String)) (s : State)
    (rest : List Char) (p : Piece) (repeats : Prop) (names : List (Option String)) : Prop where
  more : ¬endsAlternative s.cursor
  read : ∃ a t, atom mode (innerReader mode levels) s = .ok (a, t) ∧ t.cursor.rest = rest ∧
    a.piece = .ok p ∧ (repeats → mayRepeat mode.unicode a) ∧
    (∀ x ∈ a.namedReferences, some x.1 ∈ captures) ∧ t.groupNames = s.groupNames ++ names

theorem YieldsAtom.mono {s : State} {rest : List Char} {p : Piece} {repeats : Prop}
    {names captures' : List (Option String)}
    (h : YieldsAtom mode levels captures s rest p repeats names) (hsub : captures ⊆ captures') :
    YieldsAtom mode levels captures' s rest p repeats names := by
  obtain ⟨more, a, t, hatom, ht, ha, hmay, hrefs, hnames⟩ := h
  exact ⟨more, a, t, hatom, ht, ha, hmay, fun x hx => hsub (hrefs x hx), hnames⟩

/-- An atom without parentheses. -/
theorem YieldsAtom.of_readsAtom {w rest : List Char} {p : Piece} {repeats : Prop}
    (h : ReadsAtom mode w rest p repeats)
    (hname : ∀ name, p = .block (.mkNameReference name) → some name ∈ captures) {s : State}
    (hs : s.cursor.rest = w ++ rest) : YieldsAtom mode levels captures s rest p repeats [] := by
  obtain ⟨⟨srest, position⟩, groups, references⟩ := s
  dsimp only at hs
  subst hs
  obtain ⟨ch, c, a, d, hnext, hch, hatom, hd, ha, hmay⟩ := h position
  simp only [List.mem_cons, List.not_mem_nil, or_false, not_or] at hch
  refine ⟨not_endsAlternative hnext hch.2.2 hch.2.1, a,
    ⟨d, groups, references ++ a.reference?.toList⟩, ?_, hd, ha, hmay, ?_,
    (List.append_nil _).symm⟩
  · simp only [atom, hnext, hch.1, if_false, hatom, State.note]
  · intro x hx
    have hx' := piece_of_mem_namedReferences (leaf_of_plainAtom hatom) hx
    rw [ha] at hx'
    exact hname x.1 (Except.ok.inj hx')

/-- An atom with a quantifier behind it. -/
theorem YieldsAtom.repeated {s : State} {rest : List Char} {p : Piece} {repeats : Prop}
    {names : List (Option String)} {q : Quantifier}
    (h : YieldsAtom mode levels captures s (q.render ++ rest) p repeats names)
    (hreversed : ¬q.Reversed) (hmay : q = .one ∨ repeats)
    (hrest : BeginsWithout startsQuantifier rest) :
    Yields mode levels captures s rest [p.repeated q.asRead] names := by
  obtain ⟨more, a, ⟨⟨trest, position⟩, groups, references⟩, hatom, ht, ha, hmay', hrefs, hnames⟩ :=
    h
  dsimp only at ht
  subst ht
  obtain ⟨r, e, hrepeated, he, hr, hrefs'⟩ := repeated_render hreversed ha (hmay.imp_right hmay')
    hrest s.cursor.position position
  have hterm : term mode (innerReader mode levels) s = .ok (r, ⟨e, groups, references⟩) := by
    simp only [term, hatom, hrepeated, keepGroups]
  have hreads := readsTerm_of_term (fun l _ => derivesInside mode l) (peek?_ne_none more) hterm
  exact .of_term more hreads he hr (hrefs' ▸ hrefs) hnames

/-- An atom without parentheses with a quantifier behind it. -/
theorem Yields.of_atom {w rest : List Char} {p : Piece} {repeats : Prop} {q : Quantifier}
    (h : ReadsAtom mode w (q.render ++ rest) p repeats) (horder : q.InOrder)
    (hmay : q = .one ∨ repeats) (hrest : BeginsWithout startsQuantifier rest)
    (hname : ∀ name, p = .block (.mkNameReference name) → some name ∈ captures) {s : State}
    (hs : s.cursor.rest = w ++ q.render ++ rest) :
    Yields mode levels captures s rest [p.repeated q] [] := by
  rw [List.append_assoc] at hs
  have hatom : YieldsAtom mode levels captures s (q.render ++ rest) p repeats [] :=
    .of_readsAtom h hname hs
  have hyields := hatom.repeated horder.not_reversed hmay hrest
  rwa [horder.asRead_eq] at hyields

end PatternBlocks.Grammar
