import PatternBlocks.Proofs.Faults

/-!
Which patterns have no blocks. Reading a tree into blocks goes from left to right and stops at the
first property, and nothing else in a tree that was parsed can stop it.
-/
namespace PatternBlocks

/-! ### The properties of an expression -/

namespace Regex

def asProperty? : Regex → Option Property
  | .property p => some p
  | _ => none

/-- The properties outside brackets, from left to right. -/
def properties (r : Regex) : List Property := r.subtrees.filterMap asProperty?

def propertiesOfAll (rs : List Regex) : List Property := (subtreesOfAll rs).filterMap asProperty?

theorem asProperty?_eq_some {r : Regex} {p : Property} :
    r.asProperty? = some p ↔ r = .property p := by
  cases r <;> simp [asProperty?]

theorem mem_properties {r : Regex} {p : Property} :
    p ∈ r.properties ↔ .property p ∈ r.subtrees := by
  simp [properties, asProperty?_eq_some]

theorem propertiesOfAll_cons (r : Regex) (rs : List Regex) :
    propertiesOfAll (r :: rs) = r.properties ++ propertiesOfAll rs :=
  List.filterMap_append

/-! ### Where reading into blocks stops -/

/-- A result is refused for the first of the properties, and there is one if there are none. -/
def StopsAtFirst {α : Type} (x : Except Unsupported α) : List Property → Prop
  | [] => ∃ a, x = .ok a
  | p :: _ => x = .error ⟨.propertyEscape, p.span⟩

theorem StopsAtFirst.map {α β : Type} {x : Except Unsupported α} {ps : List Property}
    (h : StopsAtFirst x ps) (f : α → β) : StopsAtFirst (x.map f) ps := by
  cases ps with
  | nil =>
    obtain ⟨a, rfl⟩ := h
    exact ⟨f a, rfl⟩
  | cons p ps => exact map_eq_error.mpr h

theorem StopsAtFirst.pieces_cons {r : Regex} {rs : List Regex} {ps qs : List Property}
    (hr : StopsAtFirst r.piece ps) (hrs : StopsAtFirst (pieces rs) qs) :
    StopsAtFirst (pieces (r :: rs)) (ps ++ qs) := by
  rw [pieces]
  cases ps with
  | nil =>
    obtain ⟨piece, hpiece⟩ := hr
    rw [hpiece]
    exact hrs.map (piece :: ·)
  | cons p ps =>
    replace hr : r.piece = .error ⟨.propertyEscape, p.span⟩ := hr
    rw [hr]
    rfl

/-- There are blocks for all references but the one to group zero. -/
theorem exists_ofReference {target : Reference} (h : target ≠ .number 0) (span : Span) :
    ∃ b, Block.ofReference span target = .ok b := by
  cases target with
  | name s => exact ⟨_, rfl⟩
  | number n =>
    have hn : n ≠ 0 := by
      rintro rfl
      exact h rfl
    exact ⟨.backref (.index ⟨n, hn⟩) .one,
      by rw [Block.ofReference, Block.mkNumberReference, GroupNumber.ofUInt32?, dif_pos hn]⟩

/-- No reference in the expression is to group zero. -/
def PositiveReferences (rs : List Regex) : Prop := ∀ span, .backref (.number 0) span ∉ rs

theorem PositiveReferences.mono {rs xs : List Regex} (h : PositiveReferences rs) (hsub : xs ⊆ rs) :
    PositiveReferences xs :=
  fun span hx => h span (hsub hx)

mutual

theorem piece_stopsAtFirst : (r : Regex) → PositiveReferences r.subtrees →
    StopsAtFirst r.piece r.properties
  | .empty _, _ | .char .., _ | .dot _, _ | .classEscape .., _ | .bracket _, _
  | .assertion .., _ => ⟨_, rfl⟩
  | .property _, _ => rfl
  | .backref target span, h => by
    have htarget : target ≠ .number 0 := by
      rintro rfl
      exact h span (List.mem_singleton_self _)
    obtain ⟨b, hb⟩ := exists_ofReference htarget span
    exact ⟨.block b, by rw [piece, hb]; rfl⟩
  | .group _ body _, h | .look _ _ body _, h | .repetition _ _ body _, h => by
    rw [piece]
    exact (piece_stopsAtFirst body (h.mono (List.subset_cons_self _ _))).map _
  | .concat rs _, h | .alternation rs _, h => by
    rw [piece]
    exact (pieces_stopsAtFirst rs (h.mono (List.subset_cons_self _ _))).map _

theorem pieces_stopsAtFirst : (rs : List Regex) → PositiveReferences (subtreesOfAll rs) →
    StopsAtFirst (pieces rs) (propertiesOfAll rs)
  | [], _ => ⟨[], rfl⟩
  | r :: rs, h => by
    have hr := piece_stopsAtFirst r (h.mono (List.subset_append_left _ _))
    have hrs := pieces_stopsAtFirst rs (h.mono (List.subset_append_right _ _))
    rw [propertiesOfAll_cons]
    exact hr.pieces_cons hrs

end

/-! ### The order of the properties -/

mutual

/-- Each property takes up a place of its own, in the order of the text. -/
theorem sublist_places : (r : Regex) → (r.properties.map Property.span).Sublist r.places
  | .empty _ | .char .. | .dot _ | .classEscape .. | .bracket _ | .assertion ..
  | .backref .. => List.nil_sublist _
  | .property p => .refl [p.span]
  | .group _ body _ | .look _ _ body _ =>
    ((sublist_places body).cons _).trans (List.sublist_append_left _ _)
  | .repetition _ _ body _ => (sublist_places body).trans (List.sublist_append_left _ _)
  | .concat rs _ => sublist_placesOfAll rs
  | .alternation rs _ => sublist_placesOfBranches rs

theorem sublist_placesOfAll : (rs : List Regex) →
    ((propertiesOfAll rs).map Property.span).Sublist (placesOfAll rs)
  | [] => .refl []
  | r :: rs => by
    rw [propertiesOfAll_cons, List.map_append]
    exact (sublist_places r).append (sublist_placesOfAll rs)

theorem sublist_placesOfBranches : (rs : List Regex) →
    ((propertiesOfAll rs).map Property.span).Sublist (placesOfBranches rs)
  | [] => .refl []
  | r :: rs => by
    have hr := sublist_places r
    have hrs := sublist_placesOfBranches rs
    rw [propertiesOfAll_cons, List.map_append]
    cases rs with
    | nil => exact (List.append_nil _).symm ▸ hr
    | cons r' rs => exact hr.append (hrs.cons _)

end

end Regex

namespace Pattern

variable {unicode : Bool} {text : String} {p : Pattern}

/-- The properties of a pattern do not overlap. -/
theorem pairwise_properties (h : Pattern.parse unicode text = .ok p) :
    p.root.properties.Pairwise fun q q' => q.span.stop ≤ q'.span.start := by
  have htile := Regex.tile_places p.root (wellPlaced_of_parse h)
  exact List.pairwise_map.mp (htile.pairwise.sublist (Regex.sublist_places p.root))

theorem positiveReferences (h : Pattern.parse unicode text = .ok p) :
    Regex.PositiveReferences p.root.subtrees := by
  intro span hx
  have hleaf := (Pattern.isDisjunction_of_parse h).leaf_of_mem hx rfl
  cases hleaf with
  | number _ pos _ => exact pos rfl

theorem unicode_of_property {q : Property} (h : Pattern.parse unicode text = .ok p)
    (hq : .property q ∈ p.root.subtrees) : unicode := by
  have hleaf := (Pattern.isDisjunction_of_parse h).leaf_of_mem hq rfl
  cases hleaf with
  | property _ strict => exact strict

end Pattern

/-! ### The error -/

namespace Block

variable {text : String} {flags : Flags} {p : Pattern} {q : Property} {qs : List Property}

theorem exists_ofPattern (h : Pattern.parse flags.unicode text = .ok p)
    (hnone : p.root.properties = []) : ∃ bs, Block.ofPattern text flags = .ok bs := by
  have hstops := Regex.piece_stopsAtFirst p.root (Pattern.positiveReferences h)
  rw [hnone] at hstops
  obtain ⟨piece, hpiece⟩ := hstops
  have hblocks : p.root.blocks = .ok piece.toBlocks := map_eq_ok.mpr ⟨piece, hpiece, rfl⟩
  exact ⟨piece.toBlocks, by simp [Block.ofPattern, Conversion.ofPattern, h, hblocks, Except.map]⟩

theorem ofPattern_eq_error (h : Pattern.parse flags.unicode text = .ok p)
    (hfirst : p.root.properties = q :: qs) :
    Block.ofPattern text flags =
      .error ⟨text, flags, .unsupported ⟨.propertyEscape, q.span⟩⟩ := by
  have hstops := Regex.piece_stopsAtFirst p.root (Pattern.positiveReferences h)
  rw [hfirst] at hstops
  have hblocks : p.root.blocks = .error ⟨.propertyEscape, q.span⟩ := map_eq_error.mpr hstops
  simp [Block.ofPattern, Conversion.ofPattern, h, hblocks, Except.map]

/-- The error of a pattern that is accepted is about its first property. -/
theorem eq_of_ofPattern_error {e : PatternError} (h : Pattern.parse flags.unicode text = .ok p)
    (he : Block.ofPattern text flags = .error e) :
    ∃ q qs, p.root.properties = q :: qs ∧
      e = ⟨text, flags, .unsupported ⟨.propertyEscape, q.span⟩⟩ := by
  cases hproperties : p.root.properties with
  | nil =>
    obtain ⟨bs, hbs⟩ := exists_ofPattern h hproperties
    rw [hbs] at he
    cases he
  | cons q qs =>
    rw [ofPattern_eq_error h hproperties] at he
    cases he
    exact ⟨q, qs, rfl, rfl⟩

theorem exists_ofPattern_iff (h : Pattern.parse flags.unicode text = .ok p) :
    (∃ bs, Block.ofPattern text flags = .ok bs) ↔ ∀ q, .property q ∉ p.root.subtrees := by
  constructor
  · rintro ⟨bs, hbs⟩ q hq
    rw [← Regex.mem_properties] at hq
    obtain ⟨q, qs, hproperties⟩ := List.exists_cons_of_ne_nil (List.ne_nil_of_mem hq)
    rw [ofPattern_eq_error h hproperties] at hbs
    cases hbs
  · intro hnone
    apply exists_ofPattern h
    apply List.eq_nil_iff_forall_not_mem.mpr
    intro q hq
    exact hnone q (Regex.mem_properties.mp hq)

/-- A pattern that is accepted has blocks unless there is a property outside its brackets, and then
the error is about the first one. Without the flag for unicode there is none, and a reference to
group zero is never the error. -/
theorem ofPattern_stops_at_property (text : String) (flags : Flags) :
    (∀ p, Pattern.parse flags.unicode text = .ok p →
      ((∃ bs, Block.ofPattern text flags = .ok bs) ↔ ∀ q, .property q ∉ p.root.subtrees) ∧
        (flags.unicode = false → ∃ bs, Block.ofPattern text flags = .ok bs) ∧
          ∀ e, Block.ofPattern text flags = .error e → ∃ q, .property q ∈ p.root.subtrees ∧
            e = ⟨text, flags, .unsupported ⟨.propertyEscape, q.span⟩⟩ ∧
            e.cause.message = "Unsupported syntax: unicode property escape" ∧ e.span = q.span ∧
            ∀ q', .property q' ∈ p.root.subtrees → q' = q ∨ q.span.stop ≤ q'.span.start) ∧
      ∀ e span, Block.ofPattern text flags = .error e →
        e.cause ≠ .unsupported ⟨.referenceToGroupZero, span⟩ := by
  constructor
  · intro p h
    refine ⟨exists_ofPattern_iff h, ?_, ?_⟩
    · intro hunicode
      apply (exists_ofPattern_iff h).mpr
      intro q hq
      rw [Pattern.unicode_of_property h hq] at hunicode
      cases hunicode
    · intro e he
      obtain ⟨q, qs, hfirst, rfl⟩ := eq_of_ofPattern_error h he
      have hq : q ∈ p.root.properties := hfirst ▸ List.mem_cons_self
      refine ⟨q, Regex.mem_properties.mp hq, rfl, rfl, rfl, ?_⟩
      intro q' hq'
      have hpairwise := Pattern.pairwise_properties h
      rw [hfirst] at hpairwise
      rw [← Regex.mem_properties, hfirst] at hq'
      rcases List.mem_cons.mp hq' with rfl | hq'
      · exact .inl rfl
      · exact .inr (List.rel_of_pairwise_cons hpairwise hq')
  · intro e span he hcause
    cases hparse : Pattern.parse flags.unicode text with
    | error s =>
      simp only [Block.ofPattern, Conversion.ofPattern, hparse, Except.map] at he
      cases he
      cases hcause
    | ok p =>
      obtain ⟨q, qs, -, rfl⟩ := eq_of_ofPattern_error hparse he
      cases hcause

/-- Behind a property in brackets the first of two others, deep inside, is the one refused. -/
theorem ofPattern_stops_at_property_nested :
    ∃ text flags p e q, text = "[\\p{L}](?:a|(?<=\\p{Lu}b))*\\P{Nd}" ∧
      Pattern.parse flags.unicode text = .ok p ∧ Block.ofPattern text flags = .error e ∧
      .property q ∈ p.root.subtrees ∧
      e = ⟨text, flags, .unsupported ⟨.propertyEscape, q.span⟩⟩ ∧
      (∀ q', .property q' ∈ p.root.subtrees → q' = q ∨ q.span.stop ≤ q'.span.start) ∧
      ∀ span, e.cause ≠ .unsupported ⟨.referenceToGroupZero, span⟩ := by
  have hok : (Pattern.parse true "[\\p{L}](?:a|(?<=\\p{Lu}b))*\\P{Nd}").isOk := by decide +kernel
  have hfails : ¬(Block.ofPattern "[\\p{L}](?:a|(?<=\\p{Lu}b))*\\P{Nd}"
      { unicode := true }).isOk := by decide +kernel
  obtain ⟨p, hp⟩ := Pattern.exists_of_isOk hok
  obtain ⟨e, he⟩ := exists_of_not_isOk hfails
  obtain ⟨haccepted, hzero⟩ := ofPattern_stops_at_property _ { unicode := true }
  obtain ⟨-, -, hfirst⟩ := haccepted p hp
  obtain ⟨q, hq, hcause, -, -, hleft⟩ := hfirst e he
  exact ⟨_, _, p, e, q, rfl, hp, he, hq, hcause, hleft, fun span => hzero e span he⟩

end Block

end PatternBlocks
