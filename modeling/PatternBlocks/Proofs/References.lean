import PatternBlocks.Proofs.Registration
import PatternBlocks.Proofs.Shape

/-!
Groups and references of a pattern that is accepted. The capturing groups are numbered in the order
of their opening parentheses, their names are distinct, and every reference is to one of them.
-/
namespace PatternBlocks

namespace Regex

/-- What an expression captures by itself, and the span of its parentheses. -/
def capture? : Regex → Option (Capture.Group × Span)
  | .group (.capturing index name) _ span => some (⟨index, name⟩, span)
  | _ => none

/-- The capturing groups with their spans, each before the groups inside it. -/
def captureSpans (r : Regex) : List (Capture.Group × Span) := r.subtrees.filterMap capture?

def captureSpansOfAll (rs : List Regex) : List (Capture.Group × Span) :=
  (subtreesOfAll rs).filterMap capture?

theorem captureSpansOfAll_cons (r : Regex) (rs : List Regex) :
    captureSpansOfAll (r :: rs) = r.captureSpans ++ captureSpansOfAll rs :=
  List.filterMap_append

theorem captureSpansOfAll_singleton (r : Regex) : captureSpansOfAll [r] = r.captureSpans := by
  rw [captureSpansOfAll_cons]
  exact List.append_nil _

mutual

theorem map_fst_captureSpans : (r : Regex) → r.captureSpans.map (·.1) = r.captures
  | .empty _ | .char .. | .dot _ | .classEscape .. | .property _ | .bracket _ | .assertion ..
  | .backref .. => rfl
  | .group (.capturing index name) body _ => by
    rw [captures, ← map_fst_captureSpans body]
    rfl
  | .group .nonCapturing body _ | .look _ _ body _ | .repetition _ _ body _ =>
    map_fst_captureSpans body
  | .concat terms _ => map_fst_captureSpansOfAll terms
  | .alternation branches _ => map_fst_captureSpansOfAll branches

theorem map_fst_captureSpansOfAll :
    (rs : List Regex) → (captureSpansOfAll rs).map (·.1) = capturesOfAll rs
  | [] => rfl
  | r :: rs => by
    rw [captureSpansOfAll_cons, List.map_append, map_fst_captureSpans r,
      map_fst_captureSpansOfAll rs, capturesOfAll]

end

mutual

/-- A reference by name is among those that are checked at the end. -/
theorem mem_namedReferences {name : String} {span : Span} : (r : Regex) →
    .backref (.name name) span ∈ r.subtrees → (name, span) ∈ r.namedReferences
  | .empty _, h | .char .., h | .dot _, h | .classEscape .., h | .property _, h | .bracket _, h
  | .assertion .., h | .backref (.number _) _, h => nomatch List.mem_singleton.mp h
  | .backref (.name _) _, h => by
    cases List.mem_singleton.mp h
    exact List.mem_singleton_self _
  | .group _ body _, h | .look _ _ body _, h | .repetition _ _ body _, h => by
    rcases List.mem_cons.mp h with h | h
    · cases h
    · exact mem_namedReferences body h
  | .concat rs _, h | .alternation rs _, h => by
    rcases List.mem_cons.mp h with h | h
    · cases h
    · exact mem_namedReferencesOfAll rs h

theorem mem_namedReferencesOfAll {name : String} {span : Span} : (rs : List Regex) →
    .backref (.name name) span ∈ subtreesOfAll rs → (name, span) ∈ namedReferencesOfAll rs
  | [], h => nomatch h
  | r :: rs, h => by
    rcases List.mem_append.mp h with h | h
    · exact List.mem_append_left _ (mem_namedReferences r h)
    · exact List.mem_append_right _ (mem_namedReferencesOfAll rs h)

end

end Regex

/-! ### The order of opening parentheses -/

/-- The groups open one after the other, all of them between two positions. -/
structure OpensBetween (start stop : Nat) (gs : List (Capture.Group × Span)) : Prop where
  ordered : gs.Pairwise (·.2.start < ·.2.start)
  bounded : ∀ g ∈ gs, start ≤ g.2.start ∧ g.2.start < stop

theorem opensBetween_nil {start stop : Nat} : OpensBetween start stop [] := ⟨.nil, nofun⟩

theorem OpensBetween.mono {start start' stop stop' : Nat} {gs : List (Capture.Group × Span)}
    (h : OpensBetween start stop gs) (hstart : start' ≤ start) (hstop : stop ≤ stop') :
    OpensBetween start' stop' gs where
  ordered := h.ordered
  bounded g hg := by
    have := h.bounded g hg
    omega

theorem OpensBetween.append {start mid stop : Nat} {gs hs : List (Capture.Group × Span)}
    (h : OpensBetween start mid gs) (k : OpensBetween mid stop hs) (hstart : start ≤ mid)
    (hstop : mid ≤ stop) : OpensBetween start stop (gs ++ hs) where
  ordered := by
    refine List.pairwise_append.mpr ⟨h.ordered, k.ordered, ?_⟩
    intro g hg g' hg'
    have := h.bounded g hg
    have := k.bounded g' hg'
    omega
  bounded g hg := by
    rcases List.mem_append.mp hg with hg | hg
    · have := h.bounded g hg
      omega
    · have := k.bounded g hg
      omega

namespace Grammar

variable {mode : Mode}

theorem captureSpans_of_leaf {r : Regex} (h : Leaf mode r) : r.captureSpans = [] := by
  cases h <;> rfl

theorem captureSpans_of_repeated {unicode : Bool} {start : Nat} {r r' : Regex} {c d : Cursor}
    (h : repeated unicode start r c = .ok (r', d)) : r'.captureSpans = r.captureSpans := by
  obtain ⟨rfl, -⟩ | ⟨count, greedy, rfl, -⟩ := repeated_eq_ok h <;> rfl

theorem captureSpans_sequence (rs : List Regex) (span : Span) :
    (sequence rs span).captureSpans = Regex.captureSpansOfAll rs := by
  match rs with
  | [] => rfl
  | [r] => exact (Regex.captureSpansOfAll_singleton r).symm
  | _ :: _ :: _ => rfl

theorem captureSpans_choice (rs : Regex × List Regex) (span : Span) :
    (choice rs span).captureSpans = Regex.captureSpansOfAll (rs.1 :: rs.2) := by
  match rs with
  | (r, []) => exact (Regex.captureSpansOfAll_singleton r).symm
  | (_, _ :: _) => rfl

/-- A group opens where its own parenthesis stands, before all groups inside it. -/
theorem opensBetween_close {start stop mid : Nat} {o : Opening} {r : Regex} {span : Span}
    (h : OpensBetween mid stop r.captureSpans) (hspan : span.start = start) (hstart : start < mid)
    (hstop : mid ≤ stop) : OpensBetween start stop (o.close r span).captureSpans := by
  match o with
  | .group (.capturing index name) =>
    have hself : OpensBetween start mid [(⟨index, name⟩, span)] := by
      refine ⟨List.pairwise_singleton .., ?_⟩
      intro g hg
      rw [List.mem_singleton.mp hg]
      dsimp only
      omega
    exact hself.append h (by omega) hstop
  | .group .nonCapturing | .look .. => exact h.mono (by omega) (Nat.le_refl _)

mutual

theorem ReadsTerm.opensBetween {levels : Nat} {s t : State} {r : Regex} :
    ReadsTerm mode levels s r t →
    OpensBetween s.cursor.position t.cursor.position r.captureSpans
  | .plain _ _ atom count => by
    rw [captureSpans_of_repeated count, captureSpans_of_leaf (leaf_of_plainAtom atom)]
    exact opensBetween_nil
  | .group (t := t) first opened inside closed count => by
    have hstart : _ < t.cursor.position :=
      ((Cursor.advances_of_next? first).trans_reaches (reaches_of_opening opened)).position_lt
    have hinside := inside.reaches.position_le
    have hstop := ((Cursor.advances_of_eat? closed).reaches.trans
      (reaches_of_repeated count)).position_le
    have hbody := inside.opensBetween
    rw [← captureSpans_choice] at hbody
    rw [captureSpans_of_repeated count]
    exact (opensBetween_close hbody rfl hstart hinside).mono (Nat.le_refl _) hstop

theorem ReadsTerms.opensBetween {levels : Nat} {s t : State} {rs : List Regex} :
    ReadsTerms mode levels s rs t →
    OpensBetween s.cursor.position t.cursor.position (Regex.captureSpansOfAll rs)
  | .nil _ => opensBetween_nil
  | .cons more head tail => by
    rw [Regex.captureSpansOfAll_cons]
    exact head.opensBetween.append tail.opensBetween (head.advances more).reaches.position_le
      tail.reaches.position_le

theorem ReadsAlternatives.opensBetween {levels : Nat} {s t : State} {rs : Regex × List Regex} :
    ReadsAlternatives mode levels s rs t →
    OpensBetween s.cursor.position t.cursor.position (Regex.captureSpansOfAll (rs.1 :: rs.2))
  | .last terms _ => by
    rw [Regex.captureSpansOfAll_cons, captureSpans_sequence]
    exact terms.opensBetween.append opensBetween_nil terms.reaches.position_le (Nat.le_refl _)
  | .more terms bar tail => by
    have hbar := (Cursor.advances_of_eat? bar).reaches.position_le
    have htail := Nat.le_trans hbar tail.reaches.position_le
    rw [Regex.captureSpansOfAll_cons, captureSpans_sequence]
    exact terms.opensBetween.append (tail.opensBetween.mono hbar (Nat.le_refl _))
      terms.reaches.position_le htail

end

end Grammar

/-! ### References -/

/-- The reference is to one of the captures or to one of the names. -/
def Reference.Resolves (captures : Nat) (names : List String) : Reference → Prop
  | .number n => 1 ≤ n.toNat ∧ n.toNat ≤ captures
  | .name s => s ∈ names

theorem Pattern.resolves_of_mem_subtrees {unicode : Bool} {text : String} {p : Pattern}
    (h : Pattern.parse unicode text = .ok p) {target : Reference} {span : Span}
    (hmem : .backref target span ∈ p.root.subtrees) : target.Resolves p.captures p.names := by
  obtain ⟨rs, t, -, -, -, -, hnames, hrefs⟩ := Pattern.parse_eq_ok h
  obtain ⟨hcaptures, -, hscan⟩ := Pattern.groups_of_parse h
  cases target with
  | number n =>
    cases (Pattern.isDisjunction_of_parse h).leaf_of_mem hmem rfl with
    | number _ hpos hle =>
      have hcount : (Capture.Scan.ofString text).count = p.captures := by
        rw [hscan, hcaptures]
        rfl
      have hne : n.toNat ≠ 0 := fun hzero => hpos (UInt32.toNat_inj.mp hzero)
      exact ⟨Nat.pos_of_ne_zero hne, hcount ▸ hle⟩
  | name name =>
    have hname := hrefs _ (Regex.mem_namedReferences p.root hmem)
    rw [Reference.Resolves, hnames]
    exact Capture.Registry.hasName_iff_mem_names.mp hname

/-- In a pattern that is accepted the capturing groups are numbered without a gap in the order of
their opening parentheses, and each reference is to a group of the pattern, wherever it stands. -/
theorem Pattern.references_resolve {unicode : Bool} {text : String} {p : Pattern}
    (h : Pattern.parse unicode text = .ok p) :
    p.root.captureSpans.Pairwise (·.2.start < ·.2.start) ∧
      p.root.captureSpans.map (·.1.index) = List.range' 1 p.captures ∧
      p.root.captureSpans.filterMap (·.1.name) = p.names ∧ p.names.Nodup ∧
      ∀ target span, .backref target span ∈ p.root.subtrees →
        target.Resolves p.captures p.names := by
  obtain ⟨rs, t, hrs, -, hroot, hcaptures, hnames, -⟩ := Pattern.parse_eq_ok h
  have hwellFormed := hrs.wellFormed Capture.Registry.wellFormed_empty
  have hgroups : p.root.captureSpans.map (·.1) = t.groups.groups.toList := by
    rw [Regex.map_fst_captureSpans, hroot, Grammar.captures_choice, hrs.opens.registered]
    rfl
  refine ⟨?_, ?_, ?_, ?_, fun target span => Pattern.resolves_of_mem_subtrees h⟩
  · rw [hroot, Grammar.captureSpans_choice]
    exact hrs.opensBetween.ordered
  · rw [hcaptures, ← hwellFormed.numbered, ← hgroups, List.map_map]
    rfl
  · rw [hnames, Capture.Registry.names, ← hgroups, List.filterMap_map]
    rfl
  · rw [hnames]
    exact hwellFormed.distinct

/-- References to a later group, to an enclosing one and from inside a lookaround. -/
theorem Pattern.references_resolve_forward :
    ∃ p, Pattern.parse true "\\k<n>(a\\2(?<n>b\\1))(?<=(\\3)|\\k<n>)" = .ok p ∧
      p.root.captureSpans.Pairwise (·.2.start < ·.2.start) ∧
      p.root.captureSpans.map (·.1.index) = List.range' 1 p.captures ∧
      p.root.captureSpans.filterMap (·.1.name) = p.names ∧ p.names.Nodup ∧
      ∀ target span, .backref target span ∈ p.root.subtrees →
        target.Resolves p.captures p.names := by
  have hok : (Pattern.parse true "\\k<n>(a\\2(?<n>b\\1))(?<=(\\3)|\\k<n>)").isOk := by
    decide +kernel
  obtain ⟨p, hp⟩ := Pattern.exists_of_isOk hok
  exact ⟨p, hp, Pattern.references_resolve hp⟩

end PatternBlocks
