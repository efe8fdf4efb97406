import PatternBlocks.Block.Equality
import PatternBlocks.Editor
import PatternBlocks.Proofs.Naming

/-!
Which blocks come out of the constructors. They are the ones that pass the check for misnamed groups
and hold no alternation without branches, which the check lets pass.
-/
namespace PatternBlocks.Block

/-- The block can be made by constructors, each followed by any number of changes of the
quantifier. -/
inductive Built : Block → Prop where
  | literal (text : String) : Built (mkLiteral text)
  | shorthand (which : Shorthand) : Built (mkShorthand which)
  | anchor (which : Anchor) : Built (mkAnchor which)
  | boundary (which : Boundary) : Built (mkBoundary which)
  | charClass (payload : CharClass) : Built (mkCharClass payload)
  | group (capturing : Bool) (name : Option String) {children : List Block}
      (h : ∀ b ∈ children, Built b) : Built (mkGroup capturing name children)
  | alternation {branches : List (List Block)} (h : ∀ branch ∈ branches, ∀ b ∈ branch, Built b) :
      Built (mkAlternation branches)
  | look (direction : LookDirection) (positive : Bool) {children : List Block}
      (h : ∀ b ∈ children, Built b) : Built (mkLook direction positive children)
  | number {n : UInt32} {b : Block} (h : mkNumberReference n = .ok b) : Built b
  | name (name : String) : Built (mkNameReference name)
  | quantified {b : Block} (h : Built b) (q : Quantifier) : Built (b.setQuant q)

/-- What the constructors make sure of: a group with a name captures, and an alternation has a
branch. -/
def IsSound : Block → Prop
  | .group capturing name _ _ => name.isSome → capturing
  | .alternation branches _ => branches ≠ []
  | _ => True

theorem isSound_iff {b : Block} :
    b.IsSound ↔ b.misname? = none ∧ ∀ branches q, b = .alternation branches q → branches ≠ [] := by
  cases b with
  | group capturing name children q => cases capturing <;> cases name <;> simp [IsSound, misname?]
  | alternation branches q => simp [IsSound, misname?]
  | _ => simp [IsSound, misname?]

theorem isSound_setQuant (b : Block) (q : Quantifier) : (b.setQuant q).IsSound ↔ b.IsSound := by
  cases b <;> rfl

/-! ### Constructors build sound blocks -/

theorem Built.isSound {b : Block} (h : b.Built) : ∀ x ∈ b.nodes, x.IsSound := by
  induction h with
  | literal | shorthand | anchor | boundary | charClass | name =>
    exact List.forall_mem_singleton.mpr trivial
  | @group capturing name children _ ih =>
    refine List.forall_mem_cons.mpr ⟨fun hname => by simp [hname], fun x hx => ?_⟩
    obtain ⟨b, hb, hx⟩ := mem_nodesOfAll.mp hx
    exact ih b hb x hx
  | @alternation branches _ ih =>
    cases branches with
    | nil => exact List.forall_mem_singleton.mpr (List.cons_ne_nil _ _)
    | cons branch branches =>
      refine List.forall_mem_cons.mpr ⟨List.cons_ne_nil _ _, fun x hx => ?_⟩
      obtain ⟨branch, hbranch, hx⟩ := mem_nodesOfBranches.mp hx
      obtain ⟨b, hb, hx⟩ := mem_nodesOfAll.mp hx
      exact ih branch hbranch b hb x hx
  | look direction positive _ ih =>
    refine List.forall_mem_cons.mpr ⟨trivial, fun x hx => ?_⟩
    obtain ⟨b, hb, hx⟩ := mem_nodesOfAll.mp hx
    exact ih b hb x hx
  | @number n b h =>
    unfold mkNumberReference at h
    split at h
    · cases h
      exact List.forall_mem_singleton.mpr trivial
    · cases h
  | @quantified b _ q ih =>
    intro x hx
    rcases mem_nodes_setQuant hx with rfl | hx
    · exact (isSound_setQuant b q).mpr (ih b (Grammar.mem_nodes_self b))
    · exact ih x hx

/-! ### Sound blocks are built -/

theorem mkNumberReference_value (n : GroupNumber) :
    mkNumberReference n.value = .ok (.backref (.index n) .one) := by
  rw [mkNumberReference, GroupNumber.ofUInt32?, dif_pos n.ne_zero]

mutual

theorem built_of_isSound : (b : Block) → (∀ x ∈ b.nodes, x.IsSound) → b.Built
  | .literal text q, _ => (Built.literal text).quantified q
  | .shorthand which q, _ => (Built.shorthand which).quantified q
  | .anchor which, _ => .anchor which
  | .boundary which q, _ => (Built.boundary which).quantified q
  | .charClass payload q, _ => (Built.charClass payload).quantified q
  | .group capturing name children q, h => by
    obtain ⟨hname, hchildren⟩ := List.forall_mem_cons.mp h
    have hbuilt := (Built.group capturing name (builtAll_of_isSound children hchildren)).quantified q
    have hcapturing : (capturing || name.isSome) = capturing := by
      cases capturing
      · simpa [IsSound] using hname
      · rfl
    rwa [mkGroup, hcapturing] at hbuilt
  | .alternation branches q, h => by
    obtain ⟨hne, hbranches⟩ := List.forall_mem_cons.mp h
    have hbuilt := (Built.alternation (builtEach_of_isSound branches hbranches)).quantified q
    have hisEmpty : branches.isEmpty = false := List.isEmpty_eq_false_iff.mpr hne
    rwa [mkAlternation, hisEmpty] at hbuilt
  | .look direction positive children q, h =>
    have hchildren := builtAll_of_isSound children (List.forall_mem_cons.mp h).2
    (Built.look direction positive hchildren).quantified q
  | .backref (.index n) q, _ => (Built.number (mkNumberReference_value n)).quantified q
  | .backref (.name name) q, _ => (Built.name name).quantified q

theorem builtAll_of_isSound : (bs : List Block) → (∀ x ∈ nodesOfAll bs, x.IsSound) →
    ∀ b ∈ bs, b.Built
  | [], _ => List.forall_mem_nil _
  | b :: bs, h => by
    obtain ⟨hb, hbs⟩ := List.forall_mem_append.mp h
    exact List.forall_mem_cons.mpr ⟨built_of_isSound b hb, builtAll_of_isSound bs hbs⟩

theorem builtEach_of_isSound : (branches : List (List Block)) →
    (∀ x ∈ nodesOfBranches branches, x.IsSound) → ∀ branch ∈ branches, ∀ b ∈ branch, b.Built
  | [], _ => List.forall_mem_nil _
  | branch :: branches, h => by
    obtain ⟨hbranch, hbranches⟩ := List.forall_mem_append.mp h
    exact List.forall_mem_cons.mpr
      ⟨builtAll_of_isSound branch hbranch, builtEach_of_isSound branches hbranches⟩

end

theorem built_iff_isSound {bs : List Block} :
    (∀ b ∈ bs, b.Built) ↔ ∀ x ∈ nodesOfAll bs, x.IsSound := by
  refine ⟨fun h x hx => ?_, builtAll_of_isSound bs⟩
  obtain ⟨b, hb, hx⟩ := mem_nodesOfAll.mp hx
  exact (h b hb).isSound x hx

/-! ### The check and the constructors -/

theorem check_eq_ok_iff_capturing {bs : List Block} :
    check bs = .ok () ↔ ∀ (capturing : Bool) name children q,
      .group capturing (some name) children q ∈ nodesOfAll bs → capturing := by
  rw [check_eq_ok_iff]
  constructor
  · intro h capturing name children q hmem
    cases capturing with
    | false => cases h _ hmem
    | true => rfl
  · intro h b hb
    refine Option.eq_none_iff_forall_ne_some.mpr fun name hname => ?_
    obtain ⟨children, q, rfl⟩ := misname?_eq_some_iff.mp hname
    cases h _ _ _ _ hb

/-- Every list that the check accepts comes out of the constructors, unless it holds an alternation
without branches at some depth. The check sees to the names, and numbers of references are
positive in any case. -/
theorem built_iff_check (bs : List Block) :
    (check bs = .ok () ↔ ∀ (capturing : Bool) name children q,
      .group capturing (some name) children q ∈ nodesOfAll bs → capturing) ∧
    (∀ n q, .backref (.index n) q ∈ nodesOfAll bs → 1 ≤ n.value.toNat) ∧
    ((∀ b ∈ bs, b.Built) ↔ check bs = .ok () ∧
      ∀ branches q, .alternation branches q ∈ nodesOfAll bs → branches ≠ []) := by
  refine ⟨check_eq_ok_iff_capturing, ?_, ?_⟩
  · intro n q _
    rw [Nat.one_le_iff_ne_zero]
    exact fun hzero => n.ne_zero (UInt32.toNat_inj.mp hzero)
  · rw [built_iff_isSound, check_eq_ok_iff]
    simp only [isSound_iff]
    constructor
    · intro h
      exact ⟨fun x hx => (h x hx).1, fun branches q hx => (h _ hx).2 branches q rfl⟩
    · rintro ⟨hnames, hbranches⟩ x hx
      refine ⟨hnames x hx, ?_⟩
      rintro branches q rfl
      exact hbranches branches q hx

/-- A list that is read, passes the check and is rendered, but that no constructors make. -/
theorem built_iff_check_withoutBranches :
    (Json.ofText? "[\x7b\"type\":\"alternation\",\"branches\":[]\x7d]").bind ofArray? =
      some [.alternation [] .one] ∧
    check [.alternation [] .one] = .ok () ∧ ¬(alternation [] .one).Built := by
  refine ⟨by decide +kernel, rfl, ?_⟩
  intro h
  exact h.isSound _ List.mem_cons_self rfl

end PatternBlocks.Block
