import PatternBlocks.Proofs.DocumentOrder
import PatternBlocks.Proofs.NormalForm
import PatternBlocks.Proofs.Siblings

/-!
The check for groups that have a name without capturing. It reports the first such group in document
order, and an edit that brings in only blocks that pass the check leads from lists that pass to
lists that pass.
-/
namespace PatternBlocks.Block

/-! ### What the check finds -/

/-- A path leads to a group that has a name without capturing. -/
def IsMisnamed (bs : List Block) (p : Path) (name : String) : Prop :=
  ∃ children q, get bs p = .ok (.group false (some name) children q)

theorem misname?_eq_some_iff {b : Block} {name : String} :
    b.misname? = some name ↔ ∃ children q, b = .group false (some name) children q := by
  constructor
  · intro h
    unfold misname? at h
    split at h
    · rw [h]
      exact ⟨_, _, rfl⟩
    · cases h
  · rintro ⟨children, q, rfl⟩
    rfl

theorem isMisnamed_iff {bs : List Block} {p : Path} {name : String} :
    IsMisnamed bs p name ↔ ∃ b, get? bs p = some b ∧ b.misname? = some name := by
  simp only [IsMisnamed, get, orNoBlock_eq_ok, misname?_eq_some_iff]
  constructor
  · rintro ⟨children, q, h⟩
    exact ⟨_, h, children, q, rfl⟩
  · rintro ⟨b, h, children, q, rfl⟩
    exact ⟨children, q, h⟩

theorem check_eq_error_iff {bs : List Block} {e : BlockError} :
    check bs = .error e ↔ ∃ name, (nodesOfAll bs).findSome? misname? = some name ∧
      e = .nameWithoutCapture name := by
  rw [check, misnamedInAll?_eq]
  cases (nodesOfAll bs).findSome? misname? <;> simp [eq_comm]

theorem check_eq_ok_iff {bs : List Block} :
    check bs = .ok () ↔ ∀ b ∈ nodesOfAll bs, b.misname? = none := by
  refine ⟨fun h => ?_, check_eq_ok⟩
  rw [check, misnamedInAll?_eq] at h
  rw [← List.findSome?_eq_none_iff]
  split at h
  · cases h
  next hnone => exact hnone

/-! ### Lists that pass -/

/-- No block at any depth has a name without capturing. -/
def WellNamed (b : Block) : Prop := ∀ x ∈ b.nodes, x.misname? = none

theorem check_eq_ok_iff_wellNamed {bs : List Block} :
    check bs = .ok () ↔ ∀ b ∈ bs, b.WellNamed := by
  simp only [check_eq_ok_iff, mem_nodesOfAll, WellNamed]
  grind

section WellNamed

variable {b c x : Block} {bs cs seq : List Block} {s : Path.Step} {p : List Path.Step} {i : Nat}

theorem wellNamed_whole : (whole bs).WellNamed ↔ check bs = .ok () := by
  rw [check_eq_ok_iff]
  simp [WellNamed, whole, nodes, misname?]

theorem misname?_setInside (bs : List Block) (b : Block) (s : Path.Step) :
    (b.setInside bs s).misname? = b.misname? := by
  cases b with
  | group capturing name children q => cases capturing <;> cases s <;> rfl
  | _ => cases s <;> rfl

theorem WellNamed.inside (h : b.WellNamed) (hinside : b.inside? s = some (seq, i)) :
    check seq = .ok () := by
  rw [check_eq_ok_iff]
  intro x hx
  apply h x
  unfold inside? at hinside
  split at hinside
  · cases hinside
    exact List.mem_cons_of_mem _ hx
  · cases hinside
    exact List.mem_cons_of_mem _ hx
  · obtain ⟨branch, hbranch, heq⟩ := Option.map_eq_some_iff.mp hinside
    cases heq
    exact List.mem_cons_of_mem _
      (mem_nodesOfBranches.mpr ⟨seq, List.mem_of_getElem? hbranch, hx⟩)
  · cases hinside

theorem mem_nodes_setInside (hx : x ∈ (b.setInside seq s).nodes) :
    x = b.setInside seq s ∨ x ∈ nodesOfAll seq ∨ x ∈ b.nodes := by
  unfold setInside at hx ⊢
  split at hx
  · exact (List.mem_cons.mp hx).imp_right .inl
  · exact (List.mem_cons.mp hx).imp_right .inl
  next branches q k i =>
    refine (List.mem_cons.mp hx).imp_right fun hinside => ?_
    obtain ⟨branch, hbranch, hmem⟩ := mem_nodesOfBranches.mp hinside
    rcases List.mem_or_eq_of_mem_set hbranch with hbranch | rfl
    · exact .inr (List.mem_cons_of_mem _ (mem_nodesOfBranches.mpr ⟨branch, hbranch, hmem⟩))
    · exact .inl hmem
  · exact .inr (.inr hx)

theorem WellNamed.setInside (h : b.WellNamed) (hseq : check seq = .ok ()) :
    (b.setInside seq s).WellNamed := by
  intro x hx
  rcases mem_nodes_setInside hx with rfl | hx | hx
  · rw [misname?_setInside]
    exact h b (Grammar.mem_nodes_self b)
  · exact check_eq_ok_iff.mp hseq x hx
  · exact h x hx

theorem WellNamed.at? (h : b.WellNamed) (hat : b.at? p = some c) : c.WellNamed := by
  induction p generalizing b with
  | nil =>
    cases hat
    exact h
  | cons s p ih =>
    obtain ⟨d, hd, hat⟩ := at?_cons_eq_some.mp hat
    obtain ⟨seq, i, hinside, hseq⟩ := child?_eq_some hd
    have hcheck := check_eq_ok_iff_wellNamed.mp (h.inside hinside)
    exact ih (hcheck d (List.mem_of_getElem? hseq)) hat

theorem WellNamed.putAt (h : b.WellNamed) (hx : x.WellNamed) : (b.putAt p x).WellNamed := by
  induction p generalizing b with
  | nil => exact hx
  | cons s p ih =>
    rw [Block.putAt]
    cases hc : b.child? s with
    | none => exact h
    | some c =>
      obtain ⟨seq, i, hinside, hseq⟩ := child?_eq_some hc
      have hcheck := check_eq_ok_iff_wellNamed.mp (h.inside hinside)
      have hput := ih (hcheck c (List.mem_of_getElem? hseq))
      simp only [setChild, hinside]
      refine h.setInside (check_eq_ok_iff_wellNamed.mpr fun d hd => ?_)
      rcases List.mem_or_eq_of_mem_set hd with hd | rfl
      · exact hcheck d hd
      · exact hput

theorem misname?_setQuant (b : Block) (q : Quantifier) : (b.setQuant q).misname? = b.misname? := by
  cases b with
  | group capturing name children q' => cases capturing <;> rfl
  | _ => rfl

theorem mem_nodes_setQuant {q : Quantifier} (h : x ∈ (b.setQuant q).nodes) :
    x = b.setQuant q ∨ x ∈ b.nodes := by
  cases b <;> simp only [setQuant, nodes, List.mem_cons, List.not_mem_nil, or_false] at h ⊢ <;>
    tauto

theorem WellNamed.setQuant (h : b.WellNamed) (q : Quantifier) : (b.setQuant q).WellNamed := by
  intro x hx
  rcases mem_nodes_setQuant hx with rfl | hx
  · rw [misname?_setQuant]
    exact h b (Grammar.mem_nodes_self b)
  · exact h x hx

/-! ### Edits -/

/-- A change of a list that keeps it passing keeps the whole pattern passing. -/
theorem check_of_edit? {change : List Block → Nat → Option (List Block)} {p : Path}
    (hchange : ∀ seq seq' i, (∀ b ∈ seq, b.WellNamed) → change seq i = some seq' →
      ∀ b ∈ seq', b.WellNamed)
    (h : check bs = .ok ()) (hedit : edit? change bs p = some cs) : check cs = .ok () := by
  obtain ⟨init, s, rfl⟩ := Path.exists_concat (steps_ne_nil_of_edit? hedit)
  obtain ⟨b, seq, seq', hends, hseq', hput⟩ := edit?_eq_some_iff.mp hedit
  -- Down to the block around the list, over the change, and up again.
  have hb : b.WellNamed := (wellNamed_whole.mpr h).at? hends.at?_eq
  have hseq := check_eq_ok_iff_wellNamed.mp (hb.inside hends.inside?_eq)
  have hnew := check_eq_ok_iff_wellNamed.mpr (hchange seq seq' s.index hseq hseq')
  rw [← wellNamed_whole, hput]
  exact (wellNamed_whole.mpr h).putAt (hb.setInside hnew)

theorem check_of_replace {p : Path} (h : check bs = .ok ()) (hx : x.WellNamed)
    (hreplace : replace bs p x = .ok cs) : check cs = .ok () := by
  refine check_of_edit? ?_ h (orNoBlock_eq_ok.mp hreplace)
  intro seq seq' i hseq hseq' b hb
  obtain ⟨-, rfl⟩ : i < seq.length ∧ seq.set i x = seq' := by simpa [replaceIn] using hseq'
  rcases List.mem_or_eq_of_mem_set hb with hb | rfl
  · exact hseq b hb
  · exact hx

theorem check_of_insert {p : Path} (h : check bs = .ok ()) (hx : x.WellNamed)
    (hinsert : insert bs p x = .ok cs) : check cs = .ok () := by
  refine check_of_edit? ?_ h (orNoBlock_eq_ok.mp hinsert)
  intro seq seq' i hseq hseq' b hb
  obtain ⟨-, rfl⟩ := insertIn_eq_some_iff.mp hseq'
  rcases List.eq_or_mem_of_mem_insertIdx hb with rfl | hb
  · exact hx
  · exact hseq b hb

theorem check_of_remove {p : Path} (h : check bs = .ok ()) (hremove : remove bs p = .ok cs) :
    check cs = .ok () := by
  refine check_of_edit? ?_ h (orNoBlock_eq_ok.mp hremove)
  intro seq seq' i hseq hseq' b hb
  obtain ⟨-, rfl⟩ := removeFrom_eq_some_iff.mp hseq'
  exact hseq b (List.mem_of_mem_eraseIdx hb)

theorem check_of_requantify {p : Path} {q : Quantifier} (h : check bs = .ok ())
    (hrequantify : requantify bs p q = .ok cs) : check cs = .ok () := by
  unfold requantify at hrequantify
  split at hrequantify
  next => cases hrequantify
  next b hget =>
    obtain ⟨-, hat⟩ := get_eq_ok_iff.mp hget
    exact check_of_replace h (((wellNamed_whole.mpr h).at? hat).setQuant q) hrequantify

end WellNamed

/-- The block that an edit brings in. -/
def Edit.block? : Edit → Option Block
  | .replace _ b | .insert _ b => some b
  | .remove _ | .requantify .. => none

theorem check_of_apply {bs cs : List Block} {e : Edit} (h : check bs = .ok ())
    (hblock : ∀ x, e.block? = some x → check [x] = .ok ()) (happly : e.apply bs = .ok cs) :
    check cs = .ok () := by
  have hx {x : Block} (hx : e.block? = some x) : x.WellNamed :=
    check_eq_ok_iff_wellNamed.mp (hblock x hx) x List.mem_cons_self
  cases e with
  | replace p x => exact check_of_replace h (hx rfl) happly
  | insert p x => exact check_of_insert h (hx rfl) happly
  | remove p => exact check_of_remove h happly
  | requantify p q => exact check_of_requantify h happly

theorem check_of_applyOrKeep {bs : List Block} {e : Edit} (h : check bs = .ok ())
    (hblock : ∀ x, e.block? = some x → check [x] = .ok ()) :
    check (e.applyOrKeep bs) = .ok () := by
  unfold Edit.applyOrKeep
  split
  · exact h
  next happly => exact check_of_apply h hblock happly

theorem check_of_mem_scanl {bs : List Block} {edits : List Edit} (h : check bs = .ok ())
    (hblocks : ∀ e ∈ edits, ∀ x, e.block? = some x → check [x] = .ok ()) :
    ∀ cs ∈ edits.scanl Edit.applyOrKeep bs, check cs = .ok () := by
  induction edits generalizing bs with
  | nil => simpa using h
  | cons e edits ih =>
    obtain ⟨hblock, hblocks⟩ := List.forall_mem_cons.mp hblocks
    rw [List.scanl_cons]
    exact List.forall_mem_cons.mpr ⟨h, ih (check_of_applyOrKeep h hblock) hblocks⟩

/-- The check fails if and only if a path leads to a group that has a name without capturing, and
it reports the first one in document order. Edits that bring in only blocks that pass the check,
made one after the other, lead from a list that passes to lists that pass. -/
theorem check_finds_first (bs : List Block) :
    ((∃ e, check bs = .error e) ↔ ∃ p name, IsMisnamed bs p name) ∧
    (∀ e, check bs = .error e → ∃ p name, IsMisnamed bs p name ∧
      e = .nameWithoutCapture name ∧ ∀ q other, IsMisnamed bs q other → q = p ∨ p.Before q) ∧
    (check bs = .ok () → ∀ edits : List Edit,
      (∀ e ∈ edits, ∀ x, e.block? = some x → check [x] = .ok ()) →
        ∀ cs ∈ edits.scanl Edit.applyOrKeep bs, check cs = .ok ()) := by
  have hfirst (e) (h : check bs = .error e) : ∃ p name, IsMisnamed bs p name ∧
      e = .nameWithoutCapture name ∧ ∀ q other, IsMisnamed bs q other → q = p ∨ p.Before q := by
    obtain ⟨name, hname, rfl⟩ := check_eq_error_iff.mp h
    obtain ⟨p, b, hb, hmisname, hfirst⟩ := exists_first hname
    refine ⟨p, name, isMisnamed_iff.mpr ⟨b, hb, hmisname⟩, rfl, ?_⟩
    intro q other hother
    obtain ⟨c, hc, hmisname⟩ := isMisnamed_iff.mp hother
    exact hfirst q c hc (Option.isSome_of_eq_some hmisname)
  refine ⟨⟨?_, ?_⟩, hfirst, fun h _ hblocks => check_of_mem_scanl h hblocks⟩
  · rintro ⟨e, h⟩
    obtain ⟨p, name, hp, -⟩ := hfirst e h
    exact ⟨p, name, hp⟩
  · rintro ⟨p, name, hp⟩
    obtain ⟨b, hb, hmisname⟩ := isMisnamed_iff.mp hp
    cases hcheck : check bs with
    | error e => exact ⟨e, rfl⟩
    | ok u =>
      have hnone := check_eq_ok_iff.mp hcheck b (mem_nodesOfAll_iff.mpr ⟨p, hb⟩)
      rw [hmisname] at hnone
      cases hnone

/-- Misnamed groups inside a lookaround, behind it, and inside the one behind it. -/
def misnamedThrice : List Block :=
  [.look .ahead true [.group false (some "a") [] .one] .one,
    .group false (some "b") [.group false (some "c") [] .one] .one]

theorem check_finds_first_misnamedThrice :
    (∃ p, IsMisnamed misnamedThrice p "a" ∧
      ∀ q other, IsMisnamed misnamedThrice q other → q = p ∨ p.Before q) ∧
    ∀ cs ∈ [Edit.insert ⟨[.child 1, .child 0, .branch 1 1]⟩ (.group true (some "n") [] .one),
        .replace ⟨[.child 9]⟩ (.anchor .stop), .remove ⟨[.child 0]⟩].scanl
          Edit.applyOrKeep choiceAhead, check cs = .ok () := by
  obtain ⟨-, hfirst, -⟩ := check_finds_first misnamedThrice
  obtain ⟨-, -, hedits⟩ := check_finds_first choiceAhead
  constructor
  · obtain ⟨p, name, hp, hname, hbefore⟩ := hfirst (.nameWithoutCapture "a") rfl
    cases hname
    exact ⟨p, hp, hbefore⟩
  · apply hedits rfl
    simp [Edit.block?, check, misnamedInAll?, misnamed?]

end PatternBlocks.Block
