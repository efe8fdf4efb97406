import Mathlib.Data.List.InsertIdx
import PatternBlocks.Proofs.Replacement

/-!
Changes of the list in which a path ends. The block around the list gets the changed list in the
place of the old one, so that what holds of replacing a block carries over. An insertion and a
removal at the same path take each other back, and besides the blocks behind it in its list
nothing moves.
-/
namespace PatternBlocks

namespace Path

namespace Step

/-- The step into the same list at another position. -/
def moveTo (i : Nat) : Step → Step
  | .child _ => .child i
  | .branch b _ => .branch b i

def next (s : Step) : Step := s.moveTo (s.index + 1)

@[simp] theorem branch?_moveTo (i : Nat) (s : Step) : (s.moveTo i).branch? = s.branch? := by
  cases s <;> rfl

@[simp] theorem index_moveTo (i : Nat) (s : Step) : (s.moveTo i).index = i := by
  cases s <;> rfl

@[simp] theorem moveTo_moveTo (i j : Nat) (s : Step) : (s.moveTo i).moveTo j = s.moveTo j := by
  cases s <;> rfl

@[simp] theorem moveTo_index (s : Step) : s.moveTo s.index = s := by
  cases s <;> rfl

end Step

/-- The second path leads through the list in which the first one ends, by the position of the
first one or by a later one. -/
def Behind (p q : Path) : Prop :=
  ∃ init s t rest, p.steps = init ++ [s] ∧ q.steps = init ++ t :: rest ∧
    t.branch? = s.branch? ∧ s.index ≤ t.index

/-- The path with the step for the last position of `p` one position later. -/
def shift (p q : Path) : Path := ⟨q.steps.modify (p.steps.length - 1) Step.next⟩

theorem shift_append (init : List Step) (s t : Step) (rest : List Step) :
    shift ⟨init ++ [s]⟩ ⟨init ++ t :: rest⟩ = ⟨init ++ t.next :: rest⟩ := by
  simp [shift, List.modify_eq_take_drop]

theorem behind_append_iff {init : List Step} {s t : Step} {rest : List Step} :
    Behind ⟨init ++ [s]⟩ ⟨init ++ t :: rest⟩ ↔ t.branch? = s.branch? ∧ s.index ≤ t.index := by
  constructor
  · rintro ⟨init', s', t', rest', hp, hq, hbehind⟩
    obtain ⟨rfl, hs⟩ := List.append_inj' hp rfl
    obtain ⟨-, ht⟩ := List.append_inj hq rfl
    cases hs
    cases ht
    exact hbehind
  · exact fun hbehind => ⟨init, s, t, rest, rfl, rfl, hbehind⟩

/-- A proper beginning of a path lacks its last step. -/
theorem not_prefix_of_concat {init : List Step} {s : Step} {q : Path}
    (h : ¬(q.steps <+: init ++ [s] ∧ q ≠ ⟨init ++ [s]⟩)) : ¬q.steps <+: init := by
  intro hbefore
  refine h ⟨hbefore.trans (List.prefix_append init [s]), ?_⟩
  rintro rfl
  have hlength := hbefore.length_le
  rw [List.length_append, List.length_singleton] at hlength
  omega

theorem exists_concat {p : Path} (h : p.steps ≠ []) : ∃ init s, p = ⟨init ++ [s]⟩ :=
  ⟨p.steps.dropLast, p.steps.getLast h, by rw [List.dropLast_concat_getLast]⟩

end Path

namespace Block

/-! ### The list in which a path ends -/

/-- The steps `init` lead to `b`, and from there the step `s` leads into the list `seq`. -/
structure EndsIn (bs : List Block) (init : List Path.Step) (s : Path.Step) (b : Block)
    (seq : List Block) : Prop where
  at?_eq : (whole bs).at? init = some b
  inside?_eq : b.inside? s = some (seq, s.index)

section EndsIn

variable {bs cs : List Block} {init rest : List Path.Step} {s t : Path.Step} {b c : Block}
  {seq seq' : List Block}

theorem EndsIn.moveTo (h : EndsIn bs init s b seq) (i : Nat) :
    EndsIn bs init (s.moveTo i) b seq := by
  refine ⟨h.at?_eq, ?_⟩
  rw [inside?_of_branch?_eq (Path.Step.branch?_moveTo i s).symm, h.inside?_eq]
  rfl

theorem EndsIn.get?_eq (h : EndsIn bs init s b seq) (ht : t.branch? = s.branch?)
    (rest : List Path.Step) :
    get? bs ⟨init ++ t :: rest⟩ = seq[t.index]?.bind (·.at? rest) := by
  rw [Block.get?_eq (List.append_ne_nil_of_right_ne_nil init (List.cons_ne_nil t rest)), at?_append,
    h.at?_eq, Option.bind_some, at?, child?, inside?_of_branch?_eq ht.symm, h.inside?_eq]
  rfl

/-- Paths that lead to a block end in a list. -/
theorem exists_endsIn (h : contains bs ⟨init ++ t :: rest⟩) :
    ∃ b seq, EndsIn bs init t b seq := by
  obtain ⟨x, hx⟩ := Option.isSome_iff_exists.mp h
  rw [Block.get?_eq (steps_ne_nil h), at?_append] at hx
  obtain ⟨b, hb, hx⟩ := Option.bind_eq_some_iff.mp hx
  obtain ⟨c, hc, -⟩ := at?_cons_eq_some.mp hx
  obtain ⟨seq, i, hinside, -⟩ := child?_eq_some hc
  obtain rfl := index_of_inside? hinside
  exact ⟨b, seq, hb, hinside⟩

/-- The block around the list gets another list. -/
theorem EndsIn.putAt (h : EndsIn bs init s b seq)
    (hput : whole cs = (whole bs).putAt init (b.setInside seq' s)) :
    EndsIn cs init s (b.setInside seq' s) seq' :=
  ⟨by rw [hput, at?_putAt h.at?_eq], inside?_setInside h.inside?_eq seq'⟩

theorem EndsIn.putAt_back (h : EndsIn bs init s b seq)
    (hput : whole cs = (whole bs).putAt init (b.setInside seq' s)) :
    whole bs = (whole cs).putAt init ((b.setInside seq' s).setInside seq s) := by
  rw [hput, putAt_putAt, setInside_setInside, setInside_inside? h.inside?_eq, putAt_at? h.at?_eq]

/-- Nothing changes for the paths that neither end before the list nor lead through it. -/
theorem EndsIn.get?_of_putAt (h : EndsIn bs init s b seq)
    (hput : whole cs = (whole bs).putAt init (b.setInside seq' s)) {q : Path}
    (hq : ¬q.steps <+: init)
    (hother : ∀ t rest, q.steps = init ++ t :: rest → t.branch? ≠ s.branch?) :
    get? cs q = get? bs q := by
  have hne : q.steps ≠ [] := by
    intro hnil
    exact hq (hnil ▸ List.nil_prefix)
  rw [Block.get?_eq hne, Block.get?_eq hne, hput]
  by_cases hinit : init <+: q.steps
  · obtain ⟨rest, hrest⟩ := hinit
    cases rest with
    | nil => exact absurd (hrest ▸ (List.append_nil init).symm ▸ List.prefix_rfl) hq
    | cons t rest =>
      have ht := hother t rest hrest.symm
      rw [← hrest, at?_append, at?_append, at?_putAt h.at?_eq, h.at?_eq, Option.bind_some,
        Option.bind_some, at?, at?, child?, child?, inside?_setInside_of_ne (Ne.symm ht)]
  · exact at?_putAt_of_diverge ⟨hinit, hq⟩ (whole bs) _

end EndsIn

/-! ### Changing the list -/

/-- The block with a changed list where a step leads into it. -/
def changeInside? (change : List Block → Nat → Option (List Block)) (b : Block) (s : Path.Step) :
    Option Block :=
  (b.inside? s).bind fun place => (change place.1 place.2).map (b.setInside · s)

/-- The block with a changed list where the steps `init` and then the step `s` lead. -/
def changeAt? (change : List Block → Nat → Option (List Block)) (b : Block)
    (init : List Path.Step) (s : Path.Step) : Option Block :=
  (b.at? init).bind fun c => (c.changeInside? change s).map (b.putAt init)

section Change

variable {change : List Block → Nat → Option (List Block)} {bs cs : List Block}
  {init p : List Path.Step} {s t : Path.Step} {b : Block} {seq : List Block} {i : Nat}

theorem changeAt?_nil (b : Block) (s : Path.Step) :
    b.changeAt? change [] s = b.changeInside? change s :=
  congrFun Option.map_id (b.changeInside? change s)

theorem changeAt?_cons (b : Block) (t : Path.Step) (init : List Path.Step) (s : Path.Step) :
    b.changeAt? change (t :: init) s =
      (b.child? t).bind fun c => (c.changeAt? change init s).map (b.setChild t) := by
  cases hc : b.child? t with
  | none => simp [changeAt?, at?, hc]
  | some c =>
    cases hd : c.at? init with
    | none => simp [changeAt?, at?, hc, hd]
    | some d => simp [changeAt?, at?, putAt, hc, hd, Function.comp_def]

theorem changeAt?_eq_none (h : b.inside? t = none) (heq : init ++ [s] = t :: p) :
    b.changeAt? change init s = none := by
  cases init with
  | nil =>
    cases heq
    rw [changeAt?_nil, changeInside?, h]
    rfl
  | cons u init =>
    cases heq
    rw [changeAt?_cons, child?, h]
    rfl

/-- Walking from list to list comes to the same as walking from block to block. -/
theorem map_editFrom? (h : b.inside? t = some (seq, i)) (heq : init ++ [s] = t :: p) :
    (editFrom? change seq i p).map (b.setInside · t) = b.changeAt? change init s := by
  -- The one walk has entered the list behind `t` before the other one takes its first step, so the
  -- induction is on the steps before the last one and `t :: p` is kept as an equation.
  induction init generalizing b t seq i p with
  | nil =>
    cases heq
    rw [editFrom?, changeAt?_nil, changeInside?, h]
    rfl
  | cons u init ih =>
    obtain ⟨rfl, hp⟩ : u = t ∧ init ++ [s] = p := List.cons.inj heq
    obtain ⟨t, p, rfl⟩ := List.exists_cons_of_ne_nil (hp ▸ List.concat_ne_nil s init)
    rw [changeAt?_cons, child?, h, editFrom?, Option.bind_some]
    cases hc : seq[i]? with
    | none => rfl
    | some c =>
      rw [Option.bind_some]
      cases hinside : c.inside? t with
      | none => simp [hinside, changeAt?_eq_none hinside hp]
      | some place =>
        obtain ⟨seq', j⟩ := place
        rw [← ih hinside hp]
        simp [hinside, setChild, h, Function.comp_def]

/-- A change at a path is a change of the list in which the path ends. -/
theorem map_edit? (bs : List Block) (init : List Path.Step) (s : Path.Step) :
    (edit? change bs ⟨init ++ [s]⟩).map whole = (whole bs).changeAt? change init s := by
  obtain ⟨t, p, hp⟩ := List.exists_cons_of_ne_nil (List.concat_ne_nil s init)
  rw [edit?, hp]
  cases t with
  | child i => exact map_editFrom? (b := whole bs) rfl hp
  | branch => exact (changeAt?_eq_none (b := whole bs) rfl hp).symm

theorem steps_ne_nil_of_edit? {p : Path} (h : edit? change bs p = some cs) : p.steps ≠ [] := by
  intro hp
  simp [edit?, hp] at h

theorem changeAt?_eq_some_iff {c : Block} :
    (whole bs).changeAt? change init s = some c ↔
      ∃ b seq seq', EndsIn bs init s b seq ∧ change seq s.index = some seq' ∧
        c = (whole bs).putAt init (b.setInside seq' s) := by
  constructor
  · intro h
    obtain ⟨b, hb, h⟩ := Option.bind_eq_some_iff.mp h
    obtain ⟨d, hd, rfl⟩ := Option.map_eq_some_iff.mp h
    obtain ⟨⟨seq, i⟩, hinside, hd⟩ := Option.bind_eq_some_iff.mp hd
    obtain ⟨seq', hchange, rfl⟩ := Option.map_eq_some_iff.mp hd
    obtain rfl := index_of_inside? hinside
    exact ⟨b, seq, seq', ⟨hb, hinside⟩, hchange, rfl⟩
  · rintro ⟨b, seq, seq', hends, hchange, rfl⟩
    simp [changeAt?, hends.at?_eq, changeInside?, hends.inside?_eq, hchange]

theorem edit?_eq_some_iff :
    edit? change bs ⟨init ++ [s]⟩ = some cs ↔
      ∃ b seq seq', EndsIn bs init s b seq ∧ change seq s.index = some seq' ∧
        whole cs = (whole bs).putAt init (b.setInside seq' s) := by
  rw [← changeAt?_eq_some_iff, ← map_edit?, ← Option.map_some,
    (Option.map_injective fun _ _ => whole_injective).eq_iff]

/-- A change of the list can be made where the list exists. -/
theorem isSome_edit?_iff :
    (edit? change bs ⟨init ++ [s]⟩).isSome ↔
      ∃ b seq, EndsIn bs init s b seq ∧ (change seq s.index).isSome := by
  rw [← Option.isSome_map (f := whole), map_edit?, Option.isSome_iff_exists]
  constructor
  · rintro ⟨c, hc⟩
    obtain ⟨b, seq, seq', hends, hchange, -⟩ := changeAt?_eq_some_iff.mp hc
    exact ⟨b, seq, hends, Option.isSome_of_eq_some hchange⟩
  · rintro ⟨b, seq, hends, hchange⟩
    obtain ⟨seq', hchange⟩ := Option.isSome_iff_exists.mp hchange
    exact ⟨_, changeAt?_eq_some_iff.mpr ⟨b, seq, seq', hends, hchange, rfl⟩⟩

end Change

/-! ### Inserting and removing -/

theorem removeFrom_insertIdx {seq : List Block} {i : Nat} (h : i ≤ seq.length) (x : Block) :
    removeFrom (seq.insertIdx i x) i = some seq := by
  have hlength : i < (seq.insertIdx i x).length := by
    rw [List.length_insertIdx_of_le_length h]
    omega
  rw [removeFrom, if_pos hlength, List.eraseIdx_insertIdx_self]

theorem insertIn_eraseIdx {seq : List Block} {i : Nat} {x : Block} (h : seq[i]? = some x) :
    insertIn x (seq.eraseIdx i) i = some seq := by
  obtain ⟨hi, rfl⟩ := List.getElem?_eq_some_iff.mp h
  have hlength : i ≤ (seq.eraseIdx i).length := by
    rw [List.length_eraseIdx_of_lt hi]
    omega
  rw [insertIn, if_pos hlength, List.insertIdx_eraseIdx_getElem hi]

/-- What paths lead to after an insertion, if they do not end before it. -/
theorem EndsIn.get?_insertIdx {bs cs seq : List Block} {init : List Path.Step} {s : Path.Step}
    {b x : Block} (h : EndsIn bs init s b seq)
    (hput : whole cs = (whole bs).putAt init (b.setInside (seq.insertIdx s.index x) s))
    {q : Path} (hq : ¬q.steps <+: init) :
    (Path.Behind ⟨init ++ [s]⟩ q → get? cs (Path.shift ⟨init ++ [s]⟩ q) = get? bs q) ∧
      (¬Path.Behind ⟨init ++ [s]⟩ q → get? cs q = get? bs q) := by
  have hends := h.putAt hput
  constructor
  · rintro ⟨init', s', t, rest, hp, hsteps, hbranch, hindex⟩
    obtain ⟨rfl, hs⟩ := List.append_inj' hp rfl
    cases hs
    obtain rfl : q = ⟨init ++ t :: rest⟩ := by rw [← hsteps]
    have hlater : s.index < t.index + 1 := by omega
    rw [Path.shift_append, hends.get?_eq (by simp [Path.Step.next, hbranch]), h.get?_eq hbranch,
      Path.Step.next, Path.Step.index_moveTo, List.getElem?_insertIdx_of_gt hlater,
      Nat.add_sub_cancel]
  · intro hbehind
    by_cases hthrough : ∃ t rest, q.steps = init ++ t :: rest ∧ t.branch? = s.branch?
    · obtain ⟨t, rest, hsteps, hbranch⟩ := hthrough
      obtain rfl : q = ⟨init ++ t :: rest⟩ := by rw [← hsteps]
      have hindex : t.index < s.index :=
        Nat.lt_of_not_le fun hindex => hbehind (Path.behind_append_iff.mpr ⟨hbranch, hindex⟩)
      rw [hends.get?_eq hbranch, h.get?_eq hbranch, List.getElem?_insertIdx_of_lt hindex]
    · exact h.get?_of_putAt hput hq fun t rest hsteps hbranch => hthrough ⟨t, rest, hsteps, hbranch⟩

/-- A change of the list that takes another one back also does so at a path. -/
theorem edit?_back {change back : List Block → Nat → Option (List Block)} {bs cs : List Block}
    {init : List Path.Step} {s : Path.Step} (h : edit? change bs ⟨init ++ [s]⟩ = some cs)
    (hback : ∀ b seq seq', EndsIn bs init s b seq → change seq s.index = some seq' →
      back seq' s.index = some seq) :
    edit? back cs ⟨init ++ [s]⟩ = some bs := by
  obtain ⟨b, seq, seq', hends, hchange, hput⟩ := edit?_eq_some_iff.mp h
  exact edit?_eq_some_iff.mpr
    ⟨_, seq', seq, hends.putAt hput, hback b seq seq' hends hchange, hends.putAt_back hput⟩

theorem get_eq_ok_iff {bs : List Block} {p : Path} {b : Block} :
    get bs p = .ok b ↔ p.steps ≠ [] ∧ (whole bs).at? p.steps = some b := by
  rw [get, orNoBlock_eq_ok]
  by_cases hp : p.steps = []
  · simp [get?, hp]
  · simp [get?_eq hp, hp]

theorem get_eq_get {bs cs : List Block} {p q : Path} (h : contains bs q)
    (hget : get? cs p = get? bs q) : get cs p = get bs q := by
  obtain ⟨x, hx⟩ := Option.isSome_iff_exists.mp h
  rw [get, get, hget, hx]
  rfl

theorem insertIn_eq_some_iff {x : Block} {seq seq' : List Block} {i : Nat} :
    insertIn x seq i = some seq' ↔ i ≤ seq.length ∧ seq.insertIdx i x = seq' := by
  simp [insertIn]

theorem removeFrom_eq_some_iff {seq seq' : List Block} {i : Nat} :
    removeFrom seq i = some seq' ↔ i < seq.length ∧ seq.eraseIdx i = seq' := by
  simp [removeFrom]

/-- Inserting takes a removal back. -/
theorem exists_remove {bs : List Block} {p : Path} (h : contains bs p) :
    ∃ cs y, remove bs p = .ok cs ∧ get bs p = .ok y ∧ insert cs p y = .ok bs := by
  obtain ⟨init, s, rfl⟩ := Path.exists_concat (steps_ne_nil h)
  obtain ⟨b, seq, hends⟩ := exists_endsIn h
  obtain ⟨y, hy⟩ := Option.isSome_iff_exists.mp h
  -- For any such list, since the way back finds the list anew.
  have hseq (b seq) (hends : EndsIn bs init s b seq) : seq[s.index]? = some y := by
    rw [hends.get?_eq rfl] at hy
    simpa [at?] using hy
  have hremove : (removeFrom seq s.index).isSome := by
    obtain ⟨hindex, -⟩ := List.getElem?_eq_some_iff.mp (hseq b seq hends)
    simp [removeFrom, hindex]
  obtain ⟨cs, hcs⟩ := Option.isSome_iff_exists.mp (isSome_edit?_iff.mpr ⟨b, seq, hends, hremove⟩)
  refine ⟨cs, y, by rw [remove, hcs]; rfl, by rw [get, hy]; rfl, ?_⟩
  rw [insert, orNoBlock_eq_ok]
  refine edit?_back hcs fun b seq seq' hends hremove => ?_
  obtain ⟨-, rfl⟩ := removeFrom_eq_some_iff.mp hremove
  exact insertIn_eraseIdx (hseq b seq hends)

/-- What has been inserted is found at the path, and removing it takes the insertion back. Paths
that are no proper beginning of this path lead to the same blocks as before; those that lead by its
position or a later one in the same list do so with the position raised by one. The other way
round, inserting takes a removal back. -/
theorem insert_reversible (bs : List Block) (p : Path) (x : Block) :
    (∀ cs, insert bs p x = .ok cs →
      get cs p = .ok x ∧ remove cs p = .ok bs ∧
        ∀ q, contains bs q → ¬(q.steps <+: p.steps ∧ q ≠ p) →
          (p.Behind q → get cs (p.shift q) = get bs q) ∧ (¬p.Behind q → get cs q = get bs q)) ∧
      (contains bs p → ∃ cs y,
        remove bs p = .ok cs ∧ get bs p = .ok y ∧ insert cs p y = .ok bs) := by
  refine ⟨fun cs h => ?_, exists_remove⟩
  rw [insert, orNoBlock_eq_ok] at h
  obtain ⟨init, s, rfl⟩ := Path.exists_concat (steps_ne_nil_of_edit? h)
  obtain ⟨b, seq, seq', hends, hinsert, hput⟩ := edit?_eq_some_iff.mp h
  obtain ⟨hindex, rfl⟩ := insertIn_eq_some_iff.mp hinsert
  refine ⟨?_, ?_, ?_⟩
  · rw [get, (hends.putAt hput).get?_eq rfl, List.getElem?_insertIdx_self, if_pos hindex]
    rfl
  · rw [remove, orNoBlock_eq_ok]
    refine edit?_back h fun b seq seq' _ hinsert => ?_
    obtain ⟨hindex, rfl⟩ := insertIn_eq_some_iff.mp hinsert
    exact removeFrom_insertIdx hindex x
  · intro q hcontains hq
    obtain ⟨hshift, hstay⟩ := hends.get?_insertIdx hput (Path.not_prefix_of_concat hq)
    exact ⟨fun h => get_eq_get hcontains (hshift h), fun h => get_eq_get hcontains (hstay h)⟩

theorem insert_reversible_branches :
    ∃ cs ds x,
      insert choiceAhead ⟨[.child 1, .child 0, .branch 1 0]⟩ (.literal "b" .one) = .ok cs ∧
      get cs ⟨[.child 1, .child 0, .branch 1 1]⟩ = .ok (.shorthand .digit (.oneOrMore true)) ∧
      get cs ⟨[.child 1, .child 0, .branch 0 0]⟩ = .ok (.literal "a" .one) ∧
      remove cs ⟨[.child 1, .child 0, .branch 1 0]⟩ = .ok choiceAhead ∧
      remove choiceAhead ⟨[.child 1]⟩ = .ok ds ∧ get choiceAhead ⟨[.child 1]⟩ = .ok x ∧
      insert ds ⟨[.child 1]⟩ x = .ok choiceAhead := by
  obtain ⟨hinserted, -⟩ := insert_reversible choiceAhead ⟨[.child 1, .child 0, .branch 1 0]⟩
    (.literal "b" .one)
  obtain ⟨-, hremoved⟩ := insert_reversible choiceAhead ⟨[.child 1]⟩ (.literal "b" .one)
  obtain ⟨-, hremove, hpaths⟩ := hinserted _ rfl
  obtain ⟨hshift, -⟩ := hpaths ⟨[.child 1, .child 0, .branch 1 0]⟩ rfl (by simp)
  obtain ⟨-, hstay⟩ := hpaths ⟨[.child 1, .child 0, .branch 0 0]⟩ rfl
    (by simp [List.cons_prefix_cons])
  obtain ⟨ds, x, hds, hx, hback⟩ := hremoved rfl
  have hbehind : Path.Behind ⟨[.child 1, .child 0, .branch 1 0]⟩
      ⟨[.child 1, .child 0, .branch 1 0]⟩ :=
    (@Path.behind_append_iff [.child 1, .child 0] _ _ []).mpr ⟨rfl, Nat.le_refl 0⟩
  have hbeside : ¬Path.Behind ⟨[.child 1, .child 0, .branch 1 0]⟩
      ⟨[.child 1, .child 0, .branch 0 0]⟩ := by
    intro h
    obtain ⟨hbranch, -⟩ := (@Path.behind_append_iff [.child 1, .child 0] _ _ []).mp h
    cases hbranch
  exact ⟨_, ds, x, rfl, hshift hbehind, hstay hbeside, hremove, hds, hx, hback⟩

end Block

end PatternBlocks
