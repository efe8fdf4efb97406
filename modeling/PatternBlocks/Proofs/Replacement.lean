import PatternBlocks.Block.Edit

/-!
Replacing the block at a path. A step leads from a block to a block inside it, and the outermost
list is taken as the inside of a group, so that looking up and replacing walk from block to block.
What was replaced is what is found at the path; whatever stands beside the path stays as it was.
-/
namespace PatternBlocks

/-- Neither path leads on from the other. -/
def Path.Diverge (p q : List Path.Step) : Prop := ¬p <+: q ∧ ¬q <+: p

theorem Path.not_diverge_nil (p : List Path.Step) : ¬Diverge [] p :=
  fun h => h.1 List.nil_prefix

theorem Path.Diverge.symm {p q : List Path.Step} (h : Diverge p q) : Diverge q p :=
  ⟨h.2, h.1⟩

/-- Diverging paths part at their first step or behind it. -/
theorem Path.diverge_cons {s t : Path.Step} {p q : List Path.Step} :
    Diverge (s :: p) (t :: q) ↔ (s = t → Diverge p q) := by
  simp only [Diverge, List.cons_prefix_cons]
  constructor
  · rintro ⟨hpq, hqp⟩ rfl
    exact ⟨fun h => hpq ⟨rfl, h⟩, fun h => hqp ⟨rfl, h⟩⟩
  · intro h
    constructor
    · rintro ⟨rfl, hpq⟩
      exact (h rfl).1 hpq
    · rintro ⟨rfl, hqp⟩
      exact (h rfl).2 hqp

/-- The branch that a step leads into; the inside of a group or a lookaround is no branch. -/
def Path.Step.branch? : Path.Step → Option Nat
  | .child _ => none
  | .branch b _ => some b

def Path.Step.index : Path.Step → Nat
  | .child i | .branch _ i => i

theorem Path.Step.index_ne {s t : Path.Step} (h : s ≠ t) (hbranch : s.branch? = t.branch?) :
    s.index ≠ t.index := by
  cases s <;> cases t <;> simp_all [branch?, index]

namespace Block

/-! ### The list that a step leads into -/

section Inside

variable {b : Block} {s t : Path.Step} {bs : List Block} {i : Nat}

theorem inside?_setInside (h : b.inside? s = some (bs, i)) (cs : List Block) :
    (b.setInside cs s).inside? s = some (cs, i) := by
  unfold inside? at h
  split at h
  · cases h
    rfl
  · cases h
    rfl
  next branches q k j =>
    obtain ⟨branch, hbranch, heq⟩ := Option.map_eq_some_iff.mp h
    cases heq
    obtain ⟨hk, -⟩ := List.getElem?_eq_some_iff.mp hbranch
    simp [setInside, inside?, hk]
  · cases h

theorem setInside_inside? (h : b.inside? s = some (bs, i)) : b.setInside bs s = b := by
  unfold inside? at h
  split at h
  · cases h
    rfl
  · cases h
    rfl
  next branches q k j =>
    obtain ⟨branch, hbranch, heq⟩ := Option.map_eq_some_iff.mp h
    cases heq
    obtain ⟨hk, rfl⟩ := List.getElem?_eq_some_iff.mp hbranch
    simp [setInside]
  · cases h

theorem setInside_setInside (b : Block) (s : Path.Step) (bs cs : List Block) :
    (b.setInside bs s).setInside cs s = b.setInside cs s := by
  cases b <;> cases s <;> simp [setInside]

/-- Steps into the same list differ in the position only. -/
theorem inside?_of_branch?_eq (h : s.branch? = t.branch?) (b : Block) :
    b.inside? t = (b.inside? s).map fun place => (place.1, t.index) := by
  cases s <;> cases t <;> simp only [Path.Step.branch?, reduceCtorEq, Option.some.injEq] at h
  · cases b <;> rfl
  · subst h
    cases b <;> simp [inside?, Path.Step.index, Function.comp_def]

theorem index_of_inside? (h : b.inside? s = some (bs, i)) : i = s.index := by
  have hself := inside?_of_branch?_eq rfl b (t := s)
  rw [h] at hself
  cases hself
  rfl

theorem setInside_of_branch?_eq (h : s.branch? = t.branch?) (b : Block) (bs : List Block) :
    b.setInside bs s = b.setInside bs t := by
  cases s <;> cases t <;> simp only [Path.Step.branch?, reduceCtorEq, Option.some.injEq] at h
  · cases b <;> rfl
  · subst h
    cases b <;> rfl

theorem inside?_setInside_of_ne (h : s.branch? ≠ t.branch?) (b : Block) (bs : List Block) :
    (b.setInside bs s).inside? t = b.inside? t := by
  cases b <;> cases s <;> cases t <;> simp_all [Path.Step.branch?, inside?, setInside]

theorem setInside_comm (h : s.branch? ≠ t.branch?) (b : Block) (bs cs : List Block) :
    (b.setInside bs s).setInside cs t = (b.setInside cs t).setInside bs s := by
  cases s <;> cases t <;> simp only [Path.Step.branch?, ne_eq, reduceCtorEq, not_true_eq_false,
    not_false_eq_true, Option.some.injEq] at h
  · cases b <;> rfl
  · cases b <;> rfl
  · cases b with
    | alternation branches q => simp only [setInside, List.set_comm _ _ h]
    | _ => rfl

end Inside

/-! ### The block that a step leads to -/

def child? (b : Block) (step : Path.Step) : Option Block :=
  (b.inside? step).bind fun place => place.1[place.2]?

/-- The block with another one where a step leads to. -/
def setChild (b : Block) (step : Path.Step) (x : Block) : Block :=
  match b.inside? step with
  | none => b
  | some (bs, i) => b.setInside (bs.set i x) step

theorem child?_eq_some {b c : Block} {step : Path.Step} (h : b.child? step = some c) :
    ∃ bs i, b.inside? step = some (bs, i) ∧ bs[i]? = some c := by
  obtain ⟨⟨bs, i⟩, hinside, hc⟩ := Option.bind_eq_some_iff.mp h
  exact ⟨bs, i, hinside, hc⟩

theorem child?_setChild {b c : Block} {step : Path.Step} (h : b.child? step = some c)
    (x : Block) : (b.setChild step x).child? step = some x := by
  obtain ⟨bs, i, hinside, hc⟩ := child?_eq_some h
  obtain ⟨hi, -⟩ := List.getElem?_eq_some_iff.mp hc
  simp [setChild, hinside, child?, inside?_setInside hinside, hi]

theorem setChild_child? {b c : Block} {step : Path.Step} (h : b.child? step = some c) :
    b.setChild step c = b := by
  obtain ⟨bs, i, hinside, hc⟩ := child?_eq_some h
  obtain ⟨hi, rfl⟩ := List.getElem?_eq_some_iff.mp hc
  simp [setChild, hinside, setInside_inside? hinside]

theorem setChild_setChild {b c : Block} {step : Path.Step} (h : b.child? step = some c)
    (x y : Block) : (b.setChild step x).setChild step y = b.setChild step y := by
  obtain ⟨bs, i, hinside, -⟩ := child?_eq_some h
  simp [setChild, hinside, inside?_setInside hinside, setInside_setInside]

/-- What a step leads to does not depend on what another one leads to. -/
theorem child?_setChild_of_ne {s t : Path.Step} (h : s ≠ t) (b x : Block) :
    (b.setChild s x).child? t = b.child? t := by
  by_cases hbranch : s.branch? = t.branch?
  · have hindex := Path.Step.index_ne h hbranch
    cases hs : b.inside? s with
    | none => simp [setChild, hs]
    | some place =>
      obtain ⟨bs, i⟩ := place
      obtain rfl := index_of_inside? hs
      simp [setChild, hs, child?, inside?_of_branch?_eq hbranch, inside?_setInside hs, hindex]
  · cases hs : b.inside? s with
    | none => simp [setChild, hs]
    | some place => simp only [setChild, hs, child?, inside?_setInside_of_ne hbranch]

theorem setChild_comm {s t : Path.Step} (h : s ≠ t) (b x y : Block) :
    (b.setChild s x).setChild t y = (b.setChild t y).setChild s x := by
  by_cases hbranch : s.branch? = t.branch?
  · have hindex := Path.Step.index_ne h hbranch
    have ht := inside?_of_branch?_eq hbranch b
    cases hs : b.inside? s with
    | none => simp [setChild, hs, ht]
    | some place =>
      obtain ⟨bs, i⟩ := place
      obtain rfl := index_of_inside? hs
      rw [hs] at ht
      simp [setChild, hs, ht, inside?_of_branch?_eq hbranch, inside?_setInside hs,
        ← setInside_of_branch?_eq hbranch, setInside_setInside, List.set_comm _ _ hindex]
  · have hs := inside?_setInside_of_ne hbranch b
    have ht := inside?_setInside_of_ne (Ne.symm hbranch) b
    cases hs' : b.inside? s <;> cases ht' : b.inside? t <;>
      simp [setChild, hs, ht, hs', ht', setInside_comm hbranch]

/-! ### Walks from block to block -/

/-- The block that steps lead to. -/
def at? : Block → List Path.Step → Option Block
  | b, [] => some b
  | b, s :: p => (b.child? s).bind (·.at? p)

/-- The block with another one where steps lead to, if they lead anywhere. -/
def putAt : Block → List Path.Step → Block → Block
  | _, [], x => x
  | b, s :: p, x =>
    match b.child? s with
    | none => b
    | some c => b.setChild s (c.putAt p x)

section Walk

variable {b c : Block} {p q : List Path.Step}

theorem at?_cons_eq_some {s : Path.Step} :
    b.at? (s :: p) = some c ↔ ∃ d, b.child? s = some d ∧ d.at? p = some c :=
  Option.bind_eq_some_iff

theorem at?_append (b : Block) (p q : List Path.Step) :
    b.at? (p ++ q) = (b.at? p).bind (·.at? q) := by
  induction p generalizing b with
  | nil => rfl
  | cons s p ih =>
    rw [List.cons_append, at?, at?]
    cases b.child? s with
    | none => rfl
    | some d => exact ih d

theorem at?_putAt (h : b.at? p = some c) (x : Block) : (b.putAt p x).at? p = some x := by
  induction p generalizing b with
  | nil => rfl
  | cons s p ih =>
    obtain ⟨d, hd, hc⟩ := at?_cons_eq_some.mp h
    simp only [putAt, hd, at?, child?_setChild hd, Option.bind_some]
    exact ih hc

theorem putAt_at? (h : b.at? p = some c) : b.putAt p c = b := by
  induction p generalizing b with
  | nil => exact (Option.some.inj h).symm
  | cons s p ih =>
    obtain ⟨d, hd, hc⟩ := at?_cons_eq_some.mp h
    simp only [putAt, hd, ih hc, setChild_child? hd]

theorem putAt_putAt (b : Block) (p : List Path.Step) (x y : Block) :
    (b.putAt p x).putAt p y = b.putAt p y := by
  induction p generalizing b with
  | nil => rfl
  | cons s p ih =>
    cases hd : b.child? s with
    | none => simp only [putAt, hd]
    | some d => simp only [putAt, hd, child?_setChild hd, ih, setChild_setChild hd]

/-- Steps lead to the same block after a change where they do not lead. -/
theorem at?_putAt_of_diverge (h : Path.Diverge p q) (b x : Block) :
    (b.putAt p x).at? q = b.at? q := by
  induction p generalizing b q with
  | nil => exact absurd h (Path.not_diverge_nil q)
  | cons s p ih =>
    cases q with
    | nil => exact absurd h.symm (Path.not_diverge_nil _)
    | cons t q =>
      cases hd : b.child? s with
      | none => simp only [putAt, hd]
      | some d =>
        simp only [putAt, hd, at?]
        by_cases hst : s = t
        · subst hst
          have hpq : Path.Diverge p q := Path.diverge_cons.mp h rfl
          simp only [child?_setChild hd, hd, Option.bind_some, ih hpq]
        · rw [child?_setChild_of_ne hst]

/-- Changes where paths diverge may be made in either order. -/
theorem putAt_comm (h : Path.Diverge p q) (b x y : Block) :
    (b.putAt p x).putAt q y = (b.putAt q y).putAt p x := by
  induction p generalizing b q with
  | nil => exact absurd h (Path.not_diverge_nil q)
  | cons s p ih =>
    cases q with
    | nil => exact absurd h.symm (Path.not_diverge_nil _)
    | cons t q =>
      by_cases hst : s = t
      · subst hst
        have hpq : Path.Diverge p q := Path.diverge_cons.mp h rfl
        cases hd : b.child? s with
        | none => simp only [putAt, hd]
        | some d => simp only [putAt, hd, child?_setChild hd, setChild_setChild hd, ih hpq]
      · cases hs : b.child? s <;> cases ht : b.child? t <;>
          simp only [putAt, hs, ht, child?_setChild_of_ne hst,
            child?_setChild_of_ne (Ne.symm hst), setChild_comm hst]

end Walk

/-! ### Lists of blocks -/

/-- The outermost list as the inside of a block. -/
def whole (bs : List Block) : Block := .group false none bs .one

theorem whole_injective {bs cs : List Block} (h : whole bs = whole cs) : bs = cs := by
  cases h
  rfl

theorem getFrom?_eq (bs : List Block) (i : Nat) (p : List Path.Step) :
    getFrom? bs i p = bs[i]?.bind (·.at? p) := by
  induction p generalizing bs i with
  | nil => cases h : bs[i]? <;> simp [getFrom?, at?, h]
  | cons s p ih =>
    rw [getFrom?]
    cases h : bs[i]? with
    | none => rfl
    | some b =>
      cases hs : b.inside? s with
      | none => simp [hs, at?, child?]
      | some place => simp [hs, at?, child?, ih]

theorem editFrom?_replaceIn (x : Block) (bs : List Block) (i : Nat) (p : List Path.Step) :
    editFrom? (replaceIn x) bs i p =
      bs[i]?.bind fun b => (b.at? p).map fun _ => bs.set i (b.putAt p x) := by
  induction p generalizing bs i with
  | nil =>
    by_cases hi : i < bs.length <;> simp [editFrom?, replaceIn, hi, at?, putAt]
  | cons s p ih =>
    rw [editFrom?]
    cases h : bs[i]? with
    | none => rfl
    | some b =>
      cases hs : b.inside? s with
      | none => simp [hs, at?, child?]
      | some place =>
        obtain ⟨cs, j⟩ := place
        cases hj : cs[j]? with
        | none => simp [hs, at?, child?, ih, hj]
        | some c => cases hc : c.at? p <;> simp [hs, at?, child?, ih, hj, hc, putAt, setChild]

theorem get?_eq {p : Path} (h : p.steps ≠ []) (bs : List Block) :
    get? bs p = (whole bs).at? p.steps := by
  unfold get?
  cases hp : p.steps with
  | nil => exact absurd hp h
  | cons s steps =>
    cases s with
    | child i => exact getFrom?_eq bs i steps
    | branch => rfl

theorem steps_ne_nil {bs : List Block} {p : Path} (h : contains bs p) : p.steps ≠ [] := by
  intro hp
  simp [contains, get?, hp] at h

theorem orNoBlock_eq_ok {α : Type} {p : Path} {found : Option α} {a : α} :
    orNoBlock p found = .ok a ↔ found = some a := by
  cases found <;> simp [orNoBlock]

/-- Replacing succeeds on the paths that lead to a block, and changes the block there. -/
theorem replace_eq_ok_iff {bs cs : List Block} {p : Path} {x : Block} :
    replace bs p x = .ok cs ↔ contains bs p ∧ whole cs = (whole bs).putAt p.steps x := by
  rw [replace, orNoBlock_eq_ok, contains, edit?, get?]
  cases p.steps with
  | nil => simp
  | cons s steps =>
    cases s with
    | branch => simp
    | child i =>
      have hchild : (whole bs).child? (.child i) = bs[i]? := rfl
      simp only [editFrom?_replaceIn, getFrom?_eq, putAt, hchild]
      cases bs[i]? with
      | none => simp
      | some b =>
        have hput (d : Block) : (whole bs).setChild (.child i) d = whole (bs.set i d) := rfl
        cases hat : b.at? steps with
        | none => simp [hat]
        | some c =>
          simp only [Option.bind_some, hat, Option.map_some, Option.some.injEq, Option.isSome_some,
            true_and, hput]
          exact ⟨fun h => h ▸ rfl, fun h => (whole_injective h).symm⟩

theorem exists_replace {bs : List Block} {p : Path} (h : contains bs p) (x : Block) :
    ∃ cs, replace bs p x = .ok cs ∧ whole cs = (whole bs).putAt p.steps x := by
  have hput : ∃ cs, whole cs = (whole bs).putAt p.steps x := by
    cases hp : p.steps with
    | nil => exact absurd hp (steps_ne_nil h)
    | cons s steps =>
      rw [putAt]
      cases (whole bs).child? s with
      | none => exact ⟨bs, rfl⟩
      | some d =>
        cases s with
        | branch => exact ⟨bs, rfl⟩
        | child i => exact ⟨bs.set i (d.putAt steps x), rfl⟩
  obtain ⟨cs, hcs⟩ := hput
  exact ⟨cs, replace_eq_ok_iff.mpr ⟨h, hcs⟩, hcs⟩

section Replaced

variable {bs cs : List Block} {p q : Path} {x : Block}

theorem get?_append_of_replace (h : replace bs p x = .ok cs) (steps : List Path.Step) :
    get? cs ⟨p.steps ++ steps⟩ = x.at? steps := by
  obtain ⟨hcontains, hput⟩ := replace_eq_ok_iff.mp h
  have hne := steps_ne_nil hcontains
  obtain ⟨b, hb⟩ := Option.isSome_iff_exists.mp hcontains
  rw [get?_eq hne] at hb
  rw [get?_eq (List.append_ne_nil_of_left_ne_nil hne steps), at?_append, hput, at?_putAt hb,
    Option.bind_some]

theorem get?_of_replace (h : replace bs p x = .ok cs) : get? cs p = some x := by
  have hself := get?_append_of_replace h []
  rwa [List.append_nil] at hself

theorem get?_of_diverge (h : replace bs p x = .ok cs) (hpq : Path.Diverge p.steps q.steps) :
    get? cs q = get? bs q := by
  obtain ⟨-, hput⟩ := replace_eq_ok_iff.mp h
  have hq : q.steps ≠ [] := by
    intro hq
    rw [hq] at hpq
    exact Path.not_diverge_nil _ hpq.symm
  rw [get?_eq hq, get?_eq hq, hput, at?_putAt_of_diverge hpq]

/-- Of two blocks written at one path the last one counts. -/
theorem replace_of_replace (h : replace bs p x = .ok cs) (y : Block) :
    replace cs p y = replace bs p y := by
  obtain ⟨hcontains, hput⟩ := replace_eq_ok_iff.mp h
  obtain ⟨ds, hds, hwhole⟩ := exists_replace hcontains y
  rw [hds, replace_eq_ok_iff, hput, putAt_putAt]
  exact ⟨by simp [contains, get?_of_replace h], hwhole⟩

theorem exists_replace_comm (h : replace bs p x = .ok cs) (hpq : Path.Diverge p.steps q.steps)
    (hq : contains bs q) (y : Block) :
    ∃ ds es, replace bs q y = .ok ds ∧ replace ds p x = .ok es ∧ replace cs q y = .ok es := by
  obtain ⟨hp, hput⟩ := replace_eq_ok_iff.mp h
  obtain ⟨ds, hds, hdput⟩ := exists_replace hq y
  have hdp : contains ds p := by rwa [contains, get?_of_diverge hds hpq.symm]
  have hcq : contains cs q := by rwa [contains, get?_of_diverge h hpq]
  obtain ⟨es, hes, heput⟩ := exists_replace hdp x
  refine ⟨ds, es, hds, hes, replace_eq_ok_iff.mpr ⟨hcq, ?_⟩⟩
  rw [heput, hdput, hput, putAt_comm hpq]

theorem replace_self {b : Block} (h : get? bs p = some b) : replace bs p b = .ok bs := by
  have hcontains : contains bs p := by simp [contains, h]
  rw [get?_eq (steps_ne_nil hcontains)] at h
  exact replace_eq_ok_iff.mpr ⟨hcontains, (putAt_at? h).symm⟩

end Replaced

/-- Where a path leads to a block, replacing is a lens: what is written is read, writing what is
read changes nothing, and the last of two writings counts. Further steps lead on inside what was
written. On diverging paths nothing changes, and writings there may come first. -/
theorem replace_lawful {bs : List Block} {p : Path} (h : contains bs p) (x y : Block) :
    (get bs p).bind (replace bs p) = .ok bs ∧
    ∃ cs, replace bs p x = .ok cs ∧
      get cs p = .ok x ∧
      replace cs p y = replace bs p y ∧
      (∀ steps, get cs ⟨p.steps ++ steps⟩ = orNoBlock ⟨p.steps ++ steps⟩ (x.at? steps)) ∧
      ∀ q : Path, Path.Diverge p.steps q.steps →
        get cs q = get bs q ∧
        (contains bs q → ∃ ds es, replace bs q y = .ok ds ∧ replace ds p x = .ok es ∧
          replace cs q y = .ok es) := by
  obtain ⟨b, hb⟩ := Option.isSome_iff_exists.mp h
  obtain ⟨cs, hcs, -⟩ := exists_replace h x
  constructor
  · rw [get, hb]
    exact replace_self hb
  refine ⟨cs, hcs, ?_, replace_of_replace hcs y, ?_, ?_⟩
  · rw [get, get?_of_replace hcs]
    rfl
  · intro steps
    rw [get, get?_append_of_replace hcs]
  · intro q hpq
    constructor
    · rw [get, get?_of_diverge hcs hpq, get]
    · exact fun hq => exists_replace_comm hcs hpq hq y

/-- The blocks of `^(a|\d+)(?=x)`. -/
def choiceAhead : List Block :=
  [.anchor .start,
    .group true none
      [.alternation [[.literal "a" .one], [.shorthand .digit (.oneOrMore true)]] .one] .one,
    .look .ahead true [.literal "x" .one] .one]

theorem replace_lawful_branches :
    ∃ cs ds es,
      replace choiceAhead ⟨[.child 1, .child 0, .branch 0 0]⟩ (.literal "b" .one) = .ok cs ∧
      get cs ⟨[.child 1, .child 0, .branch 1 0]⟩ = .ok (.shorthand .digit (.oneOrMore true)) ∧
      replace choiceAhead ⟨[.child 1, .child 0, .branch 1 0]⟩ (.anchor .stop) = .ok ds ∧
      replace ds ⟨[.child 1, .child 0, .branch 0 0]⟩ (.literal "b" .one) = .ok es ∧
      replace cs ⟨[.child 1, .child 0, .branch 1 0]⟩ (.anchor .stop) = .ok es := by
  have hfirst : contains choiceAhead ⟨[.child 1, .child 0, .branch 0 0]⟩ := rfl
  have hsecond : contains choiceAhead ⟨[.child 1, .child 0, .branch 1 0]⟩ := rfl
  have hdiverge : Path.Diverge [.child 1, .child 0, .branch 0 0]
      [.child 1, .child 0, .branch 1 0] := by
    simp [Path.Diverge, List.cons_prefix_cons]
  obtain ⟨-, cs, hcs, -, -, -, hbeside⟩ :=
    replace_lawful hfirst (.literal "b" .one) (.anchor .stop)
  obtain ⟨hget, hswap⟩ := hbeside ⟨[.child 1, .child 0, .branch 1 0]⟩ hdiverge
  obtain ⟨ds, es, hds, hes, heq⟩ := hswap hsecond
  exact ⟨cs, ds, es, hcs, hget, hds, hes, heq⟩

end Block

end PatternBlocks
