import PatternBlocks.Proofs.Siblings

/-!
Which paths there are. Looking up, replacing and removing succeed for the same paths, the ones that
end at a position in an existing list. An insertion may also end right behind the last position.
-/
namespace PatternBlocks.Block

/-- There is a list for a path that goes on from `init` with the step `s`. -/
inductive HasList (bs : List Block) : List Path.Step → Path.Step → Prop where
  | outermost (i : Nat) : HasList bs [] (.child i)
  | inside {init : List Path.Step} {b : Block} {children : List Block}
      (h : get bs ⟨init⟩ = .ok b) (hchildren : b.children? = some children) (i : Nat) :
      HasList bs init (.child i)
  | branch {init : List Path.Step} {branches : List (List Block)} {q : Quantifier} {k : Nat}
      (h : get bs ⟨init⟩ = .ok (.alternation branches q)) (hk : k < branches.length) (i : Nat) :
      HasList bs init (.branch k i)

section Lists

variable {bs : List Block} {p : Path} {init : List Path.Step} {s : Path.Step} {b : Block}

theorem endsIn_of_hasList (h : HasList bs init s) : ∃ b seq, EndsIn bs init s b seq := by
  cases h with
  | outermost i => exact ⟨whole bs, bs, rfl, rfl⟩
  | @inside _ b children h hchildren i =>
    refine ⟨b, children, (get_eq_ok_iff.mp h).2, ?_⟩
    cases b <;> simp only [children?, Option.some.injEq, reduceCtorEq] at hchildren
    · rw [← hchildren]
      rfl
    · rw [← hchildren]
      rfl
  | @branch _ branches q k h hk i =>
    exact ⟨.alternation branches q, branches[k], (get_eq_ok_iff.mp h).2, by simp [inside?, hk,
      Path.Step.index]⟩

theorem hasList_of_endsIn {seq : List Block} (h : EndsIn bs init s b seq) :
    HasList bs init s := by
  obtain ⟨hat, hinside⟩ := h
  cases init with
  | nil =>
    cases hat
    cases s with
    | child i => exact .outermost i
    | branch => cases hinside
  | cons t init =>
    have hget : get bs ⟨t :: init⟩ = .ok b := get_eq_ok_iff.mpr ⟨List.cons_ne_nil t init, hat⟩
    unfold inside? at hinside
    split at hinside
    next i => exact .inside hget rfl i
    next i => exact .inside hget rfl i
    next branches q k i =>
      obtain ⟨branch, hbranch, -⟩ := Option.map_eq_some_iff.mp hinside
      obtain ⟨hk, -⟩ := List.getElem?_eq_some_iff.mp hbranch
      exact .branch hget hk i
    next => cases hinside

theorem hasList_iff : HasList bs init s ↔ ∃ b seq, EndsIn bs init s b seq := by
  refine ⟨endsIn_of_hasList, ?_⟩
  rintro ⟨b, seq, h⟩
  exact hasList_of_endsIn h

/-! ### Success -/

theorem contains_concat_iff :
    contains bs ⟨init ++ [s]⟩ ↔ ∃ b seq, EndsIn bs init s b seq ∧ s.index < seq.length := by
  constructor
  · intro h
    obtain ⟨b, seq, hends⟩ := exists_endsIn h
    refine ⟨b, seq, hends, ?_⟩
    rw [contains, hends.get?_eq rfl] at h
    simpa [at?] using h
  · rintro ⟨b, seq, hends, hindex⟩
    rw [contains, hends.get?_eq rfl]
    simp [at?, hindex]

theorem isSome_edit?_insertIn_iff (x : Block) :
    (edit? (insertIn x) bs ⟨init ++ [s]⟩).isSome ↔
      ∃ b seq, EndsIn bs init s b seq ∧ s.index ≤ seq.length := by
  simp only [isSome_edit?_iff, insertIn, Option.isSome_ite]

theorem isSome_edit?_removeFrom_iff : (edit? removeFrom bs p).isSome ↔ contains bs p := by
  by_cases hp : p.steps = []
  · simp [edit?, contains, get?, hp]
  · obtain ⟨init, s, rfl⟩ := Path.exists_concat hp
    simp only [isSome_edit?_iff, contains_concat_iff, removeFrom, Option.isSome_ite]

/-- A position right behind another one, and the first position, exist for an insertion. -/
theorem exists_le_length_iff :
    (∃ b seq, EndsIn bs init s b seq ∧ s.index ≤ seq.length) ↔
      0 < s.index ∧ contains bs ⟨init ++ [s.moveTo (s.index - 1)]⟩ ∨
        s.index = 0 ∧ HasList bs init s := by
  rw [contains_concat_iff, hasList_iff]
  rcases Nat.eq_zero_or_pos s.index with hzero | hpos
  · simp [hzero]
  · constructor
    · rintro ⟨b, seq, hends, hindex⟩
      refine .inl ⟨hpos, b, seq, hends.moveTo _, ?_⟩
      rw [Path.Step.index_moveTo]
      omega
    · rintro (⟨-, b, seq, hends, hindex⟩ | ⟨hzero, -⟩)
      · have hback := hends.moveTo s.index
        rw [Path.Step.index_moveTo] at hindex
        rw [Path.Step.moveTo_moveTo, Path.Step.moveTo_index] at hback
        exact ⟨b, seq, hback, by omega⟩
      · omega

end Lists

/-! ### Failure -/

section Failure

variable {α : Type} {p : Path} {found : Option α}

theorem exists_orNoBlock_eq_ok : (∃ a, orNoBlock p found = .ok a) ↔ found.isSome := by
  cases found <;> simp [orNoBlock]

theorem eq_noBlock_of_orNoBlock {e : BlockError} (h : orNoBlock p found = .error e) :
    e = .noBlock p := by
  cases found with
  | none => exact (Except.error.inj h).symm
  | some a => cases h

end Failure

/-- Looking up, replacing and removing succeed for the same paths. Inserting succeeds where the
position before is one of these paths, and at the first position of every list. All failures name
the path. -/
theorem operations_agree (bs : List Block) (p : Path) (x : Block) :
    (contains bs p ↔ ∃ b, get bs p = .ok b) ∧
    (contains bs p ↔ ∃ cs, replace bs p x = .ok cs) ∧
    (contains bs p ↔ ∃ cs, remove bs p = .ok cs) ∧
    ((∃ cs, insert bs p x = .ok cs) ↔ ∃ init s, p.steps = init ++ [s] ∧
      (0 < s.index ∧ contains bs ⟨init ++ [s.moveTo (s.index - 1)]⟩ ∨
        s.index = 0 ∧ HasList bs init s)) ∧
    ∀ e, (get bs p = .error e ∨ replace bs p x = .error e ∨ remove bs p = .error e ∨
        insert bs p x = .error e) →
      e = .noBlock p ∧ e.message = "no node at path " ++ p.text := by
  refine ⟨?_, ?_, ?_, ?_, ?_⟩
  · exact exists_orNoBlock_eq_ok.symm
  · constructor
    · intro h
      obtain ⟨cs, hcs, -⟩ := exists_replace h x
      exact ⟨cs, hcs⟩
    · rintro ⟨cs, hcs⟩
      exact (replace_eq_ok_iff.mp hcs).1
  · exact (exists_orNoBlock_eq_ok.trans isSome_edit?_removeFrom_iff).symm
  · refine exists_orNoBlock_eq_ok.trans ?_
    constructor
    · intro h
      obtain ⟨cs, hcs⟩ := Option.isSome_iff_exists.mp h
      obtain ⟨init, s, rfl⟩ := Path.exists_concat (steps_ne_nil_of_edit? hcs)
      exact ⟨init, s, rfl, exists_le_length_iff.mp ((isSome_edit?_insertIn_iff x).mp h)⟩
    · rintro ⟨init, s, hp, h⟩
      obtain rfl : p = ⟨init ++ [s]⟩ := by rw [← hp]
      exact (isSome_edit?_insertIn_iff x).mpr (exists_le_length_iff.mpr h)
  · intro e h
    have he : e = .noBlock p := by
      rcases h with h | h | h | h <;> exact eq_noBlock_of_orNoBlock h
    rw [he]
    exact ⟨rfl, rfl⟩

/-- Right behind the last block, and by a position into an alternation. -/
theorem operations_agree_choiceAhead :
    (∃ cs, insert choiceAhead ⟨[.child 3]⟩ (.anchor .stop) = .ok cs) ∧
    (¬∃ cs, remove choiceAhead ⟨[.child 3]⟩ = .ok cs) ∧
    ∀ e, remove choiceAhead ⟨[.child 1, .child 0, .child 0]⟩ = .error e →
      e.message = "no node at path 1/0/0" := by
  obtain ⟨-, -, hremove, hinsert, -⟩ :=
    operations_agree choiceAhead ⟨[.child 3]⟩ (.anchor .stop)
  obtain ⟨-, -, -, -, hfail⟩ :=
    operations_agree choiceAhead ⟨[.child 1, .child 0, .child 0]⟩ (.anchor .stop)
  refine ⟨hinsert.mpr ⟨[], .child 3, rfl, .inl ⟨by decide, rfl⟩⟩, ?_, ?_⟩
  · rw [← hremove]
    decide
  · intro e h
    obtain ⟨-, hmessage⟩ := hfail e (.inr (.inr (.inl h)))
    have htext : Path.text ⟨[.child 1, .child 0, .child 0]⟩ = "1/0/0" := by decide
    rw [hmessage, htext]
    rfl

end PatternBlocks.Block
