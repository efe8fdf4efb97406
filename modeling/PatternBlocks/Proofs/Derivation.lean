import PatternBlocks.Grammar.Pattern

/-!
Successful readings as derivations: the rules of the grammar with the states before and after.
A reading succeeds exactly if there is a derivation of what it returns.
-/
namespace PatternBlocks.Grammar

variable {mode : Mode} {levels : Nat}

mutual

/-- `levels` is how deep groups may nest from here on. -/
inductive ReadsTerm (mode : Mode) : Nat → State → Regex → State → Prop
  | plain {levels : Nat} {s : State} {ch : Char} {a r : Regex} {c d e : Cursor}
      (first : s.cursor.next? = some (ch, c)) (noGroup : ch ≠ '(')
      (atom : plainAtom mode ch s.cursor c = .ok (a, d))
      (count : repeated mode.unicode s.cursor.position a d = .ok (r, e)) :
      ReadsTerm mode levels s r { s.note a with cursor := e }
  | group {levels : Nat} {s t u : State} {o : Opening} {body : Regex × List Regex} {r : Regex}
      {c d e : Cursor} (first : s.cursor.next? = some ('(', c))
      (opened : opening s.cursor.position { s with cursor := c } = .ok (o, t))
      (inside : ReadsAlternatives mode levels t body u)
      (closed : u.cursor.eat? ')' = some d)
      (count : repeated mode.unicode s.cursor.position
        (o.close (choice body (u.cursor.spanSince t.cursor.position))
          (d.spanSince s.cursor.position)) d = .ok (r, e)) :
      ReadsTerm mode (levels + 1) s r { u with cursor := e }

inductive ReadsTerms (mode : Mode) : Nat → State → List Regex → State → Prop
  | nil {levels : Nat} {s : State} (last : endsAlternative s.cursor) :
      ReadsTerms mode levels s [] s
  | cons {levels : Nat} {s t u : State} {r : Regex} {rs : List Regex}
      (more : ¬endsAlternative s.cursor) (head : ReadsTerm mode levels s r t)
      (tail : ReadsTerms mode levels t rs u) : ReadsTerms mode levels s (r :: rs) u

inductive ReadsAlternatives (mode : Mode) : Nat → State → Regex × List Regex → State → Prop
  | last {levels : Nat} {s t : State} {rs : List Regex} (terms : ReadsTerms mode levels s rs t)
      (noBar : t.cursor.eat? '|' = none) :
      ReadsAlternatives mode levels s
        (sequence rs (t.cursor.spanSince s.cursor.position), []) t
  | more {levels : Nat} {s t u : State} {rs : List Regex} {c : Cursor} {next : Regex × List Regex}
      (terms : ReadsTerms mode levels s rs t) (bar : t.cursor.eat? '|' = some c)
      (tail : ReadsAlternatives mode levels { t with cursor := c } next u) :
      ReadsAlternatives mode levels s
        (sequence rs (t.cursor.spanSince s.cursor.position), next.1 :: next.2) u

end

/-- What reads the inside of a group where groups may nest `levels` deep. -/
def innerReader (mode : Mode) : (levels : Nat) → Option BodyReader
  | 0 => none
  | levels + 1 => some (bodyReader mode levels)

theorem innerReader_succ (mode : Mode) (levels : Nat) :
    innerReader mode (levels + 1) = some (bodyReader mode levels) :=
  rfl

theorem bodyReader_read (mode : Mode) (levels : Nat) (s : State) :
    (bodyReader mode levels).read s = disjunction mode (innerReader mode levels) s := by
  cases levels <;> rfl

/-! ### From readings to derivations -/

theorem atom_eq_ok {inner : Option BodyReader} {s t : State} {r : Regex}
    (hs : s.cursor.peek? ≠ none) (h : atom mode inner s = .ok (r, t)) :
    ∃ ch c, s.cursor.next? = some (ch, c) ∧
      ((ch = '(' ∧ group inner s.cursor.position { s with cursor := c } = .ok (r, t)) ∨
        (ch ≠ '(' ∧ plainAtom mode ch s.cursor c = .ok (r, t.cursor) ∧
          t = { s.note r with cursor := t.cursor })) := by
  unfold atom at h
  split at h
  next hn =>
    refine absurd ?_ hs
    obtain ⟨⟨rest, position⟩⟩ := s
    cases rest with
    | nil => rfl
    | cons => simp [Cursor.next?] at hn
  next ch c hc =>
    refine ⟨ch, c, hc, ?_⟩
    split at h
    next hch => exact .inl ⟨hch, h⟩
    next hch =>
      split at h <;> cases h
      exact .inr ⟨hch, ‹_›, rfl⟩

theorem group_eq_ok {inner : Option BodyReader} {start : Nat} {s t : State} {r : Regex}
    (h : group inner start s = .ok (r, t)) :
    ∃ body o u v b c, inner = some body ∧ opening start s = .ok (o, u) ∧
      body.read u = .ok (b, v) ∧ v.cursor.eat? ')' = some c ∧
      r = o.close b (c.spanSince start) ∧ t = { v with cursor := c } := by
  unfold group at h
  split at h
  next => cases h
  next body =>
    split at h
    next => cases h
    next o u ho =>
      split at h
      next => cases h
      next b v hb =>
        split at h
        next => cases h
        next c hc =>
          cases h
          exact ⟨body, o, u, v, b, c, rfl, ho, hb, hc, rfl, rfl⟩

theorem term_eq_ok {inner : Option BodyReader} {s t : State} {r : Regex}
    (h : term mode inner s = .ok (r, t)) :
    ∃ a u, atom mode inner s = .ok (a, u) ∧
      repeated mode.unicode s.cursor.position a u.cursor = .ok (r, t.cursor) ∧
      t = { u with cursor := t.cursor } := by
  unfold term at h
  split at h
  next => cases h
  next a u hu => exact ⟨a, u, hu, keepGroups_eq_ok h⟩

/-- Readings of groups, given derivations for what they enclose. -/
def DerivesInside (mode : Mode) (levels : Nat) : Prop :=
  ∀ {s t : State} {r : Regex}, (bodyReader mode levels).read s = .ok (r, t) →
    ∃ rs, ReadsAlternatives mode levels s rs t ∧
      r = choice rs (t.cursor.spanSince s.cursor.position)

theorem readsTerm_of_term (inside : ∀ l, levels = l + 1 → DerivesInside mode l) {s t : State}
    {r : Regex} (hs : s.cursor.peek? ≠ none)
    (h : term mode (innerReader mode levels) s = .ok (r, t)) : ReadsTerm mode levels s r t := by
  obtain ⟨a, u, ha, hr, ht⟩ := term_eq_ok h
  rw [ht]
  obtain ⟨ch, c, hc, hgroup | hplain⟩ := atom_eq_ok hs ha
  · obtain ⟨rfl, hgroup⟩ := hgroup
    obtain ⟨body, o, v, w, b, e, hbody, ho, hb, he, rfl, rfl⟩ := group_eq_ok hgroup
    cases levels with
    | zero => cases hbody
    | succ levels =>
      cases hbody
      obtain ⟨rs, hrs, rfl⟩ := inside levels rfl hb
      exact .group (u := w) hc ho hrs he hr
  · obtain ⟨hch, hplain, hu⟩ := hplain
    rw [hu]
    exact .plain hc hch hplain hr

theorem readsTerms_of_terms (inside : ∀ l, levels = l + 1 → DerivesInside mode l) {s t : State}
    {rs : List Regex} (h : terms mode (innerReader mode levels) s = .ok (rs, t)) :
    ReadsTerms mode levels s rs t := by
  fun_induction terms mode (innerReader mode levels) s generalizing rs with
  | case1 s hs =>
    cases h
    exact .nil hs
  | case2 => cases h
  | case3 => cases h
  | case4 s hs r u hu rs' v hv ih =>
    cases h
    exact .cons hs (readsTerm_of_term inside (peek?_ne_none hs) hu) (ih hv)

theorem readsAlternatives_of_alternatives (inside : ∀ l, levels = l + 1 → DerivesInside mode l)
    {s t : State} {rs : Regex × List Regex}
    (h : alternatives mode (innerReader mode levels) s = .ok (rs, t)) :
    ReadsAlternatives mode levels s rs t := by
  have one {s t : State} {r : Regex}
      (hr : alternative mode (innerReader mode levels) s = .ok (r, t)) :
      ∃ rs, ReadsTerms mode levels s rs t ∧
        r = sequence rs (t.cursor.spanSince s.cursor.position) := by
    unfold alternative at hr
    split at hr
    next => cases hr
    next rs t hrs =>
      cases hr
      exact ⟨rs, readsTerms_of_terms inside hrs, rfl⟩
  fun_induction alternatives mode (innerReader mode levels) s generalizing rs with
  | case1 => cases h
  | case2 s r u hu hc =>
    cases h
    obtain ⟨rs, hrs, rfl⟩ := one hu
    exact .last hrs hc
  | case3 => cases h
  | case4 s r u hu c hc r' rs' v hv ih =>
    cases h
    obtain ⟨rs, hrs, rfl⟩ := one hu
    exact .more hrs hc (ih hv)

/-- A body that is read has a derivation. -/
theorem derivesInside (mode : Mode) (levels : Nat) : DerivesInside mode levels := by
  induction levels with
  | zero =>
    intro s t r h
    rw [bodyReader_read] at h
    unfold disjunction at h
    split at h
    next => cases h
    next rs u hrs =>
      cases h
      exact ⟨rs, readsAlternatives_of_alternatives (fun l hl => by omega) hrs, rfl⟩
  | succ levels ih =>
    intro s t r h
    rw [bodyReader_read] at h
    unfold disjunction at h
    split at h
    next => cases h
    next rs u hrs =>
      cases h
      refine ⟨rs, readsAlternatives_of_alternatives (fun l hl => ?_) hrs, rfl⟩
      obtain rfl : l = levels := by omega
      exact ih

/-! ### From derivations to readings -/

mutual

theorem ReadsTerm.term_eq {levels : Nat} {s t : State} {r : Regex} :
    ReadsTerm mode levels s r t → term mode (innerReader mode levels) s = .ok (r, t)
  | .plain first noGroup hatom count => by
    simp only [term, atom, first, noGroup, if_false, hatom, keepGroups, count]
  | .group first opened inside closed count => by
    have hinside := inside.alternatives_eq
    simp only [term, atom, first, if_true, group, innerReader_succ, opened, bodyReader_read,
      disjunction, hinside, closed, count, keepGroups]

theorem ReadsTerms.terms_eq {levels : Nat} {s t : State} {rs : List Regex} :
    ReadsTerms mode levels s rs t → terms mode (innerReader mode levels) s = .ok (rs, t)
  | .nil last => by
    rw [Grammar.terms_eq, if_pos last]
  | .cons more head tail => by
    rw [Grammar.terms_eq, if_neg more]
    simp only [head.term_eq, tail.terms_eq]

theorem ReadsAlternatives.alternatives_eq {levels : Nat} {s t : State}
    {rs : Regex × List Regex} :
    ReadsAlternatives mode levels s rs t →
      alternatives mode (innerReader mode levels) s = .ok (rs, t)
  | .last terms noBar => by
    rw [Grammar.alternatives_eq]
    simp only [alternative, terms.terms_eq, noBar]
  | .more terms bar tail => by
    rw [Grammar.alternatives_eq]
    simp only [alternative, terms.terms_eq, bar, tail.alternatives_eq]

end

theorem ReadsTerms.reaches {levels : Nat} {s t : State} {rs : List Regex}
    (h : ReadsTerms mode levels s rs t) : s.cursor.Reaches t.cursor :=
  reaches_of_terms h.terms_eq

theorem ReadsAlternatives.reaches {levels : Nat} {s t : State} {rs : Regex × List Regex}
    (h : ReadsAlternatives mode levels s rs t) : s.cursor.Reaches t.cursor :=
  reaches_of_alternatives h.alternatives_eq

theorem ReadsTerm.advances {levels : Nat} {s t : State} {r : Regex}
    (more : ¬endsAlternative s.cursor) (h : ReadsTerm mode levels s r t) :
    s.cursor.Advances t.cursor :=
  advances_of_term (peek?_ne_none more) h.term_eq

/-- A body is read exactly if there is a derivation for its alternatives. -/
theorem read_eq_ok_iff {levels : Nat} {s t : State} {r : Regex} :
    (bodyReader mode levels).read s = .ok (r, t) ↔
      ∃ rs, ReadsAlternatives mode levels s rs t ∧
        r = choice rs (t.cursor.spanSince s.cursor.position) := by
  constructor
  · exact fun h => derivesInside mode levels h
  · rintro ⟨rs, hrs, rfl⟩
    simp only [bodyReader_read, disjunction, hrs.alternatives_eq]

theorem not_endsAlternative {c d : Cursor} {ch : Char} (h : c.next? = some (ch, d))
    (hbar : ch ≠ '|') (hclose : ch ≠ ')') : ¬endsAlternative c := by
  have hpeek : c.peek? = some ch := by
    rw [Cursor.peek?, (Cursor.passes_of_next? h).1]
    rfl
  simp [endsAlternative, hpeek, hbar, hclose]

/-! ### Readings that fail -/

section Failure

variable {s t : State} {e : SyntaxError}

theorem term_eq_error_of_inside {o : Opening} {c : Cursor}
    (first : s.cursor.next? = some ('(', c))
    (opened : opening s.cursor.position { s with cursor := c } = .ok (o, t))
    (h : alternatives mode (innerReader mode levels) t = .error e) :
    term mode (innerReader mode (levels + 1)) s = .error e := by
  simp only [term, atom, first, if_true, group, innerReader_succ, opened, bodyReader_read,
    disjunction, h]

theorem terms_eq_error_of_head (more : ¬endsAlternative s.cursor)
    (h : term mode (innerReader mode levels) s = .error e) :
    terms mode (innerReader mode levels) s = .error e := by
  rw [terms_eq, if_neg more]
  simp only [h]

theorem terms_eq_error_of_tail (more : ¬endsAlternative s.cursor) {r : Regex}
    (head : ReadsTerm mode levels s r t)
    (h : terms mode (innerReader mode levels) t = .error e) :
    terms mode (innerReader mode levels) s = .error e := by
  rw [terms_eq, if_neg more]
  simp only [head.term_eq, h]

theorem alternatives_eq_error_of_terms
    (h : terms mode (innerReader mode levels) s = .error e) :
    alternatives mode (innerReader mode levels) s = .error e := by
  rw [alternatives_eq]
  simp only [alternative, h]

theorem alternatives_eq_error_of_bar {rs : List Regex} {c : Cursor}
    (terms : ReadsTerms mode levels s rs t) (bar : t.cursor.eat? '|' = some c)
    (h : alternatives mode (innerReader mode levels) { t with cursor := c } = .error e) :
    alternatives mode (innerReader mode levels) s = .error e := by
  rw [alternatives_eq]
  simp only [alternative, terms.terms_eq, bar, h]

end Failure

end PatternBlocks.Grammar
