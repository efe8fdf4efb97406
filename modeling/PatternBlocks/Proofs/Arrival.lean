import PatternBlocks.Proofs.Runs
import PatternBlocks.Proofs.Shape

/-!
Where a reading of a pattern comes to on its way. A term that fails there makes the pattern fail in
the same way, and a term that is read there is part of the tree. No atom of the tree is read
anywhere else.
-/
namespace PatternBlocks

namespace Grammar

variable {mode : Mode}

/-- A reading of alternatives from the first state on comes to the beginning of a term at the
second. The numbers say how deep groups may nest from either state on. -/
inductive ComesTo (mode : Mode) : Nat → State → Nat → State → Prop
  | here {levels : Nat} {s t : State} {rs : List Regex} (run : ReadsRun mode levels s rs t)
      (more : ¬endsAlternative t.cursor) : ComesTo mode levels s levels t
  | bar {levels l : Nat} {s t u : State} {rs : List Regex} {c : Cursor}
      (terms : ReadsTerms mode levels s rs t) (bar : t.cursor.eat? '|' = some c)
      (tail : ComesTo mode levels { t with cursor := c } l u) : ComesTo mode levels s l u
  | group {levels l : Nat} {s t u v : State} {rs : List Regex} {o : Opening} {c : Cursor}
      (run : ReadsRun mode (levels + 1) s rs t) (first : t.cursor.next? = some ('(', c))
      (opened : opening t.cursor.position { t with cursor := c } = .ok (o, u))
      (inside : ComesTo mode levels u l v) : ComesTo mode (levels + 1) s l v

/-! ### Terms that fail -/

theorem ReadsRun.terms_eq_error {levels : Nat} {s t : State} {rs : List Regex} {e : SyntaxError}
    (run : ReadsRun mode levels s rs t) (h : terms mode (innerReader mode levels) t = .error e) :
    terms mode (innerReader mode levels) s = .error e := by
  induction run with
  | nil => exact h
  | cons more head tail ih => exact terms_eq_error_of_tail more head (ih h)

/-- The first term that fails is what a reading fails for. -/
theorem ComesTo.alternatives_eq_error {levels l : Nat} {s u : State} {e : SyntaxError}
    (comes : ComesTo mode levels s l u) (h : term mode (innerReader mode l) u = .error e) :
    alternatives mode (innerReader mode levels) s = .error e := by
  induction comes with
  | here run more =>
    exact alternatives_eq_error_of_terms (run.terms_eq_error (terms_eq_error_of_head more h))
  | bar terms bar tail ih => exact alternatives_eq_error_of_bar terms bar (ih h)
  | group run first opened inside ih =>
    have hgroup := term_eq_error_of_inside first opened (ih h)
    have more := not_endsAlternative first (by decide) (by decide)
    exact alternatives_eq_error_of_terms
      (run.terms_eq_error (terms_eq_error_of_head more hgroup))

/-! ### Terms that are read -/

/-- All terms read from one state on begin with the terms of any run from there. -/
theorem ReadsRun.split {levels : Nat} {s t u : State} {rs qs : List Regex}
    (run : ReadsRun mode levels s rs t) (h : ReadsTerms mode levels s qs u) :
    ∃ qs', qs = rs ++ qs' ∧ ReadsTerms mode levels t qs' u := by
  induction run generalizing qs with
  | nil => exact ⟨qs, rfl, h⟩
  | cons more head tail ih =>
    cases h with
    | nil last => exact absurd last more
    | cons more' head' tail' =>
      obtain ⟨rfl, rfl⟩ := Prod.mk.inj (Except.ok.inj (head.term_eq.symm.trans head'.term_eq))
      obtain ⟨qs', rfl, hrest⟩ := ih tail'
      exact ⟨qs', rfl, hrest⟩

theorem mem_sequence {rs : List Regex} {x : Regex} (h : x ∈ Regex.subtreesOfAll rs) (span : Span) :
    x ∈ (sequence rs span).subtrees := by
  match rs with
  | [] => cases h
  | [r] => simpa [sequence, Regex.subtreesOfAll] using h
  | _ :: _ :: _ => exact List.mem_cons_of_mem _ h

theorem mem_choice {rs : Regex × List Regex} {x : Regex}
    (h : x ∈ Regex.subtreesOfAll (rs.1 :: rs.2)) (span : Span) :
    x ∈ (choice rs span).subtrees := by
  match rs with
  | (r, []) => simpa [choice, Regex.subtreesOfAll] using h
  | (_, _ :: _) => exact List.mem_cons_of_mem _ h

theorem mem_repeated {unicode : Bool} {start : Nat} {a r x : Regex} {c d : Cursor}
    (h : repeated unicode start a c = .ok (r, d)) (hx : x ∈ a.subtrees) : x ∈ r.subtrees := by
  obtain ⟨rfl, -⟩ | ⟨count, greedy, rfl, -⟩ := repeated_eq_ok h
  · exact hx
  · exact List.mem_cons_of_mem _ hx

theorem ReadsAlternatives.exists_terms {levels : Nat} {s v : State} {rs : Regex × List Regex}
    (h : ReadsAlternatives mode levels s rs v) :
    ∃ qs t, ReadsTerms mode levels s qs t ∧
      ∀ x ∈ Regex.subtreesOfAll qs, x ∈ Regex.subtreesOfAll (rs.1 :: rs.2) := by
  cases h with
  | last terms => exact ⟨_, _, terms, fun x hx => List.mem_append_left _ (mem_sequence hx _)⟩
  | more terms => exact ⟨_, _, terms, fun x hx => List.mem_append_left _ (mem_sequence hx _)⟩

/-- The term that begins where a run ends is one of those that are read. -/
theorem ReadsRun.exists_term {levels : Nat} {s t v : State} {rs : List Regex}
    {qs : Regex × List Regex} (run : ReadsRun mode levels s rs t)
    (more : ¬endsAlternative t.cursor) (h : ReadsAlternatives mode levels s qs v) :
    ∃ r w, ReadsTerm mode levels t r w ∧
      ∀ x ∈ r.subtrees, x ∈ Regex.subtreesOfAll (qs.1 :: qs.2) := by
  obtain ⟨ps, u, hterms, hsubset⟩ := h.exists_terms
  obtain ⟨ps', rfl, hrest⟩ := run.split hterms
  cases hrest with
  | nil last => exact absurd last more
  | cons more head tail =>
    refine ⟨_, _, head, fun x hx => hsubset x (Regex.mem_subtreesOfAll.mpr ⟨_, ?_, hx⟩)⟩
    exact List.mem_append_right _ List.mem_cons_self

/-- Where a reading comes to, it reads a term, which is part of what is read in the end. -/
theorem ComesTo.exists_term {levels l : Nat} {s u v : State} {rs : Regex × List Regex}
    (comes : ComesTo mode levels s l u) (h : ReadsAlternatives mode levels s rs v) :
    ∃ r w, ReadsTerm mode l u r w ∧ r ∈ Regex.subtreesOfAll (rs.1 :: rs.2) := by
  induction comes generalizing rs v with
  | here run more =>
    obtain ⟨r, w, hterm, hsubset⟩ := run.exists_term more h
    exact ⟨r, w, hterm, hsubset r (Regex.mem_subtrees_self r)⟩
  | bar terms bar tail ih =>
    cases h with
    | last terms' noBar =>
      obtain ⟨-, rfl⟩ := Prod.mk.inj (Except.ok.inj (terms.terms_eq.symm.trans terms'.terms_eq))
      rw [noBar] at bar
      cases bar
    | more terms' bar' tail' =>
      obtain ⟨-, rfl⟩ := Prod.mk.inj (Except.ok.inj (terms.terms_eq.symm.trans terms'.terms_eq))
      obtain rfl := Option.some.inj (bar.symm.trans bar')
      obtain ⟨r, w, hterm, hmem⟩ := ih tail'
      exact ⟨r, w, hterm, List.mem_append_right _ hmem⟩
  | group run first opened inside ih =>
    have more := not_endsAlternative first (by decide) (by decide)
    obtain ⟨r, w, hterm, hsubset⟩ := run.exists_term more h
    cases hterm with
    | plain first' noGroup =>
      obtain ⟨rfl, -⟩ := Prod.mk.inj (Option.some.inj (first.symm.trans first'))
      exact absurd rfl noGroup
    | group first' opened' inside' closed count =>
      obtain ⟨-, rfl⟩ := Prod.mk.inj (Option.some.inj (first.symm.trans first'))
      obtain ⟨rfl, rfl⟩ := Prod.mk.inj (Except.ok.inj (opened.symm.trans opened'))
      obtain ⟨q, w', hq, hmem⟩ := ih inside'
      refine ⟨q, w', hq, hsubset q (mem_repeated count ?_)⟩
      rw [subtrees_close]
      exact List.mem_cons_of_mem _ (mem_choice hmem _)

/-! ### Where atoms are read -/

theorem ComesTo.cons {levels l : Nat} {s t u : State} {r : Regex} (more : ¬endsAlternative s.cursor)
    (head : ReadsTerm mode levels s r t) (tail : ComesTo mode levels t l u) :
    ComesTo mode levels s l u := by
  cases tail with
  | here run more' => exact .here (.cons more head run) more'
  | bar terms bar tail => exact .bar (.cons more head terms) bar tail
  | group run first opened inside => exact .group (.cons more head run) first opened inside

theorem ReadsRun.reaches {levels : Nat} {s t : State} {rs : List Regex}
    (run : ReadsRun mode levels s rs t) : s.cursor.Reaches t.cursor := by
  induction run with
  | nil => exact .refl _
  | cons more head tail ih => exact (head.advances more).reaches.trans ih

theorem ComesTo.reaches {levels l : Nat} {s u : State} (comes : ComesTo mode levels s l u) :
    s.cursor.Reaches u.cursor := by
  induction comes with
  | here run more => exact run.reaches
  | bar terms bar tail ih =>
    exact terms.reaches.trans ((Cursor.advances_of_eat? bar).reaches.trans ih)
  | group run first opened inside ih =>
    have hopened := (Cursor.advances_of_next? first).reaches.trans (reaches_of_opening opened)
    exact run.reaches.trans (hopened.trans ih)

theorem ComesTo.more {levels l : Nat} {s u : State} (comes : ComesTo mode levels s l u) :
    ¬endsAlternative u.cursor := by
  induction comes with
  | here run more => exact more
  | bar terms bar tail ih => exact ih
  | group run first opened inside ih => exact ih

/-- The atom is read at the beginning of a term that a reading from `s` on comes to. -/
def IsReadFrom (mode : Mode) (levels : Nat) (s : State) (x : Regex) : Prop :=
  ∃ l u ch c e, ComesTo mode levels s l u ∧ u.cursor.next? = some (ch, c) ∧
    plainAtom mode ch u.cursor c = .ok (x, e)

theorem mem_subtrees_of_repeated {unicode : Bool} {start : Nat} {a r x : Regex} {c d : Cursor}
    (h : repeated unicode start a c = .ok (r, d)) (hx : x ∈ r.subtrees)
    (hsimple : x.isComposite = false) : x ∈ a.subtrees := by
  obtain ⟨rfl, -⟩ | ⟨count, greedy, rfl, -⟩ := repeated_eq_ok h
  · exact hx
  · rcases List.mem_cons.mp hx with rfl | hx
    · cases hsimple
    · exact hx

theorem mem_of_mem_sequence {rs : List Regex} {span : Span} {x : Regex}
    (hx : x ∈ (sequence rs span).subtrees) (hsimple : x.isComposite = false) :
    x ∈ Regex.subtreesOfAll rs := by
  rcases mem_subtrees_sequence hx with ⟨-, hcomposite⟩ | hmem
  · simp [hcomposite] at hsimple
  · exact Regex.mem_subtreesOfAll.mpr hmem

theorem mem_of_mem_choice {rs : Regex × List Regex} {span : Span} {x : Regex}
    (hx : x ∈ (choice rs span).subtrees) (hsimple : x.isComposite = false) :
    x ∈ Regex.subtreesOfAll (rs.1 :: rs.2) := by
  rcases mem_subtrees_choice hx with ⟨-, hcomposite⟩ | hmem
  · simp [hcomposite] at hsimple
  · exact Regex.mem_subtreesOfAll.mpr hmem

mutual

theorem ReadsTerm.isReadFrom {levels : Nat} {s t : State} {r x : Regex} :
    ReadsTerm mode levels s r t → ¬endsAlternative s.cursor → x ∈ r.subtrees →
    x.isComposite = false → IsReadFrom mode levels s x
  | .plain first noGroup atom count, more, hx, hsimple => by
    have hatom := mem_subtrees_of_repeated count hx hsimple
    rw [subtrees_of_leaf (leaf_of_plainAtom atom), List.mem_singleton] at hatom
    subst hatom
    exact ⟨_, _, _, _, _, .here .nil more, first, atom⟩
  | .group first opened inside closed count, more, hx, hsimple => by
    have hclose := mem_subtrees_of_repeated count hx hsimple
    rw [subtrees_close] at hclose
    rcases List.mem_cons.mp hclose with rfl | hbody
    · simp [isComposite_close] at hsimple
    obtain ⟨l, u, ch, c, e, hcomes, hread⟩ :=
      inside.isReadFrom (mem_of_mem_choice hbody hsimple) hsimple
    exact ⟨l, u, ch, c, e, .group .nil first opened hcomes, hread⟩

theorem ReadsTerms.isReadFrom {levels : Nat} {s t : State} {rs : List Regex} {x : Regex} :
    ReadsTerms mode levels s rs t → x ∈ Regex.subtreesOfAll rs → x.isComposite = false →
    IsReadFrom mode levels s x
  | .nil _, hx, _ => nomatch hx
  | .cons more head tail, hx, hsimple => by
    rcases List.mem_append.mp hx with hx | hx
    · exact head.isReadFrom more hx hsimple
    · obtain ⟨l, u, ch, c, e, hcomes, hread⟩ := tail.isReadFrom hx hsimple
      exact ⟨l, u, ch, c, e, hcomes.cons more head, hread⟩

/-- Whatever is not put together from other expressions is an atom that is read on the way. -/
theorem ReadsAlternatives.isReadFrom {levels : Nat} {s t : State} {rs : Regex × List Regex}
    {x : Regex} :
    ReadsAlternatives mode levels s rs t → x ∈ Regex.subtreesOfAll (rs.1 :: rs.2) →
    x.isComposite = false → IsReadFrom mode levels s x
  | .last terms _, hx, hsimple => by
    rcases List.mem_append.mp hx with hx | hx
    · exact terms.isReadFrom (mem_of_mem_sequence hx hsimple) hsimple
    · cases hx
  | .more terms bar tail, hx, hsimple => by
    rcases List.mem_append.mp hx with hx | hx
    · exact terms.isReadFrom (mem_of_mem_sequence hx hsimple) hsimple
    · obtain ⟨l, u, ch, c, e, hcomes, hread⟩ := tail.isReadFrom hx hsimple
      exact ⟨l, u, ch, c, e, .bar terms bar hcomes, hread⟩

end

/-! ### Where a reading fails -/

/-- The term that begins at the state fails by itself, and not for a term inside it. -/
inductive FailsAt (mode : Mode) : Nat → State → SyntaxError → Prop
  | plain {levels : Nat} {s : State} {ch : Char} {c : Cursor} {e : SyntaxError}
      (first : s.cursor.next? = some (ch, c)) (noGroup : ch ≠ '(')
      (fails : plainAtom mode ch s.cursor c = .error e) : FailsAt mode levels s e
  | tooDeep {s : State} {c : Cursor} (first : s.cursor.next? = some ('(', c)) :
      FailsAt mode 0 s ⟨.nestingTooDeep, c.spanSince s.cursor.position⟩
  | opening {levels : Nat} {s : State} {c : Cursor} {e : SyntaxError}
      (first : s.cursor.next? = some ('(', c))
      (fails : opening s.cursor.position { s with cursor := c } = .error e) :
      FailsAt mode (levels + 1) s e
  | unclosed {levels : Nat} {s t u : State} {o : Opening} {rs : Regex × List Regex} {c : Cursor}
      (first : s.cursor.next? = some ('(', c))
      (opened : opening s.cursor.position { s with cursor := c } = .ok (o, t))
      (inside : ReadsAlternatives mode levels t rs u) (unclosed : u.cursor.eat? ')' = none) :
      FailsAt mode (levels + 1) s ⟨.unterminatedGroup, u.cursor.spanSince s.cursor.position⟩
  | count {levels : Nat} {s t : State} {r : Regex} {e : SyntaxError}
      (read : atom mode (innerReader mode levels) s = .ok (r, t))
      (fails : repeated mode.unicode s.cursor.position r t.cursor = .error e) :
      FailsAt mode levels s e

theorem FailsAt.term_eq_error {levels : Nat} {s : State} {e : SyntaxError}
    (h : FailsAt mode levels s e) : term mode (innerReader mode levels) s = .error e := by
  cases h with
  | plain first noGroup fails =>
    simp only [term, atom, first, noGroup, if_false, fails]
  | tooDeep first => simp only [term, atom, first, if_true, group, innerReader, Cursor.fail]
  | opening first fails => simp only [term, atom, first, if_true, group, innerReader_succ, fails]
  | unclosed first opened inside unclosed =>
    simp only [term, atom, first, if_true, group, innerReader_succ, opened, bodyReader_read,
      disjunction, inside.alternatives_eq, unclosed, Cursor.fail]
  | count read fails => simp only [term, read, fails, keepGroups]

/-- A term that fails does so by itself or for the body of the group that it is. -/
theorem failsAt_or_inside {levels : Nat} {s : State} {e : SyntaxError}
    (h : term mode (innerReader mode levels) s = .error e) :
    FailsAt mode levels s e ∨ ∃ l c o t, levels = l + 1 ∧ s.cursor.next? = some ('(', c) ∧
      opening s.cursor.position { s with cursor := c } = .ok (o, t) ∧
      alternatives mode (innerReader mode l) t = .error e := by
  unfold term at h
  split at h
  next hatom =>
    cases h
    unfold atom at hatom
    split at hatom
    next => cases hatom
    next ch c first =>
      split at hatom
      next hch =>
        subst hch
        cases levels with
        | zero =>
          cases hatom
          exact .inl (.tooDeep first)
        | succ levels =>
          simp only [group, innerReader_succ, bodyReader_read, disjunction] at hatom
          split at hatom
          next hopened =>
            cases hatom
            exact .inl (.opening first hopened)
          next o t hopened =>
            split at hatom
            next hbody =>
              split at hbody <;> cases hbody
              cases hatom
              next hinside => exact .inr ⟨levels, c, o, t, rfl, first, hopened, hinside⟩
            next hbody =>
              split at hbody <;> cases hbody
              next rs u hinside =>
                split at hatom <;> cases hatom
                next hclosed =>
                  have hrs := readsAlternatives_of_alternatives
                    (fun l _ => derivesInside mode l) hinside
                  exact .inl (.unclosed first hopened hrs hclosed)
      next hch =>
        cases hplain : plainAtom mode ch s.cursor c with
        | ok => simp [hplain] at hatom
        | error =>
          rw [hplain] at hatom
          cases hatom
          exact .inl (.plain first hch hplain)
  next r t hatom =>
    cases hcount : repeated mode.unicode s.cursor.position r t.cursor with
    | ok => simp [hcount, keepGroups] at h
    | error =>
      rw [hcount] at h
      cases h
      exact .inl (.count hatom hcount)

/-- Bodies with groups up to some depth inside them fail for a term that reading them comes to. -/
def FailsInside (mode : Mode) (levels : Nat) : Prop :=
  ∀ {s : State} {e : SyntaxError}, alternatives mode (innerReader mode levels) s = .error e →
    ∃ l u, ComesTo mode levels s l u ∧ FailsAt mode l u e

theorem exists_failsAt_of_terms {levels : Nat} (inside : ∀ l, levels = l + 1 → FailsInside mode l)
    {s : State} {e : SyntaxError} (h : terms mode (innerReader mode levels) s = .error e) :
    ∃ l u, ComesTo mode levels s l u ∧ FailsAt mode l u e := by
  fun_induction terms mode (innerReader mode levels) s with
  | case1 => cases h
  | case2 s more e' hterm =>
    cases h
    obtain hfails | ⟨l, c, o, t, rfl, first, hopened, hinside⟩ := failsAt_or_inside hterm
    · exact ⟨levels, s, .here .nil more, hfails⟩
    · obtain ⟨l', u, hcomes, hfails⟩ := inside l rfl hinside
      exact ⟨l', u, .group .nil first hopened hcomes, hfails⟩
  | case3 s more r t hterm e' hterms ih =>
    cases h
    obtain ⟨l, u, hcomes, hfails⟩ := ih hterms
    have hread := readsTerm_of_term (fun l _ => derivesInside mode l) (peek?_ne_none more) hterm
    exact ⟨l, u, hcomes.cons more hread, hfails⟩
  | case4 => cases h

theorem exists_failsAt_of_alternatives {levels : Nat}
    (inside : ∀ l, levels = l + 1 → FailsInside mode l) {s : State} {e : SyntaxError}
    (h : alternatives mode (innerReader mode levels) s = .error e) :
    ∃ l u, ComesTo mode levels s l u ∧ FailsAt mode l u e := by
  fun_induction alternatives mode (innerReader mode levels) s with
  | case1 s e' halternative =>
    cases h
    unfold alternative at halternative
    split at halternative <;> cases halternative
    next hterms => exact exists_failsAt_of_terms inside hterms
  | case2 => cases h
  | case3 s r t halternative c hbar e' halternatives ih =>
    cases h
    obtain ⟨l, u, hcomes, hfails⟩ := ih halternatives
    unfold alternative at halternative
    split at halternative <;> cases halternative
    next hterms =>
      have hread := readsTerms_of_terms (fun l _ => derivesInside mode l) hterms
      exact ⟨l, u, .bar hread hbar hcomes, hfails⟩
  | case4 => cases h

theorem failsInside (mode : Mode) (levels : Nat) : FailsInside mode levels := by
  induction levels with
  | zero => exact exists_failsAt_of_alternatives fun l hl => by omega
  | succ levels ih =>
    refine exists_failsAt_of_alternatives fun l hl => ?_
    obtain rfl : l = levels := by omega
    exact ih

/-- A reading fails exactly if it comes to a term that fails by itself, and with its error. -/
theorem alternatives_eq_error_iff {levels : Nat} {s : State} {e : SyntaxError} :
    alternatives mode (innerReader mode levels) s = .error e ↔
      ∃ l u, ComesTo mode levels s l u ∧ FailsAt mode l u e := by
  constructor
  · exact fun h => failsInside mode levels h
  · rintro ⟨l, u, hcomes, hfails⟩
    exact hcomes.alternatives_eq_error hfails.term_eq_error

end Grammar

open Grammar (innerReader term)

namespace Pattern

variable {unicode : Bool} {text : String}

/-- On its way through the text, parsing comes to the beginning of a term. -/
def ComesTo (unicode : Bool) (text : String) (levels : Nat) (s : Grammar.State) : Prop :=
  Grammar.ComesTo ⟨unicode, .ofString text⟩ nestingLimit { cursor := .ofString text } levels s

theorem ComesTo.parse_eq_error {levels : Nat} {s : Grammar.State} {e : SyntaxError}
    (comes : Pattern.ComesTo unicode text levels s)
    (h : term ⟨unicode, .ofString text⟩ (innerReader ⟨unicode, .ofString text⟩ levels) s =
      .error e) :
    Pattern.parse unicode text = .error e := by
  unfold Pattern.parse
  simp only [Grammar.bodyReader_read, Grammar.disjunction,
    Grammar.ComesTo.alternatives_eq_error comes h]

/-- A pattern that is rejected has a term that fails, a parenthesis too many, or a reference to a
name that no group has. -/
theorem exists_failsAt {e : SyntaxError} (h : Pattern.parse unicode text = .error e) :
    (∃ levels s, Pattern.ComesTo unicode text levels s ∧
      Grammar.FailsAt ⟨unicode, .ofString text⟩ levels s e) ∨
    e.cause = .unmatchedParenthesis ∨ ∃ name, e.cause = .undefinedGroupName name := by
  unfold Pattern.parse at h
  simp only [Grammar.bodyReader_read, Grammar.disjunction] at h
  split at h
  next hread =>
    cases h
    split at hread <;> cases hread
    next hfails => exact .inl (Grammar.alternatives_eq_error_iff.mp hfails)
  next =>
    split at h
    next =>
      split at h <;> cases h
      exact .inr (.inr ⟨_, rfl⟩)
    next =>
      cases h
      exact .inr (.inl rfl)

theorem ComesTo.mem_subtrees {levels : Nat} {s t : Grammar.State} {r : Regex} {p : Pattern}
    (comes : Pattern.ComesTo unicode text levels s)
    (h : term ⟨unicode, .ofString text⟩ (innerReader ⟨unicode, .ofString text⟩ levels) s =
      .ok (r, t))
    (hparse : Pattern.parse unicode text = .ok p) : r ∈ p.root.subtrees := by
  obtain ⟨rs, u, hrs, -, hroot, -⟩ := Pattern.parse_eq_ok hparse
  obtain ⟨r', t', hterm, hmem⟩ := Grammar.ComesTo.exists_term comes hrs
  obtain ⟨rfl, -⟩ := Prod.mk.inj (Except.ok.inj (h.symm.trans hterm.term_eq))
  rw [hroot]
  exact Grammar.mem_choice hmem _

/-- The atoms of a pattern that is accepted are those that parsing reads on its way. -/
theorem exists_plainAtom {p : Pattern} (h : Pattern.parse unicode text = .ok p) {x : Regex}
    (hx : x ∈ p.root.subtrees) (hsimple : x.isComposite = false) :
    ∃ levels s ch c d, Pattern.ComesTo unicode text levels s ∧ s.cursor.next? = some (ch, c) ∧
      Grammar.plainAtom ⟨unicode, .ofString text⟩ ch s.cursor c = .ok (x, d) := by
  obtain ⟨rs, u, hrs, -, hroot, -⟩ := Pattern.parse_eq_ok h
  rw [hroot] at hx
  exact hrs.isReadFrom (Grammar.mem_of_mem_choice hx hsimple) hsimple

end Pattern

end PatternBlocks
