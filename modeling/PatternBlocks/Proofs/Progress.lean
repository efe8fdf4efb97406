import PatternBlocks.Proofs.Literalness

/-!
How often the loops of the grammar go round. For each reading there is the list of the cursors where
a round of a loop begins: at a member of a class, at a term of an alternative, at a bar. Each round
begins further on than the one before it, so that no text has more rounds than characters.
-/
namespace PatternBlocks

namespace Grammar

open Cursor

/-! ### Rounds -/

/-- Where the members of a class are begun. -/
def memberRounds (unicode : Bool) (opening : Nat) (c : Cursor) : List Cursor :=
  match c.peek? with
  | none => []
  | some ']' => []
  | some _ =>
    match _h : classMember unicode opening c with
    | .error _ => [c]
    | .ok (_, d) => c :: memberRounds unicode opening d
termination_by c.rest.length
decreasing_by exact (advances_of_classMember ‹_›).length_lt

section

variable (mode : Mode) (inner : Option BodyReader) (inside : State → List Cursor)

/-- What an atom goes through: the members of a class, or the inside of a group. -/
def atomRounds (s : State) : List Cursor :=
  match s.cursor.next? with
  | none => []
  | some (ch, c) =>
    if ch = '(' then
      match inner, opening s.cursor.position { s with cursor := c } with
      | some _, .ok (_, t) => inside t
      | _, _ => []
    else if ch = '[' then memberRounds mode.unicode s.cursor.position (negation c).2
    else []

/-- Where the terms of an alternative are begun, each with what its atom goes through. -/
def termRounds (s : State) : List Cursor :=
  if _h : endsAlternative s.cursor then []
  else
    match _h : term mode inner s with
    | .error _ => s.cursor :: atomRounds mode inner inside s
    | .ok (_, t) => s.cursor :: (atomRounds mode inner inside s ++ termRounds t)
termination_by s.cursor.rest.length
decreasing_by exact (advances_of_term (peek?_ne_none ‹_›) ‹_›).length_lt

/-- The rounds of the first alternative, and after each bar those of one more. -/
def barRounds (s : State) : List Cursor :=
  match _h : alternative mode inner s with
  | .error _ => termRounds mode inner inside s
  | .ok (_, t) =>
    match _h : t.cursor.eat? '|' with
    | none => termRounds mode inner inside s
    | some c => termRounds mode inner inside s ++ t.cursor :: barRounds { t with cursor := c }
termination_by s.cursor.rest.length
decreasing_by
  exact ((reaches_of_alternative ‹_›).trans_advances (advances_of_eat? ‹_›)).length_lt

end

/-- What groups go through where they may nest `levels` deep. -/
def insideRounds (mode : Mode) : (levels : Nat) → State → List Cursor
  | 0 => fun _ => []
  | levels + 1 => barRounds mode (innerReader mode levels) (insideRounds mode levels)

/-! ### Their order -/

/-- The rounds begin before the end of the text, one behind the other, and none before `c`. -/
structure Orderly (c : Cursor) (rounds : List Cursor) : Prop where
  reached : ∀ d ∈ rounds, c.Reaches d
  unread : ∀ d ∈ rounds, d.rest ≠ []
  onward : rounds.Pairwise Advances

/-- All rounds begin before the cursor. -/
def Before (rounds : List Cursor) (e : Cursor) : Prop := ∀ d ∈ rounds, d.Advances e

section

variable {c d e : Cursor} {rounds more : List Cursor}

theorem exists_next? (h : c.peek? ≠ none) : ∃ ch d, c.next? = some (ch, d) := by
  obtain ⟨rest, position⟩ := c
  cases rest with
  | nil => exact absurd rfl h
  | cons ch rest => exact ⟨ch, _, next?_cons ch rest position⟩

theorem rest_ne_nil_of_next? {ch : Char} (h : c.next? = some (ch, d)) : c.rest ≠ [] := by
  rw [(passes_of_next? h).1]
  exact List.cons_ne_nil ch d.rest

theorem rest_ne_nil_of_eat? {ch : Char} (h : c.eat? ch = some d) : c.rest ≠ [] := by
  rw [(passes_of_eat? h).1]
  exact List.cons_ne_nil ch d.rest

/-- What lies behind a cursor lies behind the next character. -/
theorem reaches_of_next? {ch : Char} (h : c.Advances e) (next : c.next? = some (ch, d)) :
    d.Reaches e := by
  obtain ⟨w, hne, hrest, hposition⟩ := h
  obtain ⟨hd, hdposition⟩ := passes_of_next? next
  cases w with
  | nil => exact absurd rfl hne
  | cons ch' w =>
    obtain ⟨rfl, htext⟩ := List.cons.inj (hd.symm.trans hrest)
    refine ⟨w, htext, ?_⟩
    simp only [utf8Length_cons, utf8Length_nil] at hposition hdposition
    omega

theorem Orderly.nil (c : Cursor) : Orderly c [] := ⟨nofun, nofun, .nil⟩

theorem Orderly.singleton (hc : c.rest ≠ []) : Orderly c [c] :=
  ⟨List.forall_mem_singleton.mpr (.refl c), List.forall_mem_singleton.mpr hc,
    List.pairwise_singleton _ c⟩

theorem Orderly.of_reaches (h : Orderly d rounds) (hcd : c.Reaches d) : Orderly c rounds :=
  ⟨fun e he => hcd.trans (h.reached e he), h.unread, h.onward⟩

theorem Orderly.cons (h : Orderly d rounds) (hc : c.rest ≠ []) (hcd : c.Advances d) :
    Orderly c (c :: rounds) where
  reached := List.forall_mem_cons.mpr ⟨.refl c, (h.of_reaches hcd.reaches).reached⟩
  unread := List.forall_mem_cons.mpr ⟨hc, h.unread⟩
  onward := .cons (fun e he => hcd.trans_reaches (h.reached e he)) h.onward

theorem Orderly.append (h : Orderly c rounds) (hd : Before rounds d) (hcd : c.Reaches d)
    (hmore : Orderly d more) : Orderly c (rounds ++ more) where
  reached := List.forall_mem_append.mpr ⟨h.reached, (hmore.of_reaches hcd).reached⟩
  unread := List.forall_mem_append.mpr ⟨h.unread, hmore.unread⟩
  onward := by
    apply List.pairwise_append.mpr ⟨h.onward, hmore.onward, _⟩
    intro x hx y hy
    exact (hd x hx).trans_reaches (hmore.reached y hy)

theorem Before.nil (e : Cursor) : Before [] e := List.forall_mem_nil _

theorem Before.cons (h : Before rounds e) (hc : c.Advances e) : Before (c :: rounds) e :=
  List.forall_mem_cons.mpr ⟨hc, h⟩

theorem Before.append (h : Before rounds e) (hmore : Before more e) : Before (rounds ++ more) e :=
  List.forall_mem_append.mpr ⟨h, hmore⟩

theorem Before.trans_reaches (h : Before rounds d) (hde : d.Reaches e) : Before rounds e :=
  fun x hx => (h x hx).trans_reaches hde

/-- Cursors with less and less text behind them are no more than there is text. -/
theorem Orderly.length_le (h : Orderly c rounds) : rounds.length ≤ c.rest.length := by
  induction rounds generalizing c with
  | nil => exact Nat.zero_le _
  | cons d rounds ih =>
    have hle := (h.reached d List.mem_cons_self).length_le
    obtain ⟨hfirst, honward⟩ := List.pairwise_cons.mp h.onward
    obtain ⟨ch, e, next⟩ : ∃ ch e, d.next? = some (ch, e) := by
      apply exists_next?
      rw [peek?, ne_eq, List.head?_eq_none_iff]
      exact h.unread d List.mem_cons_self
    have hbehind : Orderly e rounds :=
      ⟨fun x hx => reaches_of_next? (hfirst x hx) next,
        fun x hx => h.unread x (List.mem_cons_of_mem _ hx), honward⟩
    have hlength : d.rest.length = e.rest.length + 1 := by
      rw [(passes_of_next? next).1, List.length_append, List.length_singleton, Nat.add_comm]
    have hmore := ih hbehind
    rw [List.length_cons]
    omega

end

/-! ### Rounds of the readers -/

section Members

variable {unicode : Bool} {opening : Nat}

theorem orderly_memberRounds (c : Cursor) : Orderly c (memberRounds unicode opening c) := by
  fun_induction memberRounds unicode opening c with
  | case1 => exact .nil _
  | case2 => exact .nil _
  | case3 c ch _ hpeek =>
    obtain ⟨ch, d, next⟩ := exists_next? (c := c) (by simp [hpeek])
    exact .singleton (rest_ne_nil_of_next? next)
  | case4 c ch _ hpeek items d hmember ih =>
    obtain ⟨ch, d, next⟩ := exists_next? (c := c) (by simp [hpeek])
    exact ih.cons (rest_ne_nil_of_next? next) (advances_of_classMember hmember)

theorem before_memberRounds {items : List ClassItem} {c d : Cursor}
    (h : classMembers unicode opening c = .ok (items, d)) :
    Before (memberRounds unicode opening c) d := by
  fun_induction memberRounds unicode opening c generalizing items with
  | case1 => exact .nil d
  | case2 => exact .nil d
  | case3 c ch _ hpeek e hmember =>
    rw [classMembers_eq, hpeek] at h
    simp only [hmember] at h
    cases h
  | case4 c ch _ hpeek items' e hmember ih =>
    rw [classMembers_eq, hpeek] at h
    simp only [hmember] at h
    split at h
    next => cases h
    next more f hmore =>
      cases h
      apply (ih hmore).cons
      exact (advances_of_classMember hmember).trans_reaches (reaches_of_classMembers hmore)

end Members

/-- The rounds are in order, and if the reading comes to an end they all begin before it. -/
def IsTraceOf {α : Type} (rounds : State → List Cursor) (read : State → Step α) : Prop :=
  ∀ s, Orderly s.cursor (rounds s) ∧ ∀ a t, read s = .ok (a, t) → Before (rounds s) t.cursor

section

variable {mode : Mode} {inner : Option BodyReader} {inside : State → List Cursor}
variable (hinside : ∀ body ∈ inner, IsTraceOf inside body.read)

include hinside

theorem orderly_atomRounds {s : State} {ch : Char} {c : Cursor}
    (first : s.cursor.next? = some (ch, c)) : Orderly c (atomRounds mode inner inside s) := by
  unfold atomRounds
  simp only [first]
  split
  next =>
    split
    next body o t hopening =>
      exact (hinside body rfl t).1.of_reaches (reaches_of_opening hopening)
    next => exact .nil c
  split
  next => exact (orderly_memberRounds _).of_reaches (reaches_negation c)
  next => exact .nil c

theorem before_atomRounds {s t : State} {r : Regex} (h : atom mode inner s = .ok (r, t)) :
    Before (atomRounds mode inner inside s) t.cursor := by
  unfold atomRounds
  split
  next => exact .nil t.cursor
  next ch c first =>
    simp only [atom, first] at h
    split
    next hch =>
      rw [if_pos hch] at h
      obtain ⟨body, o, u, v, b, d, rfl, hopening, hbody, hclose, -, rfl⟩ := group_eq_ok h
      simp only [hopening]
      have hbefore := (hinside body rfl u).2 b v hbody
      exact hbefore.trans_reaches (advances_of_eat? hclose).reaches
    next hch =>
      rw [if_neg hch] at h
      split
      next hbracket =>
        subst hbracket
        split at h <;> cases h
        next d hatom =>
        obtain ⟨⟨b, d⟩, hbody, heq⟩ := map_eq_ok.mp hatom
        obtain ⟨items, e, hmembers, hnext, -⟩ := bracketBody_eq_ok hbody
        have hbefore := before_memberRounds hmembers
        cases heq
        exact hbefore.trans_reaches (advances_of_next? hnext).reaches
      next => exact .nil t.cursor

theorem isTraceOf_termRounds : IsTraceOf (termRounds mode inner inside) (terms mode inner) := by
  intro s
  fun_induction termRounds mode inner inside s with
  | case1 s last => exact ⟨.nil s.cursor, fun _ t _ => .nil t.cursor⟩
  | case2 s more e hterm =>
    obtain ⟨ch, c, first⟩ := exists_next? (peek?_ne_none more)
    constructor
    · exact (orderly_atomRounds hinside first).cons (rest_ne_nil_of_next? first)
        (advances_of_next? first)
    · intro rs u h
      rw [terms_eq, if_neg more] at h
      simp only [hterm] at h
      cases h
  | case3 s more r t hterm ih =>
    obtain ⟨ch, c, first⟩ := exists_next? (peek?_ne_none more)
    obtain ⟨a, v, hatom, hrepeated, -⟩ := term_eq_ok hterm
    have hadvances := advances_of_term (peek?_ne_none more) hterm
    have hatomRounds : Orderly c (atomRounds mode inner inside s) :=
      orderly_atomRounds hinside first
    have hbefore : Before (atomRounds mode inner inside s) t.cursor :=
      (before_atomRounds hinside hatom).trans_reaches (reaches_of_repeated hrepeated)
    constructor
    · have hmore := hatomRounds.append hbefore (reaches_of_next? hadvances first) ih.1
      exact hmore.cons (rest_ne_nil_of_next? first) (advances_of_next? first)
    · intro rs u h
      rw [terms_eq, if_neg more] at h
      simp only [hterm] at h
      split at h
      next => cases h
      next hmore =>
        cases h
        have hreaches := reaches_of_terms hmore
        apply Before.cons
        · exact (hbefore.trans_reaches hreaches).append (ih.2 _ _ hmore)
        · exact hadvances.trans_reaches hreaches

omit hinside in
theorem terms_of_alternative {s t : State} {r : Regex}
    (h : alternative mode inner s = .ok (r, t)) : ∃ rs, terms mode inner s = .ok (rs, t) := by
  unfold alternative at h
  split at h <;> cases h
  exact ⟨_, ‹_›⟩

theorem isTraceOf_barRounds :
    IsTraceOf (barRounds mode inner inside) (alternatives mode inner) := by
  intro s
  have hterms : IsTraceOf (termRounds mode inner inside) (terms mode inner) :=
    isTraceOf_termRounds hinside
  fun_induction barRounds mode inner inside s with
  | case1 s e halternative =>
    refine ⟨(hterms s).1, ?_⟩
    intro rs u h
    rw [alternatives_eq] at h
    simp only [halternative] at h
    cases h
  | case2 s r t halternative hbar =>
    refine ⟨(hterms s).1, ?_⟩
    intro rs u h
    rw [alternatives_eq] at h
    simp only [halternative, hbar] at h
    cases h
    obtain ⟨qs, hqs⟩ := terms_of_alternative halternative
    exact (hterms s).2 qs t hqs
  | case3 s r t halternative c hbar ih =>
    obtain ⟨qs, hqs⟩ := terms_of_alternative halternative
    have hbefore : Before (termRounds mode inner inside s) t.cursor := (hterms s).2 qs t hqs
    have hadvances : t.cursor.Advances c := advances_of_eat? hbar
    constructor
    · have hbarRound : Orderly t.cursor
          (t.cursor :: barRounds mode inner inside { t with cursor := c }) :=
        ih.1.cons (rest_ne_nil_of_eat? hbar) hadvances
      exact (hterms s).1.append hbefore (reaches_of_alternative halternative) hbarRound
    · intro rs u h
      rw [alternatives_eq] at h
      simp only [halternative, hbar] at h
      split at h
      next => cases h
      next hmore =>
        cases h
        have hreaches : t.cursor.Advances u.cursor :=
          hadvances.trans_reaches (reaches_of_alternatives hmore)
        exact (hbefore.trans_reaches hreaches.reaches).append ((ih.2 _ _ hmore).cons hreaches)

end

theorem isTraceOf_insideRounds (mode : Mode) (levels : Nat) :
    ∀ body ∈ innerReader mode levels, IsTraceOf (insideRounds mode levels) body.read := by
  induction levels with
  | zero => exact nofun
  | succ levels ih =>
    rintro _ ⟨⟩ s
    have hbars : IsTraceOf (insideRounds mode (levels + 1))
        (alternatives mode (innerReader mode levels)) := isTraceOf_barRounds ih
    refine ⟨(hbars s).1, ?_⟩
    intro r t h
    obtain ⟨rs, hrs, -⟩ := read_eq_ok_iff.mp h
    exact (hbars s).2 rs t hrs.alternatives_eq

/-! ### Terms on the way -/

section

variable {mode : Mode} {inner : Option BodyReader} {inside : State → List Cursor}
variable {s t : State} {c : Cursor}

theorem mem_termRounds_of_more (more : ¬endsAlternative s.cursor)
    (hc : c = s.cursor ∨ c ∈ atomRounds mode inner inside s) :
    c ∈ termRounds mode inner inside s := by
  rw [termRounds, dif_neg more]
  rw [← List.mem_cons] at hc
  split
  next => exact hc
  next => exact List.mem_append_left _ hc

theorem mem_termRounds_of_term {r : Regex} (more : ¬endsAlternative s.cursor)
    (head : term mode inner s = .ok (r, t)) (hc : c ∈ termRounds mode inner inside t) :
    c ∈ termRounds mode inner inside s := by
  rw [termRounds, dif_neg more]
  split
  next hterm =>
    rw [head] at hterm
    cases hterm
  next hterm =>
    rw [head] at hterm
    cases hterm
    exact List.mem_cons_of_mem _ (List.mem_append_right _ hc)

theorem mem_barRounds_of_terms (hc : c ∈ termRounds mode inner inside s) :
    c ∈ barRounds mode inner inside s := by
  rw [barRounds]
  split
  next => exact hc
  next =>
    split
    next => exact hc
    next => exact List.mem_append_left _ hc

theorem mem_barRounds_of_bar {r : Regex} {d : Cursor} (head : alternative mode inner s = .ok (r, t))
    (bar : t.cursor.eat? '|' = some d)
    (hc : c = t.cursor ∨ c ∈ barRounds mode inner inside { t with cursor := d }) :
    c ∈ barRounds mode inner inside s := by
  rw [← List.mem_cons] at hc
  rw [barRounds]
  split
  next halternative =>
    rw [head] at halternative
    cases halternative
  next halternative =>
    rw [head] at halternative
    cases halternative
    split
    next hnone =>
      rw [bar] at hnone
      cases hnone
    next hbar =>
      rw [bar] at hbar
      cases hbar
      exact List.mem_append_right _ hc

theorem ReadsRun.mem_termRounds {levels : Nat} {rs : List Regex}
    (run : ReadsRun mode levels s rs t)
    (hc : c ∈ termRounds mode (innerReader mode levels) inside t) :
    c ∈ termRounds mode (innerReader mode levels) inside s := by
  induction run with
  | nil => exact hc
  | cons more head tail ih => exact mem_termRounds_of_term more head.term_eq (ih hc)

/-- Every term that a reading comes to begins a round. -/
theorem ComesTo.mem_insideRounds {levels l : Nat} (comes : ComesTo mode levels s l t) :
    t.cursor ∈ insideRounds mode (levels + 1) s := by
  induction comes with
  | here run more =>
    apply mem_barRounds_of_terms
    exact run.mem_termRounds (mem_termRounds_of_more more (.inl rfl))
  | @bar levels l s t u rs c terms bar tail ih =>
    have head : alternative mode (innerReader mode levels) s =
        .ok (sequence rs (t.cursor.spanSince s.cursor.position), t) := by
      simp only [alternative, terms.terms_eq]
    exact mem_barRounds_of_bar head bar (.inr ih)
  | @group levels l s t u v rs o c run first opened inside ih =>
    have hatom : v.cursor ∈ atomRounds mode (innerReader mode (levels + 1))
        (insideRounds mode (levels + 1)) t := by
      simp only [atomRounds, first, if_true, innerReader_succ, opened]
      exact ih
    have more : ¬endsAlternative t.cursor := not_endsAlternative first (by decide) (by decide)
    apply mem_barRounds_of_terms
    exact run.mem_termRounds (mem_termRounds_of_more more (.inr hatom))

end

/-! ### Readings that step back -/

/-- A brace that opens no counted quantifier is not read as one, and as an atom it is read alone. -/
theorem repeated_of_braces? {unicode : Bool} {c d : Cursor} (hopen : c.eat? '{' = some d)
    (h : braces? unicode c = .ok none) (start : Nat) (r : Regex) :
    repeated unicode start r c = .ok (r, c) ∧
      braceAtom unicode c d = .ok (.char '{' false (d.spanSince c.position), d) := by
  have hcount : count? unicode c = .ok none := by
    simp [count?, next?_of_eat? hopen, h]
  constructor
  · simp only [repeated, quantifier?, hcount]
  · simp only [braceAtom, h]

/-- Terms and members of classes that are read take up text. A brace that opens no counted
quantifier is given back, and then the next atom takes it up. -/
structure Progress (mode : Mode) : Prop where
  term (inner : Option BodyReader) {s t : State} {r : Regex} (more : ¬endsAlternative s.cursor)
    (h : term mode inner s = .ok (r, t)) : s.cursor.position < t.cursor.position
  classAtom (opening : Nat) {a : ClassAtom} {c d : Cursor}
    (h : classAtom mode.unicode opening c = .ok (a, d)) : c.position < d.position
  braces (start : Nat) (r : Regex) {c d : Cursor} (hopen : c.eat? '{' = some d)
    (h : braces? mode.unicode c = .ok none) :
    repeated mode.unicode start r c = .ok (r, c) ∧
      braceAtom mode.unicode c d = .ok (.char '{' false (d.spanSince c.position), d)

theorem progress (mode : Mode) : Progress mode where
  term _ _ _ _ more h := (advances_of_term (peek?_ne_none more) h).position_lt
  classAtom _ _ _ _ h := (advances_of_classAtom h).position_lt
  braces start r _ _ hopen h := repeated_of_braces? hopen h start r

end Grammar

namespace Pattern

variable (unicode : Bool) (text : String)

/-- Where in the text the rounds of the loops begin while it is read as a pattern. -/
def rounds : List Nat :=
  (Grammar.insideRounds ⟨unicode, .ofString text⟩ (nestingLimit + 1)
    { cursor := .ofString text }).map Cursor.position

/-- The text is read to its end, or else there is a reason why it is not a pattern. -/
def Decided : Prop :=
  (∃ p rs t, Pattern.parse unicode text = .ok p ∧
    Grammar.ReadsAlternatives ⟨unicode, .ofString text⟩ nestingLimit
        { cursor := .ofString text } rs t ∧
      t.cursor.rest = []) ∨
  ∃ e, Pattern.parse unicode text = .error e ∧
    ((∃ levels s, Pattern.ComesTo unicode text levels s ∧
      Grammar.FailsAt ⟨unicode, .ofString text⟩ levels s e) ∨
    e.cause = .unmatchedParenthesis ∨ ∃ name, e.cause = .undefinedGroupName name)

theorem decided : Pattern.Decided unicode text := by
  cases h : Pattern.parse unicode text with
  | ok p =>
    obtain ⟨rs, t, hrs, hend, -⟩ := Pattern.parse_eq_ok h
    exact .inl ⟨p, rs, t, h, hrs, hend⟩
  | error e => exact .inr ⟨e, h, Pattern.exists_failsAt h⟩

/-- Every reading moves on. No two rounds of the loops begin at the same position, so that there
are at most as many as characters, whether or not the text is a pattern; and each term is among
them. -/
theorem parse_progress :
    Grammar.Progress ⟨unicode, .ofString text⟩ ∧
      (Pattern.rounds unicode text).Pairwise (· < ·) ∧
      (Pattern.rounds unicode text).length ≤ text.length ∧
      (∀ levels s, Pattern.ComesTo unicode text levels s →
        s.cursor.position ∈ Pattern.rounds unicode text) ∧
      Pattern.Decided unicode text := by
  have htrace := Grammar.isTraceOf_insideRounds ⟨unicode, .ofString text⟩ (nestingLimit + 1)
  have horderly := (htrace _ rfl { cursor := .ofString text }).1
  refine ⟨Grammar.progress _, ?_, ?_, ?_, Pattern.decided unicode text⟩
  · apply List.pairwise_map.mpr
    exact horderly.onward.imp Cursor.Advances.position_lt
  · rw [Pattern.rounds, List.length_map]
    exact horderly.length_le
  · intro levels s comes
    exact List.mem_map_of_mem (Grammar.ComesTo.mem_insideRounds comes)

/-- A brace that stands for itself, a control escape without its letter before a range, and then a
group that is not closed. -/
example : Pattern.rounds false "a\x7b1,|[^\\c-z]([b]" = [0, 1, 2, 3, 4, 5, 7, 8, 12, 13, 14] := by
  decide +kernel

end Pattern

end PatternBlocks
