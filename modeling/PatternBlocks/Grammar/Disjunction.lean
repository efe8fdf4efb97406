import PatternBlocks.Grammar.Atom
import PatternBlocks.Grammar.Group

/-!
Terms, alternatives and disjunctions. The loops end because each step reads on, and the reader of
a body is made from the one with a level of nesting less.
-/
namespace PatternBlocks.Grammar

def atom (mode : Mode) (inner : Option BodyReader) (s : State) : Step Regex :=
  match s.cursor.next? with
  | none => .ok (.empty (.point s.cursor.position), s)
  | some (ch, c) =>
    if ch = '(' then group inner s.cursor.position { s with cursor := c }
    else
      match plainAtom mode ch s.cursor c with
      | .error e => .error e
      | .ok (r, d) => .ok (r, { s.note r with cursor := d })

/-- Lookaheads may be repeated outside unicode mode only. -/
def mayRepeat (unicode : Bool) : Regex → Bool
  | .assertion .. => false
  | .look direction .. => direction = .ahead && !unicode
  | _ => true

/-- Reads a quantifier and applies it to the atom before it. -/
def repeated (unicode : Bool) (start : Nat) (r : Regex) (c : Cursor) : Reading Regex :=
  match quantifier? unicode c with
  | .error e => .error e
  | .ok none => .ok (r, c)
  | .ok (some ((count, greedy), d)) =>
    if mayRepeat unicode r then .ok (.repetition count greedy r (d.spanSince start), d)
    else d.fail .nothingToRepeat c.position

def term (mode : Mode) (inner : Option BodyReader) (s : State) : Step Regex :=
  match atom mode inner s with
  | .error e => .error e
  | .ok (r, t) => keepGroups t (repeated mode.unicode s.cursor.position r t.cursor)

theorem keepGroups_eq_ok {α : Type} {s t : State} {x : Reading α} {a : α}
    (h : keepGroups s x = .ok (a, t)) :
    x = .ok (a, t.cursor) ∧ t = { s with cursor := t.cursor } := by
  cases x with
  | error => cases h
  | ok p =>
    cases h
    exact ⟨rfl, rfl⟩

theorem reaches_of_repeated {unicode : Bool} {start : Nat} {r r' : Regex} {c d : Cursor}
    (h : repeated unicode start r c = .ok (r', d)) : c.Reaches d := by
  unfold repeated at h
  split at h
  next => cases h
  next =>
    cases h
    exact .refl _
  next he =>
    split at h <;> cases h
    exact (advances_of_quantifier? he).reaches

theorem advances_of_atom {mode : Mode} {inner : Option BodyReader} {r : Regex} {s t : State}
    (hs : s.cursor.peek? ≠ none) (h : atom mode inner s = .ok (r, t)) :
    s.cursor.Advances t.cursor := by
  unfold atom at h
  split at h
  next hn =>
    refine absurd ?_ hs
    obtain ⟨⟨rest, position⟩⟩ := s
    cases rest with
    | nil => rfl
    | cons => simp [Cursor.next?] at hn
  next hc =>
    have hsc := Cursor.advances_of_next? hc
    split at h
    next => exact hsc.trans_reaches (advances_of_group h).reaches
    next =>
      split at h <;> cases h
      exact advances_of_plainAtom hsc ‹_›

theorem advances_of_term {mode : Mode} {inner : Option BodyReader} {r : Regex} {s t : State}
    (hs : s.cursor.peek? ≠ none) (h : term mode inner s = .ok (r, t)) :
    s.cursor.Advances t.cursor := by
  unfold term at h
  split at h
  next => cases h
  next hu =>
    exact (advances_of_atom hs hu).trans_reaches (reaches_of_repeated (keepGroups_eq_ok h).1)

/-- An alternative ends at a bar, at a closing parenthesis or with the pattern. -/
def endsAlternative (c : Cursor) : Bool := c.peek?.all fun ch => ch = '|' || ch = ')'

theorem peek?_ne_none {c : Cursor} (h : ¬endsAlternative c) : c.peek? ≠ none := by
  intro hn
  simp [endsAlternative, hn] at h

def terms (mode : Mode) (inner : Option BodyReader) (s : State) : Step (List Regex) :=
  if _h : endsAlternative s.cursor then .ok ([], s)
  else
    match _h : term mode inner s with
    | .error e => .error e
    | .ok (r, t) =>
      match terms mode inner t with
      | .error e => .error e
      | .ok (rs, u) => .ok (r :: rs, u)
termination_by s.cursor.rest.length
decreasing_by exact (advances_of_term (peek?_ne_none ‹_›) ‹_›).length_lt

theorem terms_eq (mode : Mode) (inner : Option BodyReader) (s : State) :
    terms mode inner s =
      if endsAlternative s.cursor then .ok ([], s)
      else
        match term mode inner s with
        | .error e => .error e
        | .ok (r, t) =>
          match terms mode inner t with
          | .error e => .error e
          | .ok (rs, u) => .ok (r :: rs, u) := by
  rw [terms]
  split
  next => rfl
  next => split <;> simp only [*]

theorem reaches_of_terms {mode : Mode} {inner : Option BodyReader} {rs : List Regex}
    {s t : State} (h : terms mode inner s = .ok (rs, t)) : s.cursor.Reaches t.cursor := by
  fun_induction terms mode inner s generalizing rs with
  | case1 =>
    cases h
    exact .refl _
  | case2 => cases h
  | case3 => cases h
  | case4 s hs r u hu rs' v hv ih =>
    cases h
    exact (advances_of_term (peek?_ne_none hs) hu).reaches.trans (ih hv)

/-- A sequence of one expression is that expression. -/
def sequence (rs : List Regex) (span : Span) : Regex :=
  match rs with
  | [] => .empty (.point span.start)
  | [r] => r
  | rs => .concat rs span

def alternative (mode : Mode) (inner : Option BodyReader) (s : State) : Step Regex :=
  match terms mode inner s with
  | .error e => .error e
  | .ok (rs, t) => .ok (sequence rs (t.cursor.spanSince s.cursor.position), t)

theorem reaches_of_alternative {mode : Mode} {inner : Option BodyReader} {r : Regex}
    {s t : State} (h : alternative mode inner s = .ok (r, t)) : s.cursor.Reaches t.cursor := by
  unfold alternative at h
  split at h
  next => cases h
  next hu =>
    cases h
    exact reaches_of_terms hu

/-- Reads one alternative, and another after each bar. -/
def alternatives (mode : Mode) (inner : Option BodyReader) (s : State) :
    Step (Regex × List Regex) :=
  match _ht : alternative mode inner s with
  | .error e => .error e
  | .ok (r, t) =>
    match _hc : t.cursor.eat? '|' with
    | none => .ok ((r, []), t)
    | some c =>
      match alternatives mode inner { t with cursor := c } with
      | .error e => .error e
      | .ok ((r', rs), u) => .ok ((r, r' :: rs), u)
termination_by s.cursor.rest.length
decreasing_by
  exact ((reaches_of_alternative ‹_›).trans_advances (Cursor.advances_of_eat? ‹_›)).length_lt

theorem alternatives_eq (mode : Mode) (inner : Option BodyReader) (s : State) :
    alternatives mode inner s =
      match alternative mode inner s with
      | .error e => .error e
      | .ok (r, t) =>
        match t.cursor.eat? '|' with
        | none => .ok ((r, []), t)
        | some c =>
          match alternatives mode inner { t with cursor := c } with
          | .error e => .error e
          | .ok ((r', rs), u) => .ok ((r, r' :: rs), u) := by
  rw [alternatives]
  split
  next => simp only [*]
  next => split <;> simp only [*]

theorem reaches_of_alternatives {mode : Mode} {inner : Option BodyReader}
    {rs : Regex × List Regex} {s t : State} (h : alternatives mode inner s = .ok (rs, t)) :
    s.cursor.Reaches t.cursor := by
  fun_induction alternatives mode inner s generalizing rs with
  | case1 => cases h
  | case2 s r u hu hc =>
    cases h
    exact reaches_of_alternative hu
  | case3 => cases h
  | case4 s r u hu c hc r' rs' v hv ih =>
    cases h
    exact (reaches_of_alternative hu).trans ((Cursor.advances_of_eat? hc).reaches.trans (ih hv))

/-- A disjunction of one alternative is that alternative. -/
def choice (rs : Regex × List Regex) (span : Span) : Regex :=
  match rs with
  | (r, []) => r
  | (r, rs) => .alternation (r :: rs) span

def disjunction (mode : Mode) (inner : Option BodyReader) (s : State) : Step Regex :=
  match alternatives mode inner s with
  | .error e => .error e
  | .ok (rs, t) => .ok (choice rs (t.cursor.spanSince s.cursor.position), t)

theorem reaches_of_disjunction {mode : Mode} {inner : Option BodyReader} {r : Regex}
    {s t : State} (h : disjunction mode inner s = .ok (r, t)) : s.cursor.Reaches t.cursor := by
  unfold disjunction at h
  split at h
  next => cases h
  next hu =>
    cases h
    exact reaches_of_alternatives hu

/-- The reader of bodies in which groups nest at most `levels` deep. -/
def bodyReader (mode : Mode) : (levels : Nat) → BodyReader
  | 0 => ⟨disjunction mode none, reaches_of_disjunction⟩
  | levels + 1 => ⟨disjunction mode (some (bodyReader mode levels)), reaches_of_disjunction⟩

end PatternBlocks.Grammar
