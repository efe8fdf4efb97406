import PatternBlocks.Capture.Registry
import PatternBlocks.Cursor.Reach
import PatternBlocks.Regex.Basic
import PatternBlocks.Regex.SyntaxError

/-! Groups and lookarounds, given a reader for what they enclose. -/
namespace PatternBlocks.Grammar

/-- Where the reading stands, and what it has met so far. -/
structure State where
  cursor : Cursor
  groups : Capture.Registry := {}
  /-- The references by name, which are checked when all groups are known. -/
  references : List (String × Span) := []

/-- Notes a reference by name. -/
def State.note (s : State) (r : Regex) : State :=
  { s with references := s.references ++ r.reference?.toList }

abbrev Step (α : Type) := Except SyntaxError (α × State)

/-- A reading that neither opens a group nor refers to one by name. -/
def keepGroups {α : Type} (s : State) : Reading α → Step α
  | .error e => .error e
  | .ok (a, c) => .ok (a, { s with cursor := c })

/-- What an opening parenthesis begins. -/
inductive Opening where
  | group (kind : GroupKind)
  | look (direction : LookDirection) (negated : Bool)
  deriving DecidableEq, Repr

def Opening.close (body : Regex) (span : Span) : Opening → Regex
  | .group kind => .group kind body span
  | .look direction negated => .look direction negated body span

/-- Numbers a capturing group. -/
def capture (name : Option String) (start : Nat) (s : State) : Step Opening :=
  match s.groups.register name with
  | .error e => s.cursor.fail (.duplicateGroupName e.name) start
  | .ok (index, groups) => .ok (.group (.capturing index name), { s with groups })

/-- Reads the name of a group after `(?<`. -/
def namedOpening (start : Nat) (s : State) : Step Opening :=
  match s.cursor.groupName? with
  | none => s.cursor.fail .invalidGroupName start
  | some (name, c) =>
    match c.eat? '>' with
    | none => c.fail .invalidGroupName start
    | some d => capture (some name) start { s with cursor := d }

/-- The openings that are told apart by fixed text after `(?`. -/
def markedOpenings : List (List Char × Opening) :=
  [([':'], .group .nonCapturing), (['='], .look .ahead false), (['!'], .look .ahead true),
    (['<', '='], .look .behind false), (['<', '!'], .look .behind true)]

def markedOpening? (c : Cursor) : Option (Opening × Cursor) :=
  markedOpenings.findSome? fun (mark, opening) => (c.eatAll? mark).map (opening, ·)

/-- Reads what follows an opening parenthesis up to the body of the group. -/
def opening (start : Nat) (s : State) : Step Opening :=
  match s.cursor.eat? '?' with
  | none => capture none start s
  | some c =>
    match markedOpening? c with
    | some (o, d) => .ok (o, { s with cursor := d })
    | none =>
      match c.eat? '<' with
      | some d => namedOpening start { s with cursor := d }
      | none => c.fail .invalidGroup start

/-- A reader of group bodies, which stops at a closing parenthesis or at the end. -/
structure BodyReader where
  read : State → Step Regex
  reaches : ∀ {s t : State} {r : Regex}, read s = .ok (r, t) → s.cursor.Reaches t.cursor

/-- Reads a group after its opening parenthesis. Without a reader for its body the group is nested
too deep. -/
def group (inner : Option BodyReader) (start : Nat) (s : State) : Step Regex :=
  match inner with
  | none => s.cursor.fail .nestingTooDeep start
  | some body =>
    match opening start s with
    | .error e => .error e
    | .ok (o, t) =>
      match body.read t with
      | .error e => .error e
      | .ok (r, u) =>
        match u.cursor.eat? ')' with
        | none => u.cursor.fail .unterminatedGroup start
        | some c => .ok (o.close r (c.spanSince start), { u with cursor := c })

theorem reaches_of_capture {name : Option String} {start : Nat} {o : Opening} {s t : State}
    (h : capture name start s = .ok (o, t)) : s.cursor.Reaches t.cursor := by
  unfold capture at h
  split at h <;> cases h
  exact .refl _

/-- The ways in which a group is opened. Marks are tried before names. -/
inductive ReadsOpening (start : Nat) (s : State) : Opening → State → Prop
  | plain {o : Opening} {t : State} (noMark : s.cursor.eat? '?' = none)
      (numbered : capture none start s = .ok (o, t)) : ReadsOpening start s o t
  | marked {o : Opening} {c d : Cursor} (question : s.cursor.eat? '?' = some c)
      (mark : markedOpening? c = some (o, d)) : ReadsOpening start s o { s with cursor := d }
  | named {name : String} {o : Opening} {c d e f : Cursor} {t : State}
      (question : s.cursor.eat? '?' = some c) (noMark : markedOpening? c = none)
      (angle : c.eat? '<' = some d) (read : d.groupName? = some (name, e))
      (close : e.eat? '>' = some f)
      (numbered : capture (some name) start { s with cursor := f } = .ok (o, t)) :
      ReadsOpening start s o t

theorem readsOpening_of_opening {start : Nat} {o : Opening} {s t : State}
    (h : opening start s = .ok (o, t)) : ReadsOpening start s o t := by
  unfold opening at h
  split at h
  next noMark => exact .plain noMark h
  next question =>
    split at h
    next mark =>
      cases h
      exact .marked question mark
    next noMark =>
      split at h
      next angle =>
        unfold namedOpening at h
        split at h
        next => cases h
        next read =>
          split at h
          next => cases h
          next close => exact .named question noMark angle read close h
      next => cases h

theorem ReadsOpening.opening_eq {start : Nat} {o : Opening} {s t : State}
    (h : ReadsOpening start s o t) : opening start s = .ok (o, t) := by
  cases h with
  | plain noMark numbered => simp only [opening, noMark, numbered]
  | marked question mark => simp only [opening, question, mark]
  | named question noMark angle read close numbered =>
    simp only [opening, question, noMark, angle, namedOpening, read, close, numbered]

theorem markedOpening?_eq_some {o : Opening} {c d : Cursor}
    (h : markedOpening? c = some (o, d)) :
    ∃ mark, (mark, o) ∈ markedOpenings ∧ c.eatAll? mark = some d := by
  obtain ⟨⟨mark, o'⟩, hmem, h⟩ := List.exists_of_findSome?_eq_some h
  obtain ⟨e, he, h⟩ := Option.map_eq_some_iff.mp h
  cases h
  exact ⟨mark, hmem, he⟩

theorem reaches_of_opening {start : Nat} {o : Opening} {s t : State}
    (h : opening start s = .ok (o, t)) : s.cursor.Reaches t.cursor := by
  cases readsOpening_of_opening h with
  | plain _ numbered => exact reaches_of_capture numbered
  | marked question mark =>
    obtain ⟨_, -, hmark⟩ := markedOpening?_eq_some mark
    exact (Cursor.advances_of_eat? question).reaches.trans ⟨_, Cursor.passes_of_eatAll? hmark⟩
  | named question _ angle read close numbered =>
    have hangle := (Cursor.passes_of_eat? question).trans (Cursor.passes_of_eat? angle)
    have hname := (Cursor.passes_of_groupName? read).trans (Cursor.passes_of_eat? close)
    exact Cursor.Reaches.trans ⟨_, hangle.trans hname⟩ (reaches_of_capture numbered)

theorem advances_of_group {inner : Option BodyReader} {start : Nat} {r : Regex} {s t : State}
    (h : group inner start s = .ok (r, t)) : s.cursor.Advances t.cursor := by
  unfold group at h
  split at h
  next => cases h
  next body =>
    split at h
    next => cases h
    next ho =>
      split at h
      next => cases h
      next hb =>
        split at h
        next => cases h
        next hc =>
          cases h
          exact (reaches_of_opening ho).trans_advances
            ((body.reaches hb).trans_advances (Cursor.advances_of_eat? hc))

end PatternBlocks.Grammar
