import PatternBlocks.Grammar.Escape

/-!
Bracket expressions. Errors about a single member start at that member, and an unterminated
expression is reported from its opening bracket.
-/
namespace PatternBlocks.Grammar

/-- A member of a bracket expression before ranges are assembled. -/
inductive ClassAtom where
  | code (n : Nat)
  | escape (kind : ClassEscape)
  | property (property : Property)
  deriving DecidableEq, Repr

def ClassAtom.item : ClassAtom → ClassItem
  | .code n =>
    match char? n with
    | some ch => .char ch
    | none => .codeUnit n
  | .escape kind => .escape kind
  | .property p => .property p

def rangeItem (first last : Nat) : ClassItem :=
  match char? first, char? last with
  | some first, some last => .range first last
  | _, _ => .codeUnitRange first last

/-- Reads what follows a backslash inside brackets. -/
def classEscapeAtom (unicode : Bool) (opening start : Nat) (c : Cursor) : Reading ClassAtom :=
  match c.next? with
  | none => c.fail .unterminatedClass opening
  | some (ch, d) =>
    match ClassEscape.ofLetter? ch with
    | some kind => .ok (.escape kind, d)
    | none =>
      if ch = 'b' then .ok (.code 0x08, d)
      else if unicode && (ch = 'p' || ch = 'P') then
        (propertyEscape (ch = 'P') start d).map fun (p, e) => (.property p, e)
      else if unicode && ch.isDigit && ch ≠ '0' then c.fail .invalidClassEscape start
      else (characterEscape unicode true start c).map fun (n, e) => (.code n, e)

def classAtom (unicode : Bool) (opening : Nat) (c : Cursor) : Reading ClassAtom :=
  match c.next? with
  | none => c.fail .unterminatedClass opening
  | some (ch, d) =>
    if ch = '\\' then classEscapeAtom unicode opening c.position d else .ok (.code ch.toNat, d)

/-- Reads a hyphen that joins two members, which the last one before the bracket does not. -/
def rangeHyphen? (c : Cursor) : Option Cursor :=
  match c.eat? '-' with
  | none => none
  | some d => if d.peek?.all (· = ']') then none else some d

/-- A range needs characters at both ends. Outside unicode mode a hyphen beside a class is
literal. -/
def joinAtoms (unicode : Bool) (start : Nat) (low high : ClassAtom) (c : Cursor) :
    Reading (List ClassItem) :=
  match low, high with
  | .code first, .code last =>
    if last < first then c.fail .rangeOutOfOrder start else .ok ([rangeItem first last], c)
  | low, high =>
    if unicode then c.fail .invalidClassEscape start
    else .ok ([low.item, .char '-', high.item], c)

/-- Reads one member, or two that a hyphen joins. -/
def classMember (unicode : Bool) (opening : Nat) (c : Cursor) : Reading (List ClassItem) :=
  match classAtom unicode opening c with
  | .error e => .error e
  | .ok (low, d) =>
    match rangeHyphen? d with
    | none => .ok ([low.item], d)
    | some e =>
      match classAtom unicode opening e with
      | .error e => .error e
      | .ok (high, f) => joinAtoms unicode c.position low high f

theorem reaches_of_classEscapeAtom {unicode : Bool} {opening start : Nat} {atom : ClassAtom}
    {c d : Cursor} (h : classEscapeAtom unicode opening start c = .ok (atom, d)) :
    c.Reaches d := by
  unfold classEscapeAtom at h
  split at h
  next => cases h
  next ch e he =>
    have hce := (Cursor.advances_of_next? he).reaches
    split at h
    next =>
      cases h
      exact hce
    split at h
    next =>
      cases h
      exact hce
    split at h
    next =>
      cases hp : propertyEscape (ch = 'P') start e with
      | error => simp [hp, Except.map] at h
      | ok p =>
        simp only [hp, Except.map, Except.ok.injEq, Prod.mk.injEq] at h
        obtain ⟨-, rfl⟩ := h
        exact hce.trans (reaches_of_propertyEscape hp)
    split at h
    next => cases h
    next =>
      cases hn : characterEscape unicode true start c with
      | error => simp [hn, Except.map] at h
      | ok n =>
        simp only [hn, Except.map, Except.ok.injEq, Prod.mk.injEq] at h
        obtain ⟨-, rfl⟩ := h
        exact reaches_of_characterEscape hn

theorem advances_of_classAtom {unicode : Bool} {opening : Nat} {atom : ClassAtom} {c d : Cursor}
    (h : classAtom unicode opening c = .ok (atom, d)) : c.Advances d := by
  unfold classAtom at h
  split at h
  next => cases h
  next he =>
    split at h
    next => exact (Cursor.advances_of_next? he).trans_reaches (reaches_of_classEscapeAtom h)
    next =>
      cases h
      exact Cursor.advances_of_next? he

theorem advances_of_rangeHyphen? {c d : Cursor} (h : rangeHyphen? c = some d) :
    c.Advances d := by
  unfold rangeHyphen? at h
  split at h
  next => cases h
  next he =>
    split at h <;> cases h
    exact Cursor.advances_of_eat? he

theorem eq_of_joinAtoms {unicode : Bool} {start : Nat} {low high : ClassAtom}
    {items : List ClassItem} {c d : Cursor}
    (h : joinAtoms unicode start low high c = .ok (items, d)) : c = d := by
  unfold joinAtoms at h
  split at h <;> split at h <;> cases h <;> rfl

theorem advances_of_classMember {unicode : Bool} {opening : Nat} {items : List ClassItem}
    {c d : Cursor} (h : classMember unicode opening c = .ok (items, d)) : c.Advances d := by
  unfold classMember at h
  split at h
  next => cases h
  next he =>
    have hce := advances_of_classAtom he
    split at h
    next =>
      cases h
      exact hce
    next hf =>
      split at h
      next => cases h
      next hg =>
        cases eq_of_joinAtoms h
        exact hce.trans_reaches
          ((advances_of_rangeHyphen? hf).trans_reaches (advances_of_classAtom hg).reaches).reaches

/-- Reads members up to the closing bracket, which is left unread. -/
def classMembers (unicode : Bool) (opening : Nat) (c : Cursor) : Reading (List ClassItem) :=
  match c.peek? with
  | none => c.fail .unterminatedClass opening
  | some ']' => .ok ([], c)
  | some _ =>
    match _h : classMember unicode opening c with
    | .error e => .error e
    | .ok (items, d) =>
      match classMembers unicode opening d with
      | .error e => .error e
      | .ok (more, e) => .ok (items ++ more, e)
termination_by c.rest.length
decreasing_by exact (advances_of_classMember ‹_›).length_lt

theorem classMembers_eq (unicode : Bool) (opening : Nat) (c : Cursor) :
    classMembers unicode opening c =
      match c.peek? with
      | none => c.fail .unterminatedClass opening
      | some ']' => .ok ([], c)
      | some _ =>
        match classMember unicode opening c with
        | .error e => .error e
        | .ok (items, d) =>
          match classMembers unicode opening d with
          | .error e => .error e
          | .ok (more, e) => .ok (items ++ more, e) := by
  rw [classMembers]
  split
  next => rfl
  next => rfl
  next => split <;> simp only [*]

theorem reaches_of_classMembers {unicode : Bool} {opening : Nat} {items : List ClassItem}
    {c d : Cursor} (h : classMembers unicode opening c = .ok (items, d)) : c.Reaches d := by
  fun_induction classMembers unicode opening c generalizing items with
  | case1 => cases h
  | case2 =>
    cases h
    exact .refl _
  | case3 => cases h
  | case4 => cases h
  | case5 c _ _ _ items' e he more f hf ih =>
    cases h
    exact (advances_of_classMember he).reaches.trans (ih hf)

/-- The hat after the opening bracket negates the class. -/
def negation (c : Cursor) : Bool × Cursor :=
  match c.eat? '^' with
  | none => (false, c)
  | some d => (true, d)

/-- Reads a bracket expression after its opening bracket. -/
def bracketBody (unicode : Bool) (opening : Nat) (c : Cursor) : Reading Bracket :=
  let body := (negation c).2
  match classMembers unicode opening body with
  | .error e => .error e
  | .ok (items, d) =>
    match d.next? with
    | none => d.fail .unterminatedClass opening
    | some (_, e) => .ok (⟨(negation c).1, items, body.textTo d, e.spanSince opening⟩, e)

theorem reaches_negation (c : Cursor) : c.Reaches (negation c).2 := by
  unfold negation
  split
  next => exact .refl _
  next hd => exact (Cursor.advances_of_eat? hd).reaches

theorem reaches_of_bracketBody {unicode : Bool} {opening : Nat} {b : Bracket} {c d : Cursor}
    (h : bracketBody unicode opening c = .ok (b, d)) : c.Reaches d := by
  unfold bracketBody at h
  dsimp only at h
  split at h
  next => cases h
  next he =>
    split at h
    next => cases h
    next hf =>
      cases h
      exact (reaches_negation c).trans
        ((reaches_of_classMembers he).trans (Cursor.advances_of_next? hf).reaches)

end PatternBlocks.Grammar
