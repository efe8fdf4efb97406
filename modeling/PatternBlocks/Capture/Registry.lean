/-!
The capture groups opened so far in a pattern, numbered from 1 in order of opening, and an index
from their names to their numbers.
-/
namespace PatternBlocks.Capture

structure Group where
  index : Nat
  name : Option String
  deriving DecidableEq, Repr

/-- Before the first group no name is taken. -/
theorem lookup_empty (name : String) :
    ([] : List (String × Nat)).lookup name =
      ((#[] : Array Group).find? (·.name = some name)).map Group.index :=
  rfl

structure Registry where
  groups : Array Group := #[]
  /-- The names that are taken, with the numbers of their groups. -/
  taken : List (String × Nat) := []
  lookup_taken (name : String) :
    taken.lookup name = (groups.find? (·.name = some name)).map Group.index := by
      exact PatternBlocks.Capture.lookup_empty
  deriving DecidableEq, Repr

/-- A name that an earlier group has taken. -/
structure NameTaken where
  name : String
  deriving DecidableEq, Repr

def NameTaken.message (e : NameTaken) : String := s!"group name '{e.name}' is already in use"

namespace Registry

def size (r : Registry) : Nat := r.groups.size

def names (r : Registry) : List String := r.groups.toList.filterMap Group.name

/-- The index of the group with this name. -/
def index? (r : Registry) (name : String) : Option Nat := r.taken.lookup name

def hasName (r : Registry) (name : String) : Bool := (r.index? name).isSome

/-- Enters the next group, and its name if it has one. -/
def push (r : Registry) (name : Option String) : Registry where
  groups := r.groups.push ⟨r.size + 1, name⟩
  taken := r.taken ++ (name.map (·, r.size + 1)).toList
  lookup_taken n := by
    rw [List.lookup_append, r.lookup_taken, ← Array.find?_toList, ← Array.find?_toList,
      Array.toList_push, List.find?_append, Option.map_or]
    congr 1
    cases name with
    | none => simp
    | some m =>
      by_cases h : m = n
      · simp [h]
      · simp [h, Ne.symm h]

/-- Numbers the next group. A rejected name consumes no number, and the registry stays as it is. -/
def enrol (r : Registry) (name : Option String) : Except NameTaken Nat × Registry :=
  match name with
  | none => (.ok (r.size + 1), r.push none)
  | some n => if r.hasName n then (.error ⟨n⟩, r) else (.ok (r.size + 1), r.push (some n))

/-- The same within a reading, which ends with the first error. -/
def register (r : Registry) (name : Option String) : Except NameTaken (Nat × Registry) :=
  match r.enrol name with
  | (.error e, _) => .error e
  | (.ok index, s) => .ok (index, s)

/-- Everything that a registration can do. -/
theorem enrol_cases (r : Registry) (name : Option String) :
    (∃ n, name = some n ∧ r.hasName n ∧ r.enrol name = (.error ⟨n⟩, r)) ∨
      ((∀ n, name = some n → ¬r.hasName n) ∧
        r.enrol name = (.ok (r.size + 1), r.push name)) := by
  cases name with
  | none =>
    right
    exact ⟨nofun, rfl⟩
  | some n =>
    by_cases htaken : r.hasName n
    · left
      refine ⟨n, rfl, htaken, ?_⟩
      simp only [enrol, htaken, if_true]
    · right
      refine ⟨?_, ?_⟩
      · rintro _ ⟨⟩
        exact htaken
      · simp only [enrol, htaken, Bool.false_eq_true, if_false]

theorem register_cases (r : Registry) (name : Option String) :
    (∃ n, name = some n ∧ r.hasName n ∧ r.register name = .error ⟨n⟩) ∨
      ((∀ n, name = some n → ¬r.hasName n) ∧
        r.register name = .ok (r.size + 1, r.push name)) := by
  obtain ⟨n, hname, htaken, heq⟩ | ⟨hnew, heq⟩ := r.enrol_cases name
  · left
    exact ⟨n, hname, htaken, by rw [register, heq]⟩
  · right
    exact ⟨hnew, by rw [register, heq]⟩

end Registry

end PatternBlocks.Capture
