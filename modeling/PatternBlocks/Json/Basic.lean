/-! JSON values. Only integers from 0 on have a value; other numbers stay as they are written. -/
namespace PatternBlocks

inductive Json where
  | null
  | bool (b : Bool)
  | natural (n : Nat)
  | number (digits : String)
  | string (s : String)
  | array (items : List Json)
  | object (members : List (String × Json))

namespace Json

def bool? : Json → Option Bool
  | .bool b => some b
  | _ => none

def string? : Json → Option String
  | .string s => some s
  | _ => none

/-- A number that fits into 32 bits. -/
def word? : Json → Option UInt32
  | .natural n => if n < UInt32.size then some (UInt32.ofNat n) else none
  | _ => none

def array? : Json → Option (List Json)
  | .array items => some items
  | _ => none

/-- A word, or an object that has the word as its only key and says no more about it. -/
def keyword? : Json → Option String
  | .string s => some s
  | .object [(s, .null)] => some s
  | .object [(s, .object [])] => some s
  | _ => none

/-- The tag of an object. Inside another tagged object it may also be a number that counts the
possible tags from 0. -/
def tag? (inner : Bool) (tags : List String) : Json → Option String
  | .string s => some s
  | .natural n => if inner then tags[n]? else none
  | _ => none

/-- The members of an object that are among the fields, none of which may be given twice. A list
gives the fields in their order from the first on. -/
def members? (fields : List String) : Json → Option (List (String × Json))
  | .object members =>
    let known := members.filter (fields.contains ·.1)
    if (known.map (·.1)).Nodup then some known else none
  | .array items => if items.length ≤ fields.length then some (fields.zip items) else none
  | _ => none

/-- The tag of a value and what stands beside it. An object has its tag as a member, which may not
be given twice, and a list has it in front. -/
def untag? (key : String) : Json → Option (Json × Json)
  | .object members =>
    match members.filter (·.1 = key) with
    | [(_, tag)] => some (tag, .object members)
    | _ => none
  | .array (tag :: items) => some (tag, .array items)
  | _ => none

/-- The kind of a tagged value and the members that belong to it, given the fields of each kind. -/
def tagged? (inner : Bool) (key : String) (kinds : List (String × List String)) (j : Json) :
    Option (String × List (String × Json)) := do
  let (tag, content) ← j.untag? key
  let kind ← tag.tag? inner (kinds.map (·.1))
  let fields ← kinds.lookup kind
  return (kind, ← content.members? fields)

def member? (key : String) (j : Json) : Option Json :=
  match j with
  | .object members => members.lookup key
  | _ => none

/-- The value of a member that has to be there. -/
def required? {α : Type} (read : Json → Option α) (key : String)
    (members : List (String × Json)) : Option α :=
  (members.lookup key).bind read

/-- The value of a member, or a default without it. -/
def optional? {α : Type} (read : Json → Option α) (default : α) (key : String)
    (members : List (String × Json)) : Option α :=
  match members.lookup key with
  | none => some default
  | some j => read j

/-- A text that may be missing or null. -/
def nullable? : Json → Option (Option String)
  | .null => some none
  | j => j.string?.map some

theorem sizeOf_lt_of_members? {fields : List String} {j v : Json} {key : String}
    {members : List (String × Json)} (h : j.members? fields = some members)
    (hv : (key, v) ∈ members) : sizeOf v < sizeOf j := by
  unfold members? at h
  split at h
  next =>
    dsimp only at h
    split at h <;> cases h
    have := List.sizeOf_lt_of_mem (List.mem_filter.mp hv).1
    simp only [Prod.mk.sizeOf_spec, Json.object.sizeOf_spec] at this ⊢
    omega
  next =>
    split at h <;> cases h
    have := List.sizeOf_lt_of_mem (List.of_mem_zip hv).2
    simp only [Json.array.sizeOf_spec]
    omega
  next => cases h

theorem sizeOf_le_of_untag? {key : String} {j tag content : Json}
    (h : j.untag? key = some (tag, content)) : sizeOf content ≤ sizeOf j := by
  unfold untag? at h
  split at h
  next =>
    split at h <;> cases h
    exact Nat.le_refl _
  next =>
    cases h
    simp only [Json.array.sizeOf_spec, List.cons.sizeOf_spec]
    omega
  next => cases h

/-- The members of a tagged value are parts of it. -/
theorem sizeOf_lt_of_tagged? {inner : Bool} {key field kind : String} {j v : Json}
    {kinds : List (String × List String)} {members : List (String × Json)}
    (h : j.tagged? inner key kinds = some (kind, members))
    (hv : members.lookup field = some v) : sizeOf v < sizeOf j := by
  simp only [tagged?, Option.bind_eq_bind, Option.bind_eq_some_iff, Option.pure_def] at h
  obtain ⟨⟨tag, content⟩, hcontent, _, -, fields, -, _, hmembers, heq⟩ := h
  cases heq
  obtain ⟨before, after, hsplit, -⟩ := List.lookup_eq_some_iff.mp hv
  have hmem : (field, v) ∈ members := hsplit ▸ List.mem_append_right _ List.mem_cons_self
  exact Nat.lt_of_lt_of_le (sizeOf_lt_of_members? hmembers hmem) (sizeOf_le_of_untag? hcontent)

end Json

end PatternBlocks
