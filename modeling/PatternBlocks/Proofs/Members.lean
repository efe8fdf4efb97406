import Mathlib.Data.List.Nodup
import PatternBlocks.Json.Basic

/-!
Members of JSON values. A field is read at most once, whatever else an object says, and a list of
fields in their order is read like the object that names them.
-/
namespace PatternBlocks.Json

variable {fields : List String} {members : List (String × Json)}

/-! ### Fields -/

theorem map_fst_zip_sublist :
    (fields : List String) → (items : List Json) → ((fields.zip items).map (·.1)).Sublist fields
  | [], _ => .slnil
  | _ :: _, [] => List.nil_sublist _
  | _ :: fields, _ :: items => (map_fst_zip_sublist fields items).cons_cons _

/-- Only the members that are fields matter. -/
theorem members?_congr {others : List (String × Json)}
    (h : others.filter (fields.contains ·.1) = members.filter (fields.contains ·.1)) :
    (object others).members? fields = (object members).members? fields := by
  simp only [members?, h]

/-- Members that stand in the order of the fields are all read. -/
theorem members?_of_sublist (h : (members.map (·.1)).Sublist fields) (hfields : fields.Nodup) :
    (object members).members? fields = some members := by
  have hknown : members.filter (fields.contains ·.1) = members := by
    rw [List.filter_eq_self]
    intro m hm
    rw [List.contains_iff_mem]
    exact h.subset (List.mem_map_of_mem hm)
  simp only [members?, hknown]
  exact if_pos (h.nodup hfields)

/-- Whatever is read has the names of fields, and none of them twice. -/
theorem distinct_of_members? {j : Json} (h : j.members? fields = some members)
    (hfields : fields.Nodup) :
    (members.map (·.1)).Nodup ∧ ∀ m ∈ members, m.1 ∈ fields := by
  unfold members? at h
  split at h
  next =>
    dsimp only at h
    split at h <;> cases h
    next hnodup =>
      refine ⟨hnodup, fun m hm => ?_⟩
      rw [← List.contains_iff_mem]
      exact (List.mem_filter.mp hm).2
  next items =>
    split at h <;> cases h
    exact ⟨(map_fst_zip_sublist fields items).nodup hfields, fun m hm => (List.of_mem_zip hm).1⟩
  next => cases h

/-- An object that gives a field twice is refused. -/
theorem members?_eq_none_of_repeated {name : String} (hname : name ∈ fields)
    (h : 1 < (members.map (·.1)).count name) : (object members).members? fields = none := by
  have hfilter : (members.filter (fields.contains ·.1)).map (·.1) =
      (members.map (·.1)).filter fields.contains := by
    rw [List.filter_map]
    rfl
  have hrepeated : ¬((members.filter (fields.contains ·.1)).map (·.1)).Nodup := by
    intro hnodup
    have hcount := List.nodup_iff_count.mp hnodup name
    rw [hfilter, List.count_filter (List.contains_iff_mem.mpr hname)] at hcount
    omega
  simp only [members?]
  exact if_neg hrepeated

/-! ### Tagged values -/

section Tagged

variable {inner : Bool} {key kind : String} {kinds : List (String × List String)}

theorem length_filter_key :
    (members.filter (·.1 = key)).length = (members.map (·.1)).count key := by
  rw [List.count, List.countP_map, List.countP_eq_length_filter]
  rfl

/-- The tag may stand anywhere among the members. -/
theorem untag?_of_mem {tag : Json} (hmem : (key, tag) ∈ members)
    (h : (members.map (·.1)).count key = 1) :
    (object members).untag? key = some (tag, object members) := by
  rw [← length_filter_key] at h
  obtain ⟨m, hm⟩ := List.length_eq_one_iff.mp h
  have htag : (key, tag) ∈ members.filter (·.1 = key) := List.mem_filter.mpr ⟨hmem, by simp⟩
  rw [hm, List.mem_singleton] at htag
  simp only [untag?, hm, ← htag]

theorem untag?_eq_none_of_repeated (h : 1 < (members.map (·.1)).count key) :
    (object members).untag? key = none := by
  rw [← length_filter_key] at h
  simp only [untag?]
  split
  next heq =>
    rw [heq] at h
    exact absurd h (Nat.lt_irrefl _)
  next => rfl

theorem tagged?_of_untag? {content j : Json} (h : j.untag? key = some (string kind, content))
    (hkind : kinds.lookup kind = some fields) :
    j.tagged? inner key kinds = (content.members? fields).map (kind, ·) := by
  cases hmembers : content.members? fields <;>
    simp [tagged?, h, tag?, hkind, hmembers]

theorem nodup_of_lookup (hkinds : ∀ x ∈ kinds, (key :: x.2).Nodup)
    (hkind : kinds.lookup kind = some fields) : (key :: fields).Nodup := by
  obtain ⟨before, after, hsplit, -⟩ := List.lookup_eq_some_iff.mp hkind
  have hmem : (kind, fields) ∈ kinds := hsplit ▸ List.mem_append_right _ List.mem_cons_self
  exact hkinds _ hmem

/-- A tag with the fields of its kind behind it, in their order. -/
theorem tagged?_object (hkinds : ∀ x ∈ kinds, (key :: x.2).Nodup)
    (hkind : kinds.lookup kind = some fields) (h : (members.map (·.1)).Sublist fields) :
    (object ((key, string kind) :: members)).tagged? inner key kinds = some (kind, members) := by
  obtain ⟨hkey, hdistinct⟩ := List.nodup_cons.mp (nodup_of_lookup hkinds hkind)
  have hother : key ∉ members.map (·.1) := fun hmem => hkey (h.subset hmem)
  have htag : (object ((key, string kind) :: members)).untag? key =
      some (string kind, object ((key, string kind) :: members)) := by
    apply untag?_of_mem List.mem_cons_self
    rw [List.map_cons, List.count_cons_self, List.count_eq_zero_of_not_mem hother]
  have hmembers : (object ((key, string kind) :: members)).members? fields = some members := by
    rw [← members?_of_sublist h hdistinct]
    apply members?_congr
    rw [List.filter_cons_of_neg]
    rwa [List.contains_iff_mem]
  rw [tagged?_of_untag? htag hkind, hmembers]
  rfl

/-- A list has room for the fields of its kind. -/
theorem tagged?_array (hkind : kinds.lookup kind = some fields) (items : List Json) :
    (array (string kind :: items)).tagged? inner key kinds =
      if items.length ≤ fields.length then some (kind, fields.zip items) else none := by
  have htag : (array (string kind :: items)).untag? key = some (string kind, array items) := rfl
  rw [tagged?_of_untag? htag hkind, members?]
  split <;> rfl

/-- A tag and fields in their order are read like an object with these fields. -/
theorem tagged?_array_eq_object (hkinds : ∀ x ∈ kinds, (key :: x.2).Nodup)
    (hkind : kinds.lookup kind = some fields) {items : List Json}
    (h : items.length ≤ fields.length) :
    (array (string kind :: items)).tagged? inner key kinds =
      (object ((key, string kind) :: fields.zip items)).tagged? inner key kinds := by
  rw [tagged?_array hkind, if_pos h, tagged?_object hkinds hkind (map_fst_zip_sublist fields items)]

/-- An object that gives its tag or a field of its kind twice is refused. -/
theorem tagged?_eq_none_of_repeated (hkind : kinds.lookup kind = some fields)
    (hmem : (key, string kind) ∈ members) {name : String} (hname : name ∈ key :: fields)
    (h : 1 < (members.map (·.1)).count name) :
    (object members).tagged? inner key kinds = none := by
  by_cases htag : 1 < (members.map (·.1)).count key
  · simp [tagged?, untag?_eq_none_of_repeated htag]
  · have hpos : 0 < (members.map (·.1)).count key :=
      List.count_pos_iff.mpr (List.mem_map_of_mem hmem)
    have hone : (members.map (·.1)).count key = 1 := by omega
    have hfield : name ∈ fields := by
      obtain rfl | hfield := List.mem_cons.mp hname
      · exact absurd h htag
      · exact hfield
    rw [tagged?_of_untag? (untag?_of_mem hmem hone) hkind,
      members?_eq_none_of_repeated hfield h]
    rfl

end Tagged

end PatternBlocks.Json
