import Mathlib.Data.List.Basic
import Mathlib.Data.List.Induction
import Mathlib.Data.List.Pairwise
import PatternBlocks.Proofs.Registration

/-!
Runs of registrations. After any number of them the list of groups and the index of names say the
same, and a registration is refused exactly if its name was asked for before. A refusal changes
nothing.
-/
namespace PatternBlocks.Capture.Registry

/-- The registry after registrations made in turn. -/
def enrolAll (r : Registry) (calls : List (Option String)) : Registry :=
  calls.foldl (fun s name => (s.enrol name).2) r

theorem enrolAll_concat (r : Registry) (calls : List (Option String)) (name : Option String) :
    r.enrolAll (calls ++ [name]) = ((r.enrolAll calls).enrol name).2 := by
  simp only [enrolAll, List.foldl_append, List.foldl_cons, List.foldl_nil]

/-! ### One registration -/

section

variable {r : Registry} {name : Option String}

/-- A refusal leaves the registry as it was. -/
theorem enrol_snd_of_error {e : NameTaken} (h : (r.enrol name).1 = .error e) :
    (r.enrol name).2 = r := by
  obtain ⟨n, -, -, heq⟩ | ⟨-, heq⟩ := enrol_cases r name
  · rw [heq]
  · rw [heq] at h
    cases h

theorem WellFormed.enrol (h : r.WellFormed) (name : Option String) :
    (r.enrol name).2.WellFormed := by
  obtain ⟨n, -, -, heq⟩ | ⟨hnew, heq⟩ := enrol_cases r name
  · rw [heq]
    exact h
  · rw [heq]
    exact h.push hnew

theorem size_enrol_le (r : Registry) (name : Option String) :
    (r.enrol name).2.size ≤ r.size + 1 := by
  obtain ⟨n, -, -, heq⟩ | ⟨-, heq⟩ := enrol_cases r name
  · rw [heq]
    exact Nat.le_succ _
  · rw [heq]
    exact Nat.le_of_eq size_push

/-- After a registration its name is taken, whether or not it was before. -/
theorem mem_names_enrol {n : String} :
    n ∈ (r.enrol name).2.names ↔ n ∈ r.names ∨ name = some n := by
  obtain ⟨m, rfl, htaken, heq⟩ | ⟨-, heq⟩ := enrol_cases r name
  · have hm : m ∈ r.names := hasName_iff_mem_names.mp htaken
    rw [heq]
    constructor
    · exact Or.inl
    · rintro (h | h)
      · exact h
      · cases h
        exact hm
  · rw [heq, names_push, List.mem_append, Option.mem_toList]

end

/-! ### The list and the index -/

/-- The groups, their names and the index of the names agree with each other. -/
structure Consistent (r : Registry) : Prop where
  numbered : r.groups.toList.map Group.index = List.range' 1 r.size
  distinct : r.names.Nodup
  index?_iff (n : String) (i : Nat) : r.index? n = some i ↔ ⟨i, some n⟩ ∈ r.groups
  hasName_iff (n : String) : r.hasName n ↔ ∃ i, r.index? n = some i
  mem_names_iff (n : String) : n ∈ r.names ↔ ∃ i, r.index? n = some i
  /-- The names stand in the order of their numbers. -/
  ordered : ∃ numbers : List Nat,
    r.names.map r.index? = numbers.map some ∧ numbers.Pairwise (· < ·)

section

variable {r : Registry}

/-- No two groups share a name. -/
theorem WellFormed.eq_of_name (h : r.WellFormed) {g k : Group} (hg : g ∈ r.groups)
    (hk : k ∈ r.groups) {n : String} (hgn : g.name = some n) (hkn : k.name = some n) : g = k := by
  have hpairs : r.groups.toList.Pairwise fun a b =>
      ∀ m, a.name = some m → ∀ m', b.name = some m' → m ≠ m' :=
    List.pairwise_filterMap.mp h.distinct
  by_contra hne
  have hsymm : Std.Symm fun a b : Group =>
      ∀ m, a.name = some m → ∀ m', b.name = some m' → m ≠ m' :=
    ⟨fun _ _ hab m hm m' hm' => (hab m' hm' m hm).symm⟩
  exact hpairs.forall hg.val hk.val hne n hgn n hkn rfl

theorem WellFormed.index?_iff (h : r.WellFormed) (n : String) (i : Nat) :
    r.index? n = some i ↔ ⟨i, some n⟩ ∈ r.groups := by
  rw [index?, r.lookup_taken]
  constructor
  · intro hfind
    obtain ⟨g, hg, rfl⟩ := Option.map_eq_some_iff.mp hfind
    have hname : g.name = some n := by simpa using Array.find?_some hg
    rw [← hname]
    exact Array.mem_of_find?_eq_some hg
  · intro hmem
    obtain ⟨g, hg⟩ : ∃ g, r.groups.find? (·.name = some n) = some g := by
      rw [← Option.isSome_iff_exists, Array.find?_isSome]
      exact ⟨_, hmem, by simp⟩
    have hname : g.name = some n := by simpa using Array.find?_some hg
    obtain rfl := h.eq_of_name (Array.mem_of_find?_eq_some hg) hmem hname rfl
    rw [hg, Option.map_some]

theorem WellFormed.ordered (h : r.WellFormed) :
    ∃ numbers : List Nat,
      r.names.map r.index? = numbers.map some ∧ numbers.Pairwise (· < ·) := by
  refine ⟨r.groups.toList.filterMap fun g => g.name.map fun _ => g.index, ?_, ?_⟩
  · rw [names, List.map_filterMap, List.map_filterMap]
    apply List.filterMap_congr
    intro g hg
    cases hname : g.name with
    | none => rfl
    | some n =>
      have hindex : r.index? n = some g.index := by
        rw [h.index?_iff, ← hname]
        exact Array.mem_toList_iff.mp hg
      simp only [Option.map_some, hindex]
  · have hindices : (r.groups.toList.map Group.index).Pairwise (· < ·) := by
      rw [h.numbered]
      exact List.pairwise_lt_range'
    rw [List.pairwise_filterMap]
    apply (List.pairwise_map.mp hindices).imp
    intro a b hab i hi j hj
    obtain ⟨-, -, rfl⟩ := Option.map_eq_some_iff.mp hi
    obtain ⟨-, -, rfl⟩ := Option.map_eq_some_iff.mp hj
    exact hab

theorem WellFormed.consistent (h : r.WellFormed) : r.Consistent where
  numbered := h.numbered
  distinct := h.distinct
  index?_iff := h.index?_iff
  hasName_iff n := Option.isSome_iff_exists
  mem_names_iff n := by
    rw [← hasName_iff_mem_names]
    exact Option.isSome_iff_exists
  ordered := h.ordered

end

/-! ### Runs -/

theorem wellFormed_enrolAll (calls : List (Option String)) : (enrolAll {} calls).WellFormed := by
  induction calls using List.reverseRecOn with
  | nil => exact wellFormed_empty
  | append_singleton calls name ih =>
    rw [enrolAll_concat]
    exact ih.enrol name

/-- The names that are taken are those that were asked for. -/
theorem mem_names_enrolAll {calls : List (Option String)} {n : String} :
    n ∈ (enrolAll {} calls).names ↔ some n ∈ calls := by
  induction calls using List.reverseRecOn with
  | nil =>
    constructor
    · nofun
    · nofun
  | append_singleton calls name ih =>
    rw [enrolAll_concat, mem_names_enrol, ih, List.mem_append, List.mem_singleton, eq_comm]

theorem size_enrolAll_le (calls : List (Option String)) :
    (enrolAll {} calls).size ≤ calls.length := by
  induction calls using List.reverseRecOn with
  | nil => exact Nat.le_refl _
  | append_singleton calls name ih =>
    have hstep := size_enrol_le (enrolAll {} calls) name
    rw [enrolAll_concat, List.length_append, List.length_singleton]
    omega

/-- A registration after others is refused if its name is among theirs, and then nothing changes.
Otherwise it gets the next number. -/
structure Serves (calls : List (Option String)) (r : Registry) (name : Option String) : Prop where
  refused_iff (e : NameTaken) :
    (r.enrol name).1 = .error e ↔ name = some e.name ∧ r.hasName e.name
  hasName_iff (n : String) : r.hasName n ↔ some n ∈ calls
  unchanged (e : NameTaken) : (r.enrol name).1 = .error e → (r.enrol name).2 = r
  next (i : Nat) : (r.enrol name).1 = .ok i →
    i = r.size + 1 ∧ (r.enrol name).2.groups = r.groups.push ⟨i, name⟩

theorem serves_enrolAll (calls : List (Option String)) (name : Option String) :
    Serves calls (enrolAll {} calls) name where
  hasName_iff n := hasName_iff_mem_names.trans mem_names_enrolAll
  refused_iff e := by
    obtain ⟨n, rfl, htaken, heq⟩ | ⟨hnew, heq⟩ := enrol_cases (enrolAll {} calls) name
    · rw [heq]
      constructor
      · rintro ⟨⟩
        exact ⟨rfl, htaken⟩
      · rintro ⟨hname, -⟩
        rw [Option.some.inj hname]
    · rw [heq]
      constructor
      · nofun
      · rintro ⟨rfl, htaken⟩
        exact absurd htaken (hnew e.name rfl)
  unchanged _ h := enrol_snd_of_error h
  next i h := by
    obtain ⟨n, -, -, heq⟩ | ⟨-, heq⟩ := enrol_cases (enrolAll {} calls) name
    · rw [heq] at h
      cases h
    · rw [heq] at h ⊢
      cases h
      exact ⟨rfl, rfl⟩

/-- After any registrations the list of groups and the index of names agree, there are at most as
many groups as registrations, and any further registration is served. -/
theorem enrolments_consistent (calls : List (Option String)) :
    (enrolAll {} calls).Consistent ∧ (enrolAll {} calls).size ≤ calls.length ∧
      ∀ name, Serves calls (enrolAll {} calls) name :=
  ⟨(wellFormed_enrolAll calls).consistent, size_enrolAll_le calls, serves_enrolAll calls⟩

example : (enrolAll {} [some "x", none, some "x", some "y"]).groups =
    #[⟨1, some "x"⟩, ⟨2, none⟩, ⟨3, some "y"⟩] := by decide

end PatternBlocks.Capture.Registry
