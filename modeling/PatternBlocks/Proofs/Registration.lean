import PatternBlocks.Proofs.Captures

/-!
Registries of capture groups are well formed: the groups are numbered in the order of registration,
and no name is taken twice. Reading a pattern keeps the registry well formed.
-/
namespace PatternBlocks

namespace Capture.Registry

variable {r : Registry} {name : Option String}

theorem hasName_iff {n : String} : r.hasName n ↔ some n ∈ r.groups.toList.map (·.name) := by
  rw [hasName, index?, r.lookup_taken, Option.isSome_map, Array.find?_isSome]
  simp

theorem hasName_iff_mem_names {n : String} : r.hasName n ↔ n ∈ r.names := by
  rw [hasName_iff, names, List.mem_filterMap, List.mem_map]

structure WellFormed (r : Registry) : Prop where
  numbered : r.groups.toList.map Group.index = List.range' 1 r.size
  distinct : r.names.Nodup

theorem wellFormed_empty : WellFormed {} := ⟨rfl, List.nodup_nil⟩

theorem size_push : (r.push name).size = r.size + 1 := Array.size_push ..

theorem names_push : (r.push name).names = r.names ++ name.toList := by
  cases name <;> simp [names, push]

/-- A group with a new name, or without one, gets the next number. -/
theorem WellFormed.push (h : r.WellFormed) (hnew : ∀ n, name = some n → ¬r.hasName n) :
    (r.push name).WellFormed where
  numbered := by
    have hgroups : (r.push name).groups.toList = r.groups.toList ++ [⟨r.size + 1, name⟩] :=
      Array.toList_push
    rw [hgroups, List.map_append, h.numbered, size_push, List.range'_concat]
    simp [Nat.add_comm]
  distinct := by
    rw [names_push]
    cases name with
    | none => simpa using h.distinct
    | some n =>
      have hn : n ∉ r.names := mt hasName_iff_mem_names.mpr (hnew n rfl)
      refine List.nodup_append.mpr ⟨h.distinct, by simp, ?_⟩
      rintro m hm _ hmem rfl
      exact hn (List.mem_singleton.mp hmem ▸ hm)

end Capture.Registry

namespace Grammar

variable {mode : Mode}

theorem wellFormed_of_capture {name : Option String} {start : Nat} {s t : State} {o : Opening}
    (h : capture name start s = .ok (o, t)) (hs : s.groups.WellFormed) :
    t.groups.WellFormed := by
  obtain ⟨-, rfl, hnew⟩ := capture_eq_ok h
  exact hs.push hnew

theorem wellFormed_of_opening {start : Nat} {s t : State} {o : Opening}
    (h : opening start s = .ok (o, t)) (hs : s.groups.WellFormed) : t.groups.WellFormed := by
  cases readsOpening_of_opening h with
  | plain _ numbered => exact wellFormed_of_capture numbered hs
  | marked => exact hs
  | named _ _ _ _ _ numbered => exact wellFormed_of_capture numbered hs

mutual

theorem ReadsTerm.wellFormed {levels : Nat} {s t : State} {r : Regex} :
    ReadsTerm mode levels s r t → s.groups.WellFormed → t.groups.WellFormed
  | .plain .., hs => hs
  | .group _ opened inside _ _, hs => inside.wellFormed (wellFormed_of_opening opened hs)

theorem ReadsTerms.wellFormed {levels : Nat} {s t : State} {rs : List Regex} :
    ReadsTerms mode levels s rs t → s.groups.WellFormed → t.groups.WellFormed
  | .nil _, hs => hs
  | .cons _ head tail, hs => tail.wellFormed (head.wellFormed hs)

/-- Reading registers groups one by one, and each registration keeps the registry well formed. -/
theorem ReadsAlternatives.wellFormed {levels : Nat} {s t : State} {rs : Regex × List Regex} :
    ReadsAlternatives mode levels s rs t → s.groups.WellFormed → t.groups.WellFormed
  | .last terms _, hs => terms.wellFormed hs
  | .more terms _ tail, hs => tail.wellFormed (terms.wellFormed hs)

end

end Grammar

end PatternBlocks
