import Mathlib.Data.List.Perm.Basic
import PatternBlocks.Block.CharClass

/-!
The body of a class, taken apart into named ranges and remaining members. Nothing is lost and what
remains keeps its order. A named range in the body is found although others are cut out before it is
looked for: the texts of two ranges never overlap, so that a cut leaves every other range whole.
-/
namespace PatternBlocks

/-! ### Cutting a text out -/

theorem removeFirst?_eq_some {needle text rest : List Char}
    (h : removeFirst? needle text = some rest) :
    ∃ before after, text = before ++ needle ++ after ∧ rest = before ++ after := by
  induction text generalizing rest with
  | nil => cases h
  | cons ch text ih =>
    rw [removeFirst?] at h
    split at h
    next hprefix =>
      cases h
      exact ⟨[], rest, (List.isPrefixOf?_eq_some_iff_append_eq.mp hprefix).symm, rfl⟩
    next =>
      obtain ⟨tail, htail, rfl⟩ := Option.map_eq_some_iff.mp h
      obtain ⟨before, after, rfl, rfl⟩ := ih htail
      exact ⟨ch :: before, after, rfl, rfl⟩

theorem removeFirst?_eq_none {needle text : List Char} (h : ¬needle <:+: text) :
    removeFirst? needle text = none := by
  cases hfound : removeFirst? needle text with
  | none => rfl
  | some rest =>
    obtain ⟨before, after, rfl, -⟩ := removeFirst?_eq_some hfound
    exact absurd ⟨before, after, rfl⟩ h

theorem not_infix_of_removeFirst?_eq_none {needle text : List Char} (hne : needle ≠ [])
    (h : removeFirst? needle text = none) : ¬needle <:+: text := by
  induction text with
  | nil => exact fun hin => hne (List.eq_nil_of_infix_nil hin)
  | cons ch text ih =>
    rw [removeFirst?] at h
    split at h
    next => cases h
    next hprefix =>
      rw [List.infix_cons_iff]
      rintro (⟨after, hafter⟩ | hin)
      · rw [List.isPrefixOf?_eq_some_iff_append_eq.mpr hafter] at hprefix
        cases hprefix
      · exact ih (Option.map_eq_none_iff.mp h) hin

/-- Neither text contains the first character of the other, so they cannot overlap. -/
def Apart (v w : List Char) : Prop := (∀ ch ∈ v.head?, ch ∉ w) ∧ ∀ ch ∈ w.head?, ch ∉ v

theorem infix_of_head_not_mem {v w text : List Char} (h : ∀ ch ∈ w.head?, ch ∉ v)
    (hin : w <:+: v ++ text) : w <:+: text := by
  induction v with
  | nil => exact hin
  | cons ch v ih =>
    rcases List.infix_cons_iff.mp hin with hprefix | hin
    · cases w with
      | nil => exact List.nil_infix
      | cons ch' w =>
        obtain rfl : ch' = ch := (List.cons_prefix_cons.mp hprefix).1
        exact absurd List.mem_cons_self (h ch' rfl)
    · exact ih (fun x hx hmem => h x hx (List.mem_cons_of_mem _ hmem)) hin

/-- An occurrence of a text outlives the cut of another text that it cannot overlap. -/
theorem Apart.infix_of_cut {needle other before after : List Char} (h : Apart needle other)
    (hin : other <:+: before ++ needle ++ after) : other <:+: before ++ after := by
  rw [List.append_assoc, List.infix_append_iff] at hin
  rw [List.infix_append_iff]
  obtain hleft | hright | ⟨l, r, hsplit, hl, hr⟩ := hin
  · exact .inl hleft
  · exact .inr (.inl (infix_of_head_not_mem h.2 hright))
  · -- An occurrence that begins before the cut and goes on behind its beginning holds its first
    -- character.
    refine .inr (.inr ⟨l, r, hsplit, hl, ?_⟩)
    cases needle with
    | nil => exact hr
    | cons ch needle =>
      cases r with
      | nil => exact List.nil_prefix
      | cons ch' r =>
        obtain rfl : ch' = ch := (List.cons_prefix_cons.mp hr).1
        refine absurd ?_ (h.1 ch' rfl)
        rw [hsplit]
        exact List.mem_append_right _ List.mem_cons_self

/-! ### The named ranges -/

namespace NamedRange

theorem chars_ne_nil (r : NamedRange) : r.chars ≠ [] := by
  cases r <;> exact List.cons_ne_nil _ _

/-- The texts of different ranges have at most a hyphen in common, with which none begins. -/
theorem apart_chars {r r' : NamedRange} (h : r ≠ r') : Apart r.chars r'.chars := by
  cases r <;> cases r' <;> simp_all [Apart, chars]

theorem mem_all (r : NamedRange) : r ∈ all := by
  cases r <;> decide

theorem nodup_all : all.Nodup := by decide

end NamedRange

namespace Toggles

theorem isOn_empty (r : NamedRange) : isOn {} r = false := by
  cases r <;> rfl

theorem isOn_switchOn (t : Toggles) (r r' : NamedRange) :
    (t.switchOn r).isOn r' = (decide (r' = r) || t.isOn r') := by
  cases r <;> cases r' <;> simp [switchOn, isOn]

theorem mem_ranges {t : Toggles} {r : NamedRange} : r ∈ t.ranges ↔ t.isOn r := by
  simp [ranges, NamedRange.mem_all]

/-- A range that is switched on joins those that were on. -/
theorem ranges_switchOn {t : Toggles} {r : NamedRange} (h : t.isOn r = false) :
    (t.switchOn r).ranges.Perm (r :: t.ranges) := by
  have hr : r ∉ t.ranges := by simp [mem_ranges, h]
  have hnodup (t : Toggles) : t.ranges.Nodup := NamedRange.nodup_all.filter _
  refine (List.perm_ext_iff_of_nodup (hnodup _) (List.nodup_cons.mpr ⟨hr, hnodup t⟩)).mpr ?_
  intro r'
  simp [mem_ranges, isOn_switchOn]

end Toggles

namespace CharClass

theorem isOn_extract_of_ne {r r' : NamedRange} (h : r' ≠ r) (found : Toggles × List Char) :
    (extract found r).1.isOn r' = found.1.isOn r' := by
  unfold extract
  split
  next => rfl
  next => simp [Toggles.isOn_switchOn, h]

/-- How far a body is taken apart while the ranges `todo` are still to be looked for. -/
structure Extracted (body : List Char) (todo : List NamedRange) (found : Toggles × List Char) :
    Prop where
  perm : (found.2 ++ found.1.ranges.flatMap NamedRange.chars).Perm body
  sublist : found.2.Sublist body
  off : ∀ r ∈ todo, found.1.isOn r = false
  kept : ∀ r : NamedRange, r.chars <:+: body →
    found.1.isOn r ∨ (r ∈ todo ∧ r.chars <:+: found.2)

theorem extracted_start (body : List Char) : Extracted body NamedRange.all ({}, body) where
  perm := by
    have hranges : Toggles.ranges {} = [] := rfl
    simp [hranges]
  sublist := List.Sublist.refl body
  off r _ := by cases r <;> rfl
  kept r hr := .inr ⟨r.mem_all, hr⟩

/-- One range is looked for, and nothing is lost of the body or of the other ranges in it. -/
theorem Extracted.extract {body : List Char} {r : NamedRange} {todo : List NamedRange}
    {found : Toggles × List Char} (h : Extracted body (r :: todo) found) (hnew : r ∉ todo) :
    Extracted body todo (CharClass.extract found r) := by
  obtain ⟨t, text⟩ := found
  unfold CharClass.extract
  split
  next hnone =>
    refine ⟨h.perm, h.sublist, fun r' hr' => h.off r' (List.mem_cons_of_mem _ hr'), ?_⟩
    intro r' hr'
    obtain hon | ⟨hmem, hin⟩ := h.kept r' hr'
    · exact .inl hon
    · obtain rfl | hmem := List.mem_cons.mp hmem
      · exact absurd hin (not_infix_of_removeFirst?_eq_none r'.chars_ne_nil hnone)
      · exact .inr ⟨hmem, hin⟩
  next rest hsome =>
    obtain ⟨before, after, htext, rfl⟩ := removeFirst?_eq_some hsome
    dsimp only at htext
    subst htext
    have hne (r') (hr' : r' ∈ todo) : r' ≠ r := fun heq => hnew (heq ▸ hr')
    constructor
    · have hranges := (Toggles.ranges_switchOn (h.off r List.mem_cons_self)).flatMap_right
        NamedRange.chars
      refine List.Perm.trans ?_ h.perm
      refine (hranges.append_left _).trans ?_
      simp only [List.flatMap_cons, List.append_assoc]
      refine List.Perm.append_left before ?_
      rw [← List.append_assoc, ← List.append_assoc]
      exact List.perm_append_comm.append_right _
    · refine List.Sublist.trans ?_ h.sublist
      exact (List.sublist_append_left before r.chars).append_right after
    · intro r' hr'
      have hoff := h.off r' (List.mem_cons_of_mem _ hr')
      rw [Toggles.isOn_switchOn, hoff, decide_eq_false (hne r' hr')]
      rfl
    · intro r' hr'
      rw [Toggles.isOn_switchOn]
      by_cases heq : r' = r
      · simp [heq]
      obtain hon | ⟨hmem, hin⟩ := h.kept r' hr'
      · exact .inl (by simp [hon])
      · refine .inr ⟨(List.mem_cons.mp hmem).resolve_left heq, ?_⟩
        exact (NamedRange.apart_chars (Ne.symm heq)).infix_of_cut hin

theorem Extracted.foldl {body : List Char} {todo : List NamedRange} (hnodup : todo.Nodup)
    {found : Toggles × List Char} (h : Extracted body todo found) :
    Extracted body [] (todo.foldl CharClass.extract found) := by
  induction todo generalizing found with
  | nil => exact h
  | cons r todo ih =>
    obtain ⟨hnew, hnodup⟩ := List.nodup_cons.mp hnodup
    exact ih hnodup (h.extract hnew)

/-- Taking a body apart loses nothing of it: the class has the body, the ranges that are switched
on and the remaining members make it up, and every range in it is switched on. -/
theorem ofBody_conserves (body : String) :
    (ofBody body).raw = some body ∧ (ofBody body).text = "[" ++ body ++ "]" ∧
      ((ofBody body).custom.toList ++
        (ofBody body).toggles.ranges.flatMap NamedRange.chars).Perm body.toList ∧
      (ofBody body).custom.toList.Sublist body.toList ∧
      ∀ r : NamedRange, r.chars <:+: body.toList → (ofBody body).toggles.isOn r := by
  have hfound := (extracted_start body.toList).foldl NamedRange.nodup_all
  have hcustom : (ofBody body).custom.toList =
      (NamedRange.all.foldl extract ({}, body.toList)).2 := String.toList_ofList
  refine ⟨rfl, ?_, ?_, ?_, ?_⟩
  · apply String.toList_inj.mp
    simp [text, render, CharClass.body, ofBody]
  · rw [hcustom]
    exact hfound.perm
  · rw [hcustom]
    exact hfound.sublist
  · intro r hr
    exact (hfound.kept r hr).resolve_right fun hnone => nomatch hnone.1

/-- A cut may also bring together a range that was not in the body. -/
example : ¬NamedRange.whitespace.chars <:+: "\\a-zs".toList ∧
    (ofBody "\\a-zs").toggles.isOn .whitespace := by decide +kernel

end CharClass

end PatternBlocks
