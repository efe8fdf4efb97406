import PatternBlocks.Proofs.Decomposition
import PatternBlocks.Proofs.Reread

/-!
A class that is written and taken apart again. The ranges that were switched on stand first in the
body, and the quoted members behind them hold no range but the underscore, so that the ranges are
found exactly where they were written.
-/
namespace PatternBlocks

/-! ### Finding what was written first -/

theorem removeFirst?_append {needle : List Char} (h : needle ≠ []) (rest : List Char) :
    removeFirst? needle (needle ++ rest) = some rest := by
  obtain ⟨ch, needle, rfl⟩ := List.exists_cons_of_ne_nil h
  have hprefix := List.isPrefixOf?_eq_some_iff_append_eq.mpr
    (show (ch :: needle) ++ rest = ch :: (needle ++ rest) from rfl)
  rw [List.cons_append, removeFirst?, hprefix]

theorem removeFirst?_singleton (ch : Char) (text : List Char) :
    removeFirst? [ch] text = if ch ∈ text then some (text.erase ch) else none := by
  induction text with
  | nil => rfl
  | cons x text ih =>
    by_cases hx : ch = x
    · subst hx
      simp [removeFirst?, List.isPrefixOf?]
    · have hprefix : [ch].isPrefixOf? (x :: text) = none := by simp [List.isPrefixOf?, hx]
      rw [removeFirst?, hprefix, ih, List.erase_cons_tail (by simpa using Ne.symm hx)]
      simp only [List.mem_cons, hx, false_or]
      split <;> rfl

/-! ### What stands in a quoted text -/

section Quote

variable {specials cs w : List Char} {a b ch : Char}

theorem quote_cons_of_mem (h : ch ∈ specials) :
    quote specials (ch :: cs) = '\\' :: ch :: quote specials cs := by
  simp [quote, h]

theorem quote_cons_of_not_mem (h : ch ∉ specials) :
    quote specials (ch :: cs) = ch :: quote specials cs := by
  simp [quote, h]

/-- A quoted text begins with a backslash or with a character that needs none. -/
theorem not_prefix_quote (hb : b ≠ '\\') (hspecial : b ∈ specials) :
    ¬b :: w <+: quote specials cs := by
  intro h
  cases cs with
  | nil => simp [quote] at h
  | cons x cs =>
    by_cases hx : x ∈ specials
    · rw [quote_cons_of_mem hx] at h
      exact hb (List.cons_prefix_cons.mp h).1
    · rw [quote_cons_of_not_mem hx] at h
      exact hx ((List.cons_prefix_cons.mp h).1 ▸ hspecial)

/-- Before a special character of a quoted text stands a backslash. -/
theorem not_infix_quote (ha : a ≠ '\\') (hb : b ≠ '\\') (hspecial : b ∈ specials) :
    ¬a :: b :: w <:+: quote specials cs := by
  induction cs with
  | nil => simp [quote]
  | cons x cs ih =>
    have hrest : ¬a :: b :: w <:+: x :: quote specials cs := by
      rw [List.infix_cons_iff, List.cons_prefix_cons]
      rintro (⟨-, hprefix⟩ | hin)
      · exact not_prefix_quote hb hspecial hprefix
      · exact ih hin
    by_cases hx : x ∈ specials
    · rw [quote_cons_of_mem hx, List.infix_cons_iff, List.cons_prefix_cons]
      rintro (⟨heq, -⟩ | hin)
      · exact ha heq
      · exact hrest hin
    · rwa [quote_cons_of_not_mem hx]

/-- In what is quoted without a backslash of its own, backslashes stand before special characters
only. -/
theorem not_infix_quote_of_not_mem (hcs : '\\' ∉ cs) (hb : b ∉ specials) :
    ¬ '\\' :: b :: w <:+: quote specials cs := by
  induction cs with
  | nil => simp [quote]
  | cons x cs ih =>
    obtain ⟨hx, hcs⟩ := List.ne_and_not_mem_of_not_mem_cons hcs
    have hrest : ¬ '\\' :: b :: w <:+: x :: quote specials cs := by
      rw [List.infix_cons_iff, List.cons_prefix_cons]
      rintro (⟨heq, -⟩ | hin)
      · exact hx heq
      · exact ih hcs hin
    by_cases hspecial : x ∈ specials
    · rw [quote_cons_of_mem hspecial, List.infix_cons_iff, List.cons_prefix_cons,
        List.cons_prefix_cons]
      rintro (⟨-, rfl, -⟩ | hin)
      · exact hb hspecial
      · exact hrest hin
    · rwa [quote_cons_of_not_mem hspecial]

theorem mem_quote (hch : ch ≠ '\\') : ch ∈ quote specials cs ↔ ch ∈ cs := by
  induction cs with
  | nil => simp [quote]
  | cons x cs ih =>
    by_cases hx : x ∈ specials
    · simp [quote_cons_of_mem hx, ih, hch]
    · simp [quote_cons_of_not_mem hx, ih]

theorem erase_quote (hch : ch ∉ specials) (hback : ch ≠ '\\') :
    (quote specials cs).erase ch = quote specials (cs.erase ch) := by
  induction cs with
  | nil => rfl
  | cons x cs ih =>
    by_cases hx : x = ch
    · subst hx
      rw [quote_cons_of_not_mem hch, List.erase_cons_head, List.erase_cons_head]
    · have htail : (x :: cs).erase ch = x :: cs.erase ch := List.erase_cons_tail (by simpa using hx)
      rw [htail]
      by_cases hspecial : x ∈ specials
      · rw [quote_cons_of_mem hspecial, quote_cons_of_mem hspecial,
          List.erase_cons_tail (by simpa using Ne.symm hback),
          List.erase_cons_tail (by simpa using hx), ih]
      · rw [quote_cons_of_not_mem hspecial, quote_cons_of_not_mem hspecial,
          List.erase_cons_tail (by simpa using hx), ih]

end Quote

/-! ### Switching ranges on -/

theorem Toggles.isOn_foldl_switchOn (rs : List NamedRange) (t : Toggles) (r : NamedRange) :
    (rs.foldl switchOn t).isOn r = (decide (r ∈ rs) || t.isOn r) := by
  induction rs generalizing t with
  | nil => simp
  | cons r' rs ih =>
    rw [List.foldl_cons, ih, isOn_switchOn]
    simp only [List.mem_cons, Bool.decide_or, Bool.or_left_comm, Bool.or_assoc]

namespace CharClass

variable {on : NamedRange → Bool}

/-- No range begins with a character of another one. -/
theorem infix_of_infix_written {r : NamedRange} {rs : List NamedRange} {rest : List Char}
    (hr : r ∉ rs) (hin : r.chars <:+: rs.flatMap NamedRange.chars ++ rest) : r.chars <:+: rest := by
  refine infix_of_head_not_mem ?_ hin
  intro ch hch hmem
  obtain ⟨r', hr', hmem⟩ := List.mem_flatMap.mp hmem
  have hne : r' ≠ r := fun heq => hr (heq ▸ hr')
  exact (NamedRange.apart_chars hne).2 ch hch hmem

/-- Ranges are found where they were written, if those that were not written are not in the rest. -/
theorem foldl_extract_written {todo : List NamedRange} (hnodup : todo.Nodup) {rest : List Char}
    (hrest : ∀ r ∈ todo, on r = false → ¬r.chars <:+: rest) (t : Toggles) :
    todo.foldl extract (t, (todo.filter on).flatMap NamedRange.chars ++ rest) =
      ((todo.filter on).foldl Toggles.switchOn t, rest) := by
  induction todo generalizing t with
  | nil => rfl
  | cons r todo ih =>
    obtain ⟨hnew, hnodup⟩ := List.nodup_cons.mp hnodup
    replace ih := ih hnodup fun r' hr' => hrest r' (List.mem_cons_of_mem _ hr')
    by_cases hon : on r
    · rw [List.filter_cons_of_pos hon, List.flatMap_cons, List.append_assoc, List.foldl_cons,
        List.foldl_cons, ← ih]
      simp only [extract, removeFirst?_append r.chars_ne_nil]
    · have hnot : ¬r.chars <:+: (todo.filter on).flatMap NamedRange.chars ++ rest := by
        intro hin
        have hr : r ∉ todo.filter on := fun hmem => hnew (List.mem_filter.mp hmem).1
        exact hrest r List.mem_cons_self (by simpa using hon) (infix_of_infix_written hr hin)
      rw [List.filter_cons_of_neg hon, List.foldl_cons, ← ih]
      simp only [extract, removeFirst?_eq_none hnot]

/-! ### Taking apart what was written -/

theorem extract_underscore (found : Toggles × List Char) :
    extract found .underscore =
      (if '_' ∈ found.2 then found.1.switchOn .underscore else found.1, found.2.erase '_') := by
  obtain ⟨t, text⟩ := found
  simp only [extract, NamedRange.chars, removeFirst?_singleton]
  split
  next hnone =>
    have hmem : '_' ∉ text := by simpa using hnone
    simp [hmem, List.erase_of_not_mem]
  next rest hsome =>
    have hmem : '_' ∈ text ∧ text.erase '_' = rest := by simpa using hsome
    simp [hmem]

/-- The ranges of letters and digits are looked for first, and found if they were written. -/
theorem foldl_extract_alphanumeric (on : NamedRange → Bool) (custom : List Char) :
    [.lower, .upper, .digit].foldl extract ({},
        (NamedRange.all.filter on).flatMap NamedRange.chars ++ quote classSpecials custom) =
      (([.lower, .upper, .digit].filter on).foldl Toggles.switchOn {},
        ([.underscore, .whitespace].filter on).flatMap NamedRange.chars ++
          quote classSpecials custom) := by
  have hall : NamedRange.all = [.lower, .upper, .digit] ++ [.underscore, .whitespace] := rfl
  rw [hall, List.filter_append, List.flatMap_append, List.append_assoc]
  refine foldl_extract_written (by decide) ?_ {}
  intro r hr _ hin
  have hr' : r ∉ [NamedRange.underscore, .whitespace].filter on := by
    intro hmem
    replace hmem := (List.mem_filter.mp hmem).1
    revert hr hmem
    cases r <;> decide
  replace hin := infix_of_infix_written hr' hin
  have hhyphen : '-' ∈ classSpecials := by decide
  cases r with
  | lower | upper | digit => exact not_infix_quote (by decide) (by decide) hhyphen hin
  | underscore | whitespace => simp at hr

/-- A cut takes the underscore of the range, or else the first one of the members. -/
theorem erase_underscore (on : NamedRange → Bool) (custom : List Char) :
    (([.underscore, .whitespace].filter on).flatMap NamedRange.chars ++
        quote classSpecials custom).erase '_' =
      ([.whitespace].filter on).flatMap NamedRange.chars ++
        quote classSpecials (if on .underscore then custom else custom.erase '_') := by
  by_cases hon : on .underscore
  · rw [List.filter_cons_of_pos hon, if_pos hon]
    rfl
  · have hnot : '_' ∉ ([.whitespace].filter on).flatMap NamedRange.chars := by
      intro hmem
      obtain ⟨r, hr, hmem⟩ := List.mem_flatMap.mp hmem
      obtain rfl := List.mem_singleton.mp (List.mem_filter.mp hr).1
      revert hmem
      decide
    rw [List.filter_cons_of_neg hon, if_neg hon, List.erase_append_right _ hnot,
      erase_quote (by decide) (by decide)]

theorem underscore_mem_written (on : NamedRange → Bool) (custom : List Char) :
    '_' ∈ ([.underscore, .whitespace].filter on).flatMap NamedRange.chars ++
        quote classSpecials custom ↔ on .underscore ∨ '_' ∈ custom := by
  rw [List.mem_append, mem_quote (by decide)]
  refine or_congr_left ?_
  cases hu : on .underscore <;> cases hw : on .whitespace <;>
    simp [hu, hw, NamedRange.chars]

/-- What is switched on before whitespace is looked for. -/
def foundFirst (on : NamedRange → Bool) (custom : List Char) : List NamedRange :=
  [.lower, .upper, .digit].filter on ++
    if on .underscore ∨ '_' ∈ custom then [.underscore] else []

theorem foldl_extract_body (on : NamedRange → Bool) (custom : List Char) :
    NamedRange.all.foldl extract ({},
        (NamedRange.all.filter on).flatMap NamedRange.chars ++ quote classSpecials custom) =
      extract ((foundFirst on custom).foldl Toggles.switchOn {},
        ([.whitespace].filter on).flatMap NamedRange.chars ++
          quote classSpecials (if on .underscore then custom else custom.erase '_'))
        .whitespace := by
  have hfirst := foldl_extract_alphanumeric on custom
  show extract (extract ([.lower, .upper, .digit].foldl extract _) .underscore) .whitespace = _
  rw [hfirst, extract_underscore, erase_underscore]
  simp only [underscore_mem_written, foundFirst, List.foldl_append]
  split <;> rfl

theorem mem_foundFirst {on : NamedRange → Bool} {custom : List Char} {r : NamedRange} :
    r ∈ foundFirst on custom ↔
      r ≠ .whitespace ∧ (on r ∨ r = .underscore ∧ '_' ∈ custom) := by
  by_cases hu : on .underscore ∨ '_' ∈ custom <;> cases r <;> simp [foundFirst, hu]

theorem isOn_foundFirst (on : NamedRange → Bool) (custom : List Char) (r : NamedRange) :
    ((foundFirst on custom).foldl Toggles.switchOn {}).isOn r ↔
      r ≠ .whitespace ∧ (on r ∨ r = .underscore ∧ '_' ∈ custom) := by
  rw [Toggles.isOn_foldl_switchOn, Toggles.isOn_empty, Bool.or_false, decide_eq_true_iff,
    mem_foundFirst]

variable {c : CharClass} {body : String}

theorem toList_of_text (hraw : c.raw = none)
    (htext : c.text = "[" ++ (if c.negate then "^" else "") ++ body ++ "]") :
    body.toList =
      (NamedRange.all.filter c.toggles.isOn).flatMap NamedRange.chars ++
        quote classSpecials c.custom.toList := by
  have hlist : c.text.toList = c.render := String.toList_ofList
  rw [htext, render, CharClass.body, hraw] at hlist
  refine List.append_cancel_right (?_ : _ ++ [']'] = _ ++ [']'])
  cases hnegate : c.negate <;> simpa [hnegate, Toggles.ranges] using hlist

/-- What is left of the members when whitespace is looked for. -/
def remaining (c : CharClass) : List Char :=
  if c.toggles.underscore then c.custom.toList else c.custom.toList.erase '_'

theorem foldl_extract_of_text (hraw : c.raw = none)
    (htext : c.text = "[" ++ (if c.negate then "^" else "") ++ body ++ "]") :
    NamedRange.all.foldl extract ({}, body.toList) =
      extract ((foundFirst c.toggles.isOn c.custom.toList).foldl Toggles.switchOn {},
        ([.whitespace].filter c.toggles.isOn).flatMap NamedRange.chars ++
          quote classSpecials c.remaining) .whitespace := by
  rw [toList_of_text hraw htext]
  exact foldl_extract_body c.toggles.isOn c.custom.toList

/-- The last range that is looked for changes nothing about the others. -/
theorem isOn_ofBody_of_text (hraw : c.raw = none)
    (htext : c.text = "[" ++ (if c.negate then "^" else "") ++ body ++ "]") {r : NamedRange}
    (hr : r ≠ .whitespace) :
    (ofBody body).toggles.isOn r ↔
      c.toggles.isOn r ∨ r = .underscore ∧ '_' ∈ c.custom.toList := by
  rw [ofBody, foldl_extract_of_text hraw htext, isOn_extract_of_ne hr, isOn_foundFirst]
  exact and_iff_right hr

theorem isOn_ofBody_span (hraw : c.raw = none)
    (htext : c.text = "[" ++ (if c.negate then "^" else "") ++ body ++ "]") {r : NamedRange}
    (hr : r ≠ .whitespace) (hunderscore : r ≠ .underscore) :
    (ofBody body).toggles.isOn r = c.toggles.isOn r := by
  rw [Bool.eq_iff_iff, isOn_ofBody_of_text hraw htext hr]
  simp [hunderscore]

/-- Whitespace is not found among members without a backslash. -/
theorem ofBody_of_no_backslash (hraw : c.raw = none)
    (htext : c.text = "[" ++ (if c.negate then "^" else "") ++ body ++ "]")
    (hback : '\\' ∉ c.custom.toList) :
    ofBody body =
      { toggles := ([.whitespace].filter c.toggles.isOn).foldl Toggles.switchOn
          ((foundFirst c.toggles.isOn c.custom.toList).foldl Toggles.switchOn {})
        custom := String.ofList (quote classSpecials c.remaining)
        raw := some body } := by
  have hremaining : '\\' ∉ c.remaining := by
    unfold remaining
    split
    · exact hback
    · exact fun hmem => hback (List.mem_of_mem_erase hmem)
  have hnot : ∀ r ∈ [NamedRange.whitespace], c.toggles.isOn r = false →
      ¬r.chars <:+: quote classSpecials c.remaining := by
    rintro r hr - hin
    obtain rfl := List.mem_singleton.mp hr
    exact not_infix_quote_of_not_mem hremaining (by decide) hin
  have hlast := foldl_extract_written (by decide) hnot
    ((foundFirst c.toggles.isOn c.custom.toList).foldl Toggles.switchOn {})
  rw [List.foldl_cons, List.foldl_nil, ← foldl_extract_of_text hraw htext] at hlast
  rw [ofBody, hlast]

/-- A class that is written without a body of its own is taken apart into the ranges that are
switched on, whatever its members, except that an underscore among them counts as one. If no member
is a backslash, nothing else is found, and the members remain as they were quoted. -/
theorem ofBody_recovers (hraw : c.raw = none)
    (htext : c.text = "[" ++ (if c.negate then "^" else "") ++ body ++ "]") :
    (ofBody body).toggles.lower = c.toggles.lower ∧
      (ofBody body).toggles.upper = c.toggles.upper ∧
      (ofBody body).toggles.digit = c.toggles.digit ∧
      ((ofBody body).toggles.underscore ↔ c.toggles.underscore ∨ '_' ∈ c.custom.toList) ∧
      ('\\' ∉ c.custom.toList →
        (ofBody body).toggles.whitespace = c.toggles.whitespace ∧
          (ofBody body).custom.toList =
            if c.toggles.underscore then quote classSpecials c.custom.toList
            else (quote classSpecials c.custom.toList).erase '_') := by
  have hspan {r : NamedRange} := isOn_ofBody_span hraw htext (r := r)
  have hunderscore := isOn_ofBody_of_text hraw htext (r := .underscore) (by decide)
  refine ⟨hspan (r := .lower) (by decide) (by decide), hspan (r := .upper) (by decide) (by decide),
    hspan (r := .digit) (by decide) (by decide), ?_, ?_⟩
  · simpa [Toggles.isOn] using hunderscore
  intro hback
  have hclass := ofBody_of_no_backslash hraw htext hback
  constructor
  · show (ofBody body).toggles.isOn .whitespace = c.toggles.isOn .whitespace
    have hfirst : ((foundFirst c.toggles.isOn c.custom.toList).foldl Toggles.switchOn {}).isOn
        .whitespace = false := by
      simpa using (isOn_foundFirst c.toggles.isOn c.custom.toList .whitespace).not
    rw [hclass, Toggles.isOn_foldl_switchOn, hfirst]
    simp
  · rw [hclass, String.toList_ofList, erase_quote (by decide) (by decide), remaining]
    exact apply_ite (quote classSpecials) _ _ _

/-- Members that look like a range once they are quoted, and underscores. -/
theorem ofBody_recovers_quoted :
    ∃ c : CharClass, ∃ body, c.custom = "a-z_^_b" ∧ c.raw = none ∧
      c.text = "[^A-Z\\sa\\-z_\\^_b]" ∧ c.text = "[" ++ "^" ++ body ++ "]" ∧
      (ofBody body).toggles.lower = false ∧ (ofBody body).toggles.upper ∧
      (ofBody body).toggles.digit = false ∧ (ofBody body).toggles.underscore ∧
      (ofBody body).toggles.whitespace ∧ (ofBody body).custom.toList = "a\\-z\\^_b".toList := by
  let c : CharClass :=
    { negate := true, toggles := { upper := true, whitespace := true }, custom := "a-z_^_b" }
  have htext : c.text = "[" ++ "^" ++ "A-Z\\sa\\-z_\\^_b" ++ "]" := by decide +kernel
  obtain ⟨hlower, hupper, hdigit, hunderscore, hrest⟩ := ofBody_recovers (c := c) rfl htext
  obtain ⟨hwhitespace, hcustom⟩ := hrest (by decide +kernel)
  exact ⟨c, _, rfl, rfl, htext, htext, hlower, hupper, hdigit,
    hunderscore.mpr (.inr (by decide +kernel)), hwhitespace, hcustom.trans (by decide +kernel)⟩

end CharClass

end PatternBlocks
