import Mathlib.Data.List.Infix
import PatternBlocks.Proofs.Arrival
import PatternBlocks.Proofs.ClassAtoms
import PatternBlocks.Proofs.ClassItems
import PatternBlocks.Proofs.Decomposition

/-!
What the ranges that are switched on say about a class. They are found by their text in the body,
and the members that the class has are read from left to right, so that a range is in the class
unless each occurrence of its text belongs to something else.
-/
namespace PatternBlocks

/-- The character is the member, or in a range that is the member. -/
def ClassItem.Covers (ch : Char) : ClassItem → Prop
  | .char value => value = ch
  | .range first last => first ≤ ch ∧ ch ≤ last
  | _ => False

instance (ch : Char) : DecidablePred (ClassItem.Covers ch)
  | .char value => inferInstanceAs (Decidable (value = ch))
  | .range first last => inferInstanceAs (Decidable (first ≤ ch ∧ ch ≤ last))
  | .codeUnit _ | .codeUnitRange .. | .escape _ | .property _ => inferInstanceAs (Decidable False)

/-- The members cover all characters of the range, or have the escape that is the range. -/
def NamedRange.IsTrueOf (items : List ClassItem) : NamedRange → Prop
  | .lower => ∀ ch, 'a' ≤ ch → ch ≤ 'z' → ∃ item ∈ items, item.Covers ch
  | .upper => ∀ ch, 'A' ≤ ch → ch ≤ 'Z' → ∃ item ∈ items, item.Covers ch
  | .digit => ∀ ch, '0' ≤ ch → ch ≤ '9' → ∃ item ∈ items, item.Covers ch
  | .underscore => ∃ item ∈ items, item.Covers '_'
  | .whitespace => .escape .space ∈ items

namespace Grammar

variable {unicode : Bool} {opening : Nat}

/-! ### Where the atoms of a class are read -/

/-- Reading the members of a class from the first cursor on comes to the beginning of one at the
second. The text lies between them. -/
inductive ComesToMember (unicode : Bool) (opening : Nat) : Cursor → List Char → Cursor → Prop
  | here {c : Cursor} (more : c.peek? ≠ some ']') : ComesToMember unicode opening c [] c
  | next {c d e : Cursor} {v w : List Char} {items : List ClassItem}
      (more : c.peek? ≠ some ']') (read : classMember unicode opening c = .ok (items, d))
      (text : c.Passes v d) (tail : ComesToMember unicode opening d w e) :
      ComesToMember unicode opening c (v ++ w) e

/-- Reading the members of a class from the cursor on, behind a text an atom with another text is
read. It is at the second end of a range or not. -/
inductive MeetsAtom (unicode : Bool) (opening : Nat) (c : Cursor) :
    List Char → List Char → Bool → ClassAtom → Prop
  | first {d e : Cursor} {u t : List Char} {a : ClassAtom}
      (comes : ComesToMember unicode opening c u d)
      (read : classAtom unicode opening d = .ok (a, e)) (text : d.Passes t e) :
      MeetsAtom unicode opening c u t false a
  | second {d e f g : Cursor} {u v t : List Char} {low high : ClassAtom}
      (comes : ComesToMember unicode opening c u d)
      (read : classAtom unicode opening d = .ok (low, e)) (hyphen : rangeHyphen? e = some f)
      (before : d.Passes v f) (readHigh : classAtom unicode opening f = .ok (high, g))
      (text : f.Passes t g) : MeetsAtom unicode opening c (u ++ v) t true high

/-- A character of a text made of two texts belongs to one of them. -/
theorem split_of_append {before after v w : List Char} {ch : Char}
    (h : before ++ ch :: after = v ++ w) :
    (∃ as, v = before ++ ch :: as ∧ after = as ++ w) ∨
      ∃ bs, before = v ++ bs ∧ w = bs ++ ch :: after := by
  obtain ⟨as, hv, hafter⟩ | ⟨bs, hbefore, hw⟩ := List.append_eq_append_iff.mp h
  · cases as with
    | nil =>
      rw [List.append_nil] at hv
      exact .inr ⟨[], by rw [hv, List.append_nil], hafter.symm⟩
    | cons x as =>
      obtain ⟨rfl, hrest⟩ := List.cons.inj hafter
      exact .inl ⟨as, hv, hrest⟩
  · exact .inr ⟨bs, hbefore, hw⟩

theorem passes_unique {c d : Cursor} {v w : List Char} (h : c.Passes v d) (k : c.Passes w d) :
    v = w :=
  List.append_cancel_right (h.1.symm.trans k.1)

theorem ComesToMember.passes {c d : Cursor} {u : List Char}
    (h : ComesToMember unicode opening c u d) : c.Passes u d := by
  induction h with
  | here => exact .refl _
  | next more read text tail ih => exact text.trans ih

/-- Each character of the body belongs to a member. -/
theorem exists_member {c e : Cursor} {items : List ClassItem} {body before after : List Char}
    {ch : Char} (h : classMembers unicode opening c = .ok (items, e)) (hbody : c.Passes body e)
    (hsplit : body = before ++ ch :: after) :
    ∃ u v w d f its, before = u ++ v ∧ ComesToMember unicode opening c u d ∧
      classMember unicode opening d = .ok (its, f) ∧ d.Passes (v ++ ch :: w) f ∧ its ⊆ items := by
  fun_induction classMembers unicode opening c generalizing items body before with
  | case1 => cases h
  | case2 =>
    cases h
    have hempty := passes_unique hbody (.refl _)
    simp [hsplit] at hempty
  | case3 => cases h
  | case4 => cases h
  | case5 c _ hne hpeek first d hfirst more f hmore ih =>
    cases h
    have hopen : c.peek? ≠ some ']' := by
      rw [hpeek]
      exact fun heq => hne (Option.some.inj heq)
    obtain ⟨v, hv⟩ := (advances_of_classMember hfirst).reaches
    obtain ⟨w, hw⟩ := reaches_of_classMembers hmore
    have htext : before ++ ch :: after = v ++ w := hsplit ▸ passes_unique hbody (hv.trans hw)
    obtain ⟨as, rfl, -⟩ | ⟨bs, rfl, hrest⟩ := split_of_append htext
    · exact ⟨[], before, as, c, d, first, rfl, .here hopen, hfirst, hv,
        List.subset_append_left _ _⟩
    · obtain ⟨u, v', w', d', f', its, rfl, hcomes, hread, hpasses, hits⟩ := ih hmore hw hrest
      have hsub := List.Subset.trans hits (List.subset_append_right first more)
      exact ⟨v ++ u, v', w', d', f', its, by rw [List.append_assoc],
        .next hopen hfirst hv hcomes, hread, hpasses, hsub⟩

/-! ### What becomes of the atoms -/

/-- The two atoms are the ends of a range among the members, or both are members themselves because
one of them is a class. -/
def JoinedIn (items : List ClassItem) (low high : ClassAtom) : Prop :=
  (∃ n m, low = .code n ∧ high = .code m ∧ n ≤ m ∧ rangeItem n m ∈ items) ∨
    ((∀ n m, low = .code n → high ≠ .code m) ∧ low.item ∈ items ∧ high.item ∈ items)

theorem joinedIn_of_joinAtoms {start : Nat} {low high : ClassAtom} {its : List ClassItem}
    {c d : Cursor} (h : joinAtoms unicode start low high c = .ok (its, d)) :
    JoinedIn its low high := by
  unfold joinAtoms at h
  split at h
  next n m =>
    split at h <;> cases h
    next hle => exact .inl ⟨n, m, rfl, rfl, Nat.le_of_not_lt hle, List.mem_singleton_self _⟩
  next hcodes =>
    split at h <;> cases h
    exact .inr ⟨fun n m hlow hhigh => hcodes n m hlow hhigh, by simp⟩

theorem JoinedIn.mono {items its : List ClassItem} {low high : ClassAtom}
    (h : JoinedIn its low high) (hsub : its ⊆ items) : JoinedIn items low high := by
  obtain ⟨n, m, hlow, hhigh, hle, hmem⟩ | ⟨hcodes, hlow, hhigh⟩ := h
  · exact .inl ⟨n, m, hlow, hhigh, hle, hsub hmem⟩
  · exact .inr ⟨hcodes, hsub hlow, hsub hhigh⟩

theorem classMember_eq_ok {c f : Cursor} {its : List ClassItem}
    (h : classMember unicode opening c = .ok (its, f)) :
    ∃ low d, classAtom unicode opening c = .ok (low, d) ∧
      ((rangeHyphen? d = none ∧ f = d ∧ its = [low.item]) ∨
        ∃ g high, rangeHyphen? d = some g ∧ classAtom unicode opening g = .ok (high, f) ∧
          JoinedIn its low high) := by
  unfold classMember at h
  split at h
  next => cases h
  next low d hlow =>
    refine ⟨low, d, hlow, ?_⟩
    split at h
    next hhyphen =>
      cases h
      exact .inl ⟨hhyphen, rfl, rfl⟩
    next g hhyphen =>
      split at h
      next => cases h
      next high f' hhigh =>
        obtain rfl := eq_of_joinAtoms h
        exact .inr ⟨g, high, hhyphen, hhigh, joinedIn_of_joinAtoms h⟩

theorem passes_of_rangeHyphen? {c d : Cursor} (h : rangeHyphen? c = some d) :
    c.Passes ['-'] d := by
  unfold rangeHyphen? at h
  split at h
  next => cases h
  next hd =>
    split at h <;> cases h
    exact Cursor.passes_of_eat? hd

/-- What becomes of an atom with the cursor behind it. It begins a member, which a hyphen may join
to another atom, or it is the second end of a range. -/
inductive StandsIn (unicode : Bool) (opening : Nat) (c : Cursor) (items : List ClassItem)
    (u t : List Char) (a : ClassAtom) (g : Cursor) : Bool → Prop
  | alone (hyphen : rangeHyphen? g = none) (member : a.item ∈ items) :
      StandsIn unicode opening c items u t a g false
  | first {d e : Cursor} {w : List Char} {high : ClassAtom} (hyphen : rangeHyphen? g = some d)
      (read : classAtom unicode opening d = .ok (high, e))
      (meets : MeetsAtom unicode opening c (u ++ (t ++ ['-'])) w true high)
      (joined : JoinedIn items a high) : StandsIn unicode opening c items u t a g false
  | second {low : ClassAtom} (joined : JoinedIn items low a) :
      StandsIn unicode opening c items u t a g true

/-- Each character of the body but the hyphens of ranges belongs to an atom. -/
theorem exists_atom {c e : Cursor} {items : List ClassItem} {body before after : List Char}
    {ch : Char} (h : classMembers unicode opening c = .ok (items, e)) (hbody : c.Passes body e)
    (hsplit : body = before ++ ch :: after) (hch : ch ≠ '-') :
    ∃ u v w a g second, before = u ++ v ∧ w ++ g.rest = after ++ e.rest ∧
      ClassAtomText g.rest (v ++ ch :: w) a ∧
      MeetsAtom unicode opening c u (v ++ ch :: w) second a ∧
      StandsIn unicode opening c items u (v ++ ch :: w) a g second := by
  obtain ⟨u, v, w, d, f, its, rfl, hcomes, hmember, hpasses, hits⟩ := exists_member h hbody hsplit
  have hbehind : w ++ f.rest = after ++ e.rest := by
    have hrest := (hcomes.passes.trans hpasses).1.symm.trans hbody.1
    simpa [hsplit] using hrest
  obtain ⟨low, g, hlow, hmember⟩ := classMember_eq_ok hmember
  obtain ⟨t, ht, htext⟩ := classAtomText_of_classAtom hlow
  obtain ⟨hnone, rfl, rfl⟩ | ⟨k, high, hhyphen, hhigh, hjoined⟩ := hmember
  · obtain rfl := passes_unique hpasses ht
    exact ⟨u, v, w, low, f, false, rfl, hbehind, htext, .first hcomes hlow ht,
      .alone hnone (hits (List.mem_singleton_self _))⟩
  · obtain ⟨t', ht', htext'⟩ := classAtomText_of_classAtom hhigh
    have hk := passes_of_rangeHyphen? hhyphen
    have hmeets := MeetsAtom.second hcomes hlow hhyphen (ht.trans hk) hhigh ht'
    have hrange : v ++ ch :: w = t ++ '-' :: t' :=
      passes_unique hpasses (ht.trans (hk.trans ht'))
    obtain ⟨as, rfl, rfl⟩ | ⟨bs, rfl, hsecond⟩ := split_of_append hrange
    · refine ⟨u, v, as, low, g, false, rfl, ?_, htext, .first hcomes hlow ht, ?_⟩
      · rw [← hbehind, (hk.trans ht').1]
        simp
      · exact .first hhyphen hhigh hmeets (hjoined.mono hits)
    · cases bs with
      | nil => exact absurd (List.cons.inj hsecond).1.symm hch
      | cons x bs =>
        obtain ⟨rfl, rfl⟩ := List.cons.inj hsecond
        exact ⟨u ++ (t ++ ['-']), bs, w, high, f, true, by simp, hbehind, htext', hmeets,
          .second (hjoined.mono hits)⟩

namespace StandsIn

variable {c g : Cursor} {items : List ClassItem} {u t : List Char} {a : ClassAtom} {second : Bool}

/-- An atom that is no end of a range is a member. -/
theorem member_or_end (h : StandsIn unicode opening c items u t a g second) :
    a.item ∈ items ∨
      (∃ n m w, a = .code n ∧ n ≤ m ∧ rangeItem n m ∈ items ∧
        MeetsAtom unicode opening c (u ++ (t ++ ['-'])) w true (.code m)) ∨
      ∃ n m, a = .code m ∧ n ≤ m ∧ rangeItem n m ∈ items := by
  cases h with
  | alone _ hmember => exact .inl hmember
  | first _ _ hmeets hjoined =>
    obtain ⟨n, m, rfl, rfl, hle, hmem⟩ | ⟨-, hlow, -⟩ := hjoined
    · exact .inr (.inl ⟨n, m, _, rfl, hle, hmem, hmeets⟩)
    · exact .inl hlow
  | second hjoined =>
    obtain ⟨n, m, -, rfl, hle, hmem⟩ | ⟨-, -, hhigh⟩ := hjoined
    · exact .inr (.inr ⟨n, m, rfl, hle, hmem⟩)
    · exact .inl hhigh

/-- A hyphen and a plain character behind an atom make it the first end of a range. -/
theorem range {n : Nat} {last : Char} {rest : List Char}
    (h : StandsIn unicode opening c items u t (.code n) g false)
    (hg : g.rest = '-' :: last :: rest) (hback : last ≠ '\\') (hclose : last ≠ ']') :
    rangeItem n last.toNat ∈ items := by
  obtain ⟨_, position⟩ := g
  obtain rfl : _ = '-' :: last :: rest := hg
  cases h with
  | alone hnone => simp [rangeHyphen?, Cursor.eat?, Cursor.peek?, hclose] at hnone
  | @first d _ _ _ hhyphen hhigh _ hjoined =>
    obtain ⟨_, position⟩ := d
    obtain rfl : _ = last :: rest := (List.cons.inj (passes_of_rangeHyphen? hhyphen).1).2.symm
    rw [classAtom_char hback] at hhigh
    obtain rfl : ClassAtom.code last.toNat = _ := congrArg Prod.fst (Except.ok.inj hhigh)
    obtain ⟨_, _, ⟨⟩, ⟨⟩, -, hmem⟩ | ⟨hcodes, -⟩ := hjoined
    · exact hmem
    · exact absurd rfl (hcodes n _ rfl)

end StandsIn

theorem MeetsAtom.wellFormed {c : Cursor} {u t : List Char} {second : Bool} {a : ClassAtom}
    (h : MeetsAtom unicode opening c u t second a) : a.WellFormed unicode := by
  cases h with
  | first _ read => exact wellFormed_of_classAtom read
  | second _ _ _ _ readHigh => exact wellFormed_of_classAtom readHigh

/-! ### Each range at one place of the body -/

theorem covers_rangeItem {n m : Nat} {first last ch : Char} (hfirst : char? n = some first)
    (hlast : char? m = some last) (hn : n ≤ ch.toNat) (hm : ch.toNat ≤ m) :
    (rangeItem n m).Covers ch := by
  simp only [rangeItem, hfirst, hlast]
  constructor
  · show first.toNat ≤ ch.toNat
    rwa [toNat_of_char? hfirst]
  · show ch.toNat ≤ last.toNat
    rwa [toNat_of_char? hlast]

/-- The first character of a range belongs to an atom that does not begin the range: to its second
end, or to the escape of a later character. -/
inductive SpanMisread (unicode : Bool) (opening : Nat) (c : Cursor) (first : Char)
    (before : List Char) : Prop
  | secondEnd {u v : List Char} {a : ClassAtom} (place : before = u ++ v)
      (meets : MeetsAtom unicode opening c u (v ++ [first]) true a)
  | laterCharacter {u v : List Char} {n : Nat} (place : before = u ++ v)
      (meets : MeetsAtom unicode opening c u (v ++ [first]) false (.code n))
      (later : first.toNat < n)

/-- An underscore is the letter of a control escape, or in a property, or begins a range that ends
in the middle of a surrogate pair. -/
inductive UnderscoreMisread (unicode : Bool) (opening : Nat) (c : Cursor) (before : List Char) :
    Prop
  | control {u : List Char} {second : Bool} {a : ClassAtom} (place : before = u ++ ['\\', 'c'])
      (meets : MeetsAtom unicode opening c u ['\\', 'c', '_'] second a)
  | property {u v w : List Char} {second : Bool} {p : Property} (place : before = u ++ v)
      (meets : MeetsAtom unicode opening c u (v ++ '_' :: w) second (.property p))
  | surrogate {w : List Char} {n : Nat} (half : IsSurrogate n)
      (meets : MeetsAtom unicode opening c (before ++ ['_', '-']) w true (.code n))

/-- The backslash of the escape for a space is escaped itself. -/
inductive SpaceMisread (unicode : Bool) (opening : Nat) (c : Cursor) (before : List Char) : Prop
  | escaped {u : List Char} {second : Bool} {a : ClassAtom} (place : before = u ++ ['\\'])
      (meets : MeetsAtom unicode opening c u ['\\', '\\'] second a)

section

variable {c e : Cursor} {items : List ClassItem} {body before after : List Char}

theorem span_covered_or_misread {first last : Char}
    (h : classMembers unicode opening c = .ok (items, e)) (hbody : c.Passes body e)
    (hsplit : body = before ++ first :: '-' :: last :: after) (hascii : first.toNat < 0x80)
    (hfirst : first.isAlphanum) (hletter : ClassEscape.ofLetter? first = none)
    (hlast : last.isAlphanum) :
    (∀ ch, first ≤ ch → ch ≤ last → ∃ item ∈ items, item.Covers ch) ∨
      SpanMisread unicode opening c first before := by
  have hmark {ch : Char} (hch : ch.isAlphanum) :
      ch ≠ '-' ∧ ch ≠ '\\' ∧ ch ≠ ']' ∧ ch ≠ '}' := by
    refine ⟨?_, ?_, ?_, ?_⟩ <;> rintro rfl <;> cases hch
  obtain ⟨u, v, w, a, g, second, rfl, hrest, htext, hmeets, hstands⟩ :=
    exists_atom h hbody hsplit (hmark hfirst).1
  obtain rfl : w = [] := by
    cases w with
    | nil => rfl
    | cons x w =>
      obtain rfl : x = '-' := (List.cons.inj hrest).1
      have hmem : '-' ∈ (v ++ first :: '-' :: w).tail := by cases v <;> simp
      have hescaped := htext.eq_of_hyphen_mem_tail hmem
      have hfirst' : first ∈ ['\\', '-'] := by simp [← hescaped]
      simp [hmark hfirst] at hfirst'
  obtain ⟨n, rfl⟩ := htext.exists_code_of_last hletter (hmark hfirst).2.2.2
  cases second with
  | true => exact .inr (.secondEnd rfl hmeets)
  | false =>
    by_cases hlater : first.toNat < n
    · exact .inr (.laterCharacter rfl hmeets hlater)
    · have hmem := hstands.range hrest (hmark hlast).2.1 (hmark hlast).2.2.1
      obtain ⟨low, hlow⟩ := exists_char?_of_lt (by omega : n < 0xd800)
      refine .inl fun ch hfirst hlast => ⟨_, hmem, ?_⟩
      have hle : first.toNat ≤ ch.toNat := hfirst
      exact covers_rangeItem hlow (char?_toNat last) (by omega) hlast

theorem underscore_covered_or_misread
    (h : classMembers unicode opening c = .ok (items, e)) (hbody : c.Passes body e)
    (hsplit : body = before ++ '_' :: after) :
    (∃ item ∈ items, item.Covers '_') ∨ UnderscoreMisread unicode opening c before := by
  obtain ⟨u, v, w, a, g, second, rfl, hrest, htext, hmeets, hstands⟩ :=
    exists_atom h hbody hsplit (by decide)
  obtain ⟨rfl, rfl⟩ | ⟨rfl, rfl⟩ | ⟨p, rfl⟩ := htext.cases_of_underscore
  · obtain hmem | ⟨n, m, t, hn, hle, hmem, hend⟩ | ⟨n, m, hm, hle, hmem⟩ :=
      hstands.member_or_end
    · rw [item_code] at hmem
      exact .inl ⟨_, hmem, rfl⟩
    · cases hn
      cases hlast : char? m with
      | some last =>
        exact .inl ⟨_, hmem, covers_rangeItem (char?_toNat '_') hlast (Nat.le_refl _) hle⟩
      | none =>
        have hhalf := isSurrogate_of_char?_eq_none hend.wellFormed hlast
        exact .inr (.surrogate hhalf (by simpa using hend))
    · cases hm
      obtain ⟨first, hfirst⟩ := exists_char?_of_lt (Nat.lt_of_le_of_lt hle (by decide))
      exact .inl ⟨_, hmem, covers_rangeItem hfirst (char?_toNat '_') hle (Nat.le_refl _)⟩
  · exact .inr (.control rfl hmeets)
  · exact .inr (.property rfl hmeets)

theorem space_mem_or_misread
    (h : classMembers unicode opening c = .ok (items, e)) (hbody : c.Passes body e)
    (hsplit : body = before ++ '\\' :: 's' :: after) :
    .escape .space ∈ items ∨ SpaceMisread unicode opening c before := by
  obtain ⟨u, v, w, a, g, second, rfl, hrest, htext, hmeets, hstands⟩ :=
    exists_atom h hbody hsplit (by decide)
  obtain ⟨rfl, rfl⟩ | ⟨rfl, rfl⟩ := htext.cases_of_space (by rw [hrest]; rfl)
  · obtain hmem | ⟨n, m, w', hn, -⟩ | ⟨n, m, hm, -⟩ := hstands.member_or_end
    · exact .inl hmem
    · cases hn
    · cases hm
  · exact .inr (.escaped rfl hmeets)

end

end Grammar

/-- At a place of the body the text of the range belongs to something else. -/
def NamedRange.Misread (unicode : Bool) (opening : Nat) (c : Cursor) (before : List Char) :
    NamedRange → Prop
  | .lower => Grammar.SpanMisread unicode opening c 'a' before
  | .upper => Grammar.SpanMisread unicode opening c 'A' before
  | .digit => Grammar.SpanMisread unicode opening c '0' before
  | .underscore => Grammar.UnderscoreMisread unicode opening c before
  | .whitespace => Grammar.SpaceMisread unicode opening c before

theorem NamedRange.isTrueOf_or_misread {unicode : Bool} {opening : Nat} {c d : Cursor}
    {b : Bracket} {before after : List Char}
    (h : Grammar.bracketBody unicode opening c = .ok (b, d)) (r : NamedRange)
    (hsplit : b.raw.toList = before ++ (r.chars ++ after)) :
    r.IsTrueOf b.items ∨ r.Misread unicode opening (Grammar.negation c).2 before := by
  obtain ⟨items, e, hmembers, -, rfl⟩ := Grammar.bracketBody_eq_ok h
  obtain ⟨body, hbody⟩ := Grammar.reaches_of_classMembers hmembers
  dsimp only at hsplit ⊢
  rw [hbody.textTo_eq, String.toList_ofList] at hsplit
  cases r with
  | lower | upper | digit =>
    exact Grammar.span_covered_or_misread hmembers hbody hsplit (by decide) rfl rfl rfl
  | underscore => exact Grammar.underscore_covered_or_misread hmembers hbody hsplit
  | whitespace => exact Grammar.space_mem_or_misread hmembers hbody hsplit

/-! ### Ranges that are found -/

/-- The ranges that are looked for before this one. -/
def NamedRange.earlier (r : NamedRange) : List NamedRange := all.takeWhile (· ≠ r)

/-- What is left of the body when the range is looked for. -/
def NamedRange.searched (body : String) (r : NamedRange) : List Char :=
  (r.earlier.foldl CharClass.extract ({}, body.toList)).2

namespace CharClass

theorem isOn_extract {r r' : NamedRange} {found : Toggles × List Char}
    (h : found.1.isOn r') : (extract found r).1.isOn r' := by
  unfold extract
  split
  next => exact h
  next => simp [Toggles.isOn_switchOn, h]

theorem isOn_foldl_extract {r' : NamedRange} {rs : List NamedRange}
    {found : Toggles × List Char} (h : found.1.isOn r') : (rs.foldl extract found).1.isOn r' := by
  induction rs generalizing found with
  | nil => exact h
  | cons r rs ih => exact ih (isOn_extract h)

theorem isOn_foldl_extract_of_notMem {r' : NamedRange} {rs : List NamedRange} (h : r' ∉ rs)
    (found : Toggles × List Char) : (rs.foldl extract found).1.isOn r' = found.1.isOn r' := by
  induction rs generalizing found with
  | nil => rfl
  | cons r rs ih =>
    obtain ⟨hne, hmem⟩ := List.ne_and_not_mem_of_not_mem_cons h
    exact (ih hmem _).trans (isOn_extract_of_ne hne found)

/-- Nothing changes as long as nothing is found. -/
theorem foldl_extract_eq_or_isOn (rs : List NamedRange) (found : Toggles × List Char) :
    rs.foldl extract found = found ∨ ∃ r ∈ rs, (rs.foldl extract found).1.isOn r := by
  induction rs generalizing found with
  | nil => exact .inl rfl
  | cons r rs ih =>
    cases hcut : removeFirst? r.chars found.2 with
    | none =>
      have hsame : extract found r = found := by simp only [extract, hcut]
      obtain heq | ⟨r', hr', hon⟩ := ih (extract found r)
      · exact .inl (heq.trans hsame)
      · exact .inr ⟨r', List.mem_cons_of_mem _ hr', hon⟩
    | some rest =>
      have hon : (extract found r).1.isOn r := by simp [extract, hcut, Toggles.isOn_switchOn]
      refine .inr ⟨r, List.mem_cons_self, ?_⟩
      rw [List.foldl_cons]
      exact isOn_foldl_extract hon

theorem isOn_extract_self {r : NamedRange} {found : Toggles × List Char}
    (h : found.1.isOn r = false) : (extract found r).1.isOn r ↔ r.chars <:+: found.2 := by
  by_cases hin : r.chars <:+: found.2
  · cases hcut : removeFirst? r.chars found.2 with
    | none => exact absurd hin (not_infix_of_removeFirst?_eq_none r.chars_ne_nil hcut)
    | some rest => simp [extract, hcut, Toggles.isOn_switchOn, hin]
  · simp [extract, removeFirst?_eq_none hin, h, hin]

theorem exists_later (r : NamedRange) :
    ∃ later, NamedRange.all = r.earlier ++ r :: later ∧ r ∉ r.earlier ∧ r ∉ later := by
  cases r <;> exact ⟨_, rfl, by decide, by decide⟩

/-- A range is found if it is in what is left when its turn comes. -/
theorem isOn_ofBody {body : String} {r : NamedRange} :
    (ofBody body).toggles.isOn r ↔ r.chars <:+: r.searched body := by
  obtain ⟨later, hall, hearlier, hlater⟩ := exists_later r
  have hoff : (r.earlier.foldl extract ({}, body.toList)).1.isOn r = false := by
    rw [isOn_foldl_extract_of_notMem hearlier, Toggles.isOn_empty]
  rw [NamedRange.searched, ← isOn_extract_self hoff, ofBody, hall, List.foldl_append,
    List.foldl_cons, isOn_foldl_extract_of_notMem hlater]

theorem searched_eq_or_isOn (body : String) (r : NamedRange) :
    r.searched body = body.toList ∨ ∃ r' ∈ r.earlier, (ofBody body).toggles.isOn r' := by
  obtain ⟨later, hall, -⟩ := exists_later r
  obtain hsame | ⟨r', hr', hon⟩ := foldl_extract_eq_or_isOn r.earlier ({}, body.toList)
  · exact .inl (congrArg Prod.snd hsame)
  · refine .inr ⟨r', hr', ?_⟩
    rw [ofBody, hall, List.foldl_append]
    exact isOn_foldl_extract hon

theorem underscore_mem_of_isOn {body : String} (h : (ofBody body).toggles.isOn .underscore) :
    '_' ∈ body.toList := by
  have hperm := ((extracted_start body.toList).foldl NamedRange.nodup_all).perm
  refine hperm.mem_iff.mp (List.mem_append_right _ ?_)
  exact List.mem_flatMap.mpr ⟨.underscore, Toggles.mem_ranges.mpr h, List.mem_singleton_self _⟩

end CharClass

/-- The text of the range is not in the body, and comes together where other ranges are cut out. -/
structure NamedRange.ComesTogether (body : String) (r : NamedRange) : Prop where
  absent : ¬r.chars <:+: body.toList
  searched : r.chars <:+: r.searched body
  found : ∃ r' ∈ r.earlier, (CharClass.ofBody body).toggles.isOn r'

theorem NamedRange.infix_or_comesTogether {body : String} {r : NamedRange}
    (h : (CharClass.ofBody body).toggles.isOn r) :
    r.chars <:+: body.toList ∨ (r.ComesTogether body ∧ r ≠ .underscore) := by
  by_cases hin : r.chars <:+: body.toList
  · exact .inl hin
  have hsearched := CharClass.isOn_ofBody.mp h
  refine .inr ⟨⟨hin, hsearched, ?_⟩, ?_⟩
  · refine (CharClass.searched_eq_or_isOn body r).resolve_left fun hsame => hin ?_
    rwa [hsame] at hsearched
  · rintro rfl
    exact hin ((List.singleton_infix_iff _ _).mpr (CharClass.underscore_mem_of_isOn h))

/-- What a range says that is switched on for a class in a pattern: it is true of the members of
the class, or its text is in the body but belongs to something else wherever it occurs, or its text
is not in the body and came together where another range was cut out. -/
theorem Bracket.toggles_true_or_misread {unicode : Bool} {text : String} {p : Pattern} {b : Bracket}
    (h : Pattern.parse unicode text = .ok p) (hb : .bracket b ∈ p.root.subtrees) :
    ∃ opening c d, Grammar.bracketBody unicode opening c = .ok (b, d) ∧
      ∀ r : NamedRange, (CharClass.ofBody b.raw).toggles.isOn r →
        r.IsTrueOf b.items ∨
          (r.chars <:+: b.raw.toList ∧
            ∀ before after, b.raw.toList = before ++ (r.chars ++ after) →
              r.Misread unicode opening (Grammar.negation c).2 before) ∨
          (r.ComesTogether b.raw ∧ r ≠ .underscore) := by
  cases (Pattern.isDisjunction_of_parse h).leaf_of_mem hb rfl with
  | bracket body =>
    refine ⟨_, _, _, body, fun r hon => ?_⟩
    by_cases htrue : r.IsTrueOf b.items
    · exact .inl htrue
    obtain hin | htogether := NamedRange.infix_or_comesTogether hon
    · exact .inr (.inl ⟨hin, fun before after hsplit =>
        (r.isTrueOf_or_misread body hsplit).resolve_left htrue⟩)
    · exact .inr (.inr htogether)

/-- One of the brackets in a pattern passes the check. -/
def Bracket.anyIn (unicode : Bool) (text : String) (check : Bracket → Bool) : Bool :=
  (Pattern.parse unicode text).toOption.any fun p => p.root.subtrees.any fun
    | .bracket b => check b
    | _ => false

theorem Bracket.exists_of_anyIn {unicode : Bool} {text : String} {check : Bracket → Bool}
    (h : Bracket.anyIn unicode text check) :
    ∃ p b, Pattern.parse unicode text = .ok p ∧ .bracket b ∈ p.root.subtrees ∧ check b := by
  obtain ⟨p, hp, hany⟩ := exists_of_any h
  obtain ⟨r, hr, hcheck⟩ := List.any_eq_true.mp hany
  cases r with
  | bracket b => exact ⟨p, b, hp, hr, hcheck⟩
  | _ => cases hcheck

/-- Two ranges are what they seem, and two others only share their texts with other members. -/
theorem Bracket.toggles_true_or_misread_mixed :
    ∃ text p b, text = "x(?=[^a-a-z0-9_\\\\s])" ∧ Pattern.parse true text = .ok p ∧
      .bracket b ∈ p.root.subtrees ∧
      (CharClass.ofBody b.raw).toggles.ranges = [.lower, .digit, .underscore, .whitespace] ∧
      ∃ opening c d, Grammar.bracketBody true opening c = .ok (b, d) ∧
        ∀ r : NamedRange, (CharClass.ofBody b.raw).toggles.isOn r →
          r.IsTrueOf b.items ∨
            (r.chars <:+: b.raw.toList ∧
              ∀ before after, b.raw.toList = before ++ (r.chars ++ after) →
                r.Misread true opening (Grammar.negation c).2 before) ∨
            (r.ComesTogether b.raw ∧ r ≠ .underscore) := by
  have hcheck : Bracket.anyIn true "x(?=[^a-a-z0-9_\\\\s])" fun b =>
      (CharClass.ofBody b.raw).toggles.ranges = [.lower, .digit, .underscore, .whitespace] := by
    decide +kernel
  obtain ⟨p, b, hp, hb, hranges⟩ := Bracket.exists_of_anyIn hcheck
  exact ⟨_, p, b, rfl, hp, hb, of_decide_eq_true hranges, Bracket.toggles_true_or_misread hp hb⟩

/-- Somewhere in the pattern the range is switched on for a class but not true of it. -/
def NamedRange.IsUntrueIn (text : String) (r : NamedRange) : Prop :=
  ∃ p b, Pattern.parse false text = .ok p ∧ .bracket b ∈ p.root.subtrees ∧
    (CharClass.ofBody b.raw).toggles.isOn r ∧ ¬r.IsTrueOf b.items

theorem NamedRange.isUntrueIn_of_items {text : String} {r : NamedRange} (items : List ClassItem)
    (h : Bracket.anyIn false text fun b =>
      b.items = items && (CharClass.ofBody b.raw).toggles.isOn r)
    (hitems : ¬r.IsTrueOf items) : r.IsUntrueIn text := by
  obtain ⟨p, b, hp, hb, hcheck⟩ := Bracket.exists_of_anyIn h
  obtain ⟨heq, hon⟩ := Bool.and_eq_true_iff.mp hcheck
  rw [← of_decide_eq_true heq] at hitems
  exact ⟨p, b, hp, hb, hon, hitems⟩

/-- An escaped backslash before an `s`, the second end of a range before a hyphen, a text that comes
together, and a control escape. -/
theorem Bracket.toggles_not_true :
    NamedRange.whitespace.IsUntrueIn "[\\\\s]" ∧ NamedRange.lower.IsUntrueIn "[a-a-z]" ∧
      NamedRange.whitespace.IsUntrueIn "[\\a-zs]" ∧ NamedRange.underscore.IsUntrueIn "[\\c_]" := by
  refine ⟨?_, ?_, ?_, ?_⟩
  · refine NamedRange.isUntrueIn_of_items [.char '\\', .char 's'] (by decide +kernel) ?_
    exact fun hmem : ClassItem.escape .space ∈ _ => absurd hmem (by decide)
  · refine NamedRange.isUntrueIn_of_items [.range 'a' 'a', .char '-', .char 'z']
      (by decide +kernel) ?_
    exact fun hall => absurd (hall 'b' (by decide) (by decide)) (by decide)
  · refine NamedRange.isUntrueIn_of_items [.range 'a' 'z', .char 's'] (by decide +kernel) ?_
    exact fun hmem : ClassItem.escape .space ∈ _ => absurd hmem (by decide)
  · refine NamedRange.isUntrueIn_of_items [.char '\x1f'] (by decide +kernel) ?_
    exact fun hex : ∃ item ∈ _, ClassItem.Covers '_' item => absurd hex (by decide)

end PatternBlocks
