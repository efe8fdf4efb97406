import PatternBlocks.Proofs.BracketContext
import PatternBlocks.Proofs.Captures
import PatternBlocks.Proofs.Reread

/-!
The text of a class between its brackets. If it is read as a class anywhere, then it is read as the
same class everywhere, and a class built from named ranges and custom characters always is.
-/
namespace PatternBlocks

theorem takeBytes_append (w rest : List Char) : takeBytes (utf8Length w) (w ++ rest) = w := by
  induction w with
  | nil =>
    cases rest with
    | nil => rfl
    | cons ch rest =>
      have := ch.utf8Size_pos
      simp only [List.nil_append, utf8Length_nil, takeBytes]
      rw [if_neg (by omega)]
  | cons ch w ih =>
    simp only [List.cons_append, utf8Length_cons, takeBytes]
    rw [if_pos (by omega), Nat.add_sub_cancel_left, ih]

theorem Cursor.Passes.textTo_eq {c d : Cursor} {w : List Char} (h : c.Passes w d) :
    c.textTo d = String.ofList w := by
  rw [textTo, h.1, h.2, Nat.add_sub_cancel_left, takeBytes_append]

namespace CharClass

/-- The text is read as the inside of a class somewhere. -/
def IsInside (unicode : Bool) (inside : List Char) : Prop :=
  ∃ opening rest position b d,
    Grammar.bracketBody unicode opening ⟨inside ++ ']' :: rest, position⟩ = .ok (b, d) ∧
      d.rest = rest

theorem inside_ofInside (text : List Char) : (ofInside text).inside = text := by
  unfold ofInside
  split <;> simp [inside, ofBody, body]

end CharClass

namespace Grammar

variable {unicode : Bool} {opening : Nat}

/-- A class is negated if its text begins with a hat; the remaining text is its body. -/
theorem negation_inside (inside : List Char) :
    ∃ negated body, CharClass.ofInside inside =
        { CharClass.ofBody (String.ofList body) with negate := negated } ∧
      ∀ rest position, ∃ after, negation ⟨inside ++ ']' :: rest, position⟩ =
        (negated, ⟨body ++ ']' :: rest, after⟩) := by
  unfold CharClass.ofInside
  split
  next body =>
    refine ⟨true, body, rfl, fun rest position => ⟨position + '^'.utf8Size, ?_⟩⟩
    simp [negation, Cursor.eat?]
  next _ hne =>
    refine ⟨false, inside, by simp only [CharClass.ofBody], fun rest position => ⟨position, ?_⟩⟩
    have hhead : (inside ++ ']' :: rest).head? ≠ some '^' := by
      cases inside with
      | nil => simp
      | cons ch body =>
        simp only [List.cons_append, List.head?_cons, ne_eq, Option.some.injEq]
        rintro rfl
        exact hne body rfl
    simp only [negation, Cursor.eat?_eq_none hhead]

theorem peek?_of_classMembers {items : List ClassItem} {c d : Cursor}
    (h : classMembers unicode opening c = .ok (items, d)) : d.peek? = some ']' := by
  fun_induction classMembers unicode opening c generalizing items with
  | case1 => cases h
  | case2 c hpeek =>
    cases h
    exact hpeek
  | case3 => cases h
  | case4 => cases h
  | case5 c _ _ _ items' e he more f hf ih =>
    cases h
    exact ih hf

theorem bracketBody_eq_ok {b : Bracket} {c d : Cursor}
    (h : bracketBody unicode opening c = .ok (b, d)) :
    ∃ items e, classMembers unicode opening (negation c).2 = .ok (items, e) ∧
      e.next? = some (']', d) ∧
      b = ⟨(negation c).1, items, (negation c).2.textTo e, d.spanSince opening⟩ := by
  unfold bracketBody at h
  dsimp only at h
  split at h
  next => cases h
  next items e he =>
    split at h
    next => cases h
    next ch f hf =>
      cases h
      have hpeek := peek?_of_classMembers he
      have hch : ch = ']' := by
        rw [Cursor.peek?, (Cursor.passes_of_next? hf).1] at hpeek
        exact Option.some.inj hpeek
      rw [hch] at hf
      exact ⟨items, e, he, hf, rfl⟩

/-- What is read as a class somewhere is read as the same class everywhere. -/
theorem bracketBody_elsewhere {inside rest₀ : List Char} {opening₀ position₀ : Nat} {b₀ : Bracket}
    {d₀ : Cursor}
    (hread : bracketBody unicode opening₀ ⟨inside ++ ']' :: rest₀, position₀⟩ = .ok (b₀, d₀))
    (hrest₀ : d₀.rest = rest₀) (opening position : Nat) (rest : List Char) :
    ∃ b d, bracketBody unicode opening ⟨inside ++ ']' :: rest, position⟩ = .ok (b, d) ∧
      d.rest = rest ∧ Block.ofBracket b = .charClass (CharClass.ofInside inside) .one ∧
      SameItems b₀.items b.items := by
  obtain ⟨negated, body, hclass, hneg⟩ := negation_inside inside
  obtain ⟨items₀, e₀, hmembers₀, hnext₀, rfl⟩ := bracketBody_eq_ok hread
  obtain ⟨after₀, hneg₀⟩ := hneg rest₀ position₀
  obtain ⟨after, hneg⟩ := hneg rest position
  rw [hneg₀] at hmembers₀
  have he₀ : e₀.rest = ']' :: rest₀ := by
    rw [(Cursor.passes_of_next? hnext₀).1, hrest₀, List.singleton_append]
  have hparallel : Parallel rest₀ rest SameItems
      (classMembers unicode opening₀ ⟨body ++ ']' :: rest₀, after₀⟩)
      (classMembers unicode opening ⟨body ++ ']' :: rest, after⟩) :=
    parallel_classMembers ⟨body, rfl, rfl⟩
  obtain ⟨items, e, hmembers, hitems, u, hu₀, hu⟩ := hparallel _ _ hmembers₀ (by simp [he₀])
  obtain rfl : u = [] := by
    have hlen := congrArg List.length (he₀.symm.trans hu₀)
    simp only [List.length_append, List.length_cons] at hlen
    exact List.length_eq_zero_iff.mp (by omega)
  have hbody : Cursor.Passes ⟨body ++ ']' :: rest, after⟩ body e := by
    obtain ⟨w, hw⟩ := reaches_of_classMembers hmembers
    have hword : body = w := by
      have := hw.1
      rw [hu] at this
      exact List.append_cancel_right this
    rwa [hword] at hw ⊢
  have hnext : e.next? = some (']', ⟨rest, e.position + ']'.utf8Size⟩) := by
    obtain ⟨erest, eposition⟩ := e
    dsimp only at hu
    subst hu
    rfl
  refine ⟨⟨negated, items, String.ofList body, ⟨opening, e.position + ']'.utf8Size⟩⟩,
    ⟨rest, e.position + ']'.utf8Size⟩, ?_, rfl, ?_, hitems⟩
  · unfold bracketBody
    simp only [hneg, hmembers, hnext, hbody.textTo_eq]
    rfl
  · rw [hclass]
    rfl

/-- The text of a class is the same class in every context. -/
theorem bracketBody_of_isInside {inside : List Char} (h : CharClass.IsInside unicode inside)
    (opening position : Nat) (rest : List Char) :
    ∃ b d, bracketBody unicode opening ⟨inside ++ ']' :: rest, position⟩ = .ok (b, d) ∧
      d.rest = rest ∧ Block.ofBracket b = .charClass (CharClass.ofInside inside) .one := by
  obtain ⟨opening₀, rest₀, position₀, b₀, d₀, hread, hrest₀⟩ := h
  obtain ⟨b, d, hb, hd, hblock, -⟩ := bracketBody_elsewhere hread hrest₀ opening position rest
  exact ⟨b, d, hb, hd, hblock⟩

/-- A class that was read has a text that is read as the class. -/
theorem isInside_of_bracketBody {b : Bracket} {c d : Cursor}
    (h : bracketBody unicode opening c = .ok (b, d)) :
    ∃ inside, c.rest = inside ++ ']' :: d.rest ∧ CharClass.IsInside unicode inside ∧
      Block.ofBracket b = .charClass (CharClass.ofInside inside) .one := by
  obtain ⟨items, e, hmembers, hnext, -⟩ := bracketBody_eq_ok h
  obtain ⟨inside, hinside⟩ := (reaches_negation c).trans (reaches_of_classMembers hmembers)
  have hrest : c.rest = inside ++ ']' :: d.rest := by
    rw [hinside.1, (Cursor.passes_of_next? hnext).1, List.singleton_append]
  have hcursor : c = ⟨inside ++ ']' :: d.rest, c.position⟩ := by rw [← hrest]
  have his : CharClass.IsInside unicode inside :=
    ⟨opening, d.rest, c.position, b, d, hcursor ▸ h, rfl⟩
  obtain ⟨b', d', hread, -, hblock⟩ := bracketBody_of_isInside his opening c.position d.rest
  rw [← hcursor, h] at hread
  cases hread
  exact ⟨inside, hrest, his, hblock⟩

/-- The only term of a pattern that is a bracket expression is read as one. -/
theorem isInside_of_readsTerm {mode : Mode} {levels : Nat} {s t : State} {b : Bracket}
    {inside : List Char} (h : ReadsTerm mode levels s (.bracket b) t)
    (hs : s.cursor.rest = '[' :: inside ++ [']']) (ht : t.cursor.rest = []) :
    CharClass.IsInside mode.unicode inside := by
  obtain ⟨⟨rest, position⟩, groups⟩ := s
  dsimp only at hs
  subst hs
  cases h with
  | group first => simp [Cursor.next?] at first
  | plain first noGroup atom count =>
    simp only [Cursor.next?, List.cons_append, Option.some.injEq, Prod.mk.injEq] at first
    obtain ⟨rfl, rfl⟩ := first
    rcases repeated_eq_ok count with ⟨rfl, rfl⟩ | ⟨_, _, hrepetition, -⟩
    · simp only [plainAtom, Char.reduceEq, if_false, if_true] at atom
      obtain ⟨p, hb, heq⟩ := map_eq_ok.mp atom
      cases heq
      exact ⟨_, [], _, p.1, p.2, hb, ht⟩
    · cases hrepetition

/-! ### Classes without a body of their own -/

/-- A text is read as a member of a class wherever no hyphen follows. -/
structure IsMember (unicode : Bool) (w : List Char) (item : ClassItem) : Prop where
  first : ∃ ch more, w = ch :: more ∧ ch ≠ ']' ∧ ch ≠ '-' ∧ ch ≠ '^'
  read : ∀ opening position rest, rest.head? ≠ some '-' →
    classMember unicode opening ⟨w ++ rest, position⟩ =
      .ok ([item], ⟨rest, position + utf8Length w⟩)

theorem rangeHyphen?_eq_none {c : Cursor} (h : c.rest.head? ≠ some '-') :
    rangeHyphen? c = none := by
  simp only [rangeHyphen?, Cursor.eat?_eq_none h]

/-- A member by itself, before which an atom has been read. -/
theorem classMember_of_classAtom {atom : ClassAtom} {c d : Cursor}
    (h : classAtom unicode opening c = .ok (atom, d)) (hd : d.rest.head? ≠ some '-') :
    classMember unicode opening c = .ok ([atom.item], d) := by
  simp only [classMember, h, rangeHyphen?_eq_none hd]

theorem classAtom_char {ch : Char} (hch : ch ≠ '\\') (rest : List Char) (position : Nat) :
    classAtom unicode opening ⟨ch :: rest, position⟩ =
      .ok (.code ch.toNat, ⟨rest, position + ch.utf8Size⟩) := by
  simp [classAtom, Cursor.next?, hch]

theorem item_code (ch : Char) : (ClassAtom.code ch.toNat).item = .char ch := by
  simp only [ClassAtom.item, char?_toNat]

theorem isMember_char {ch : Char} (h : ch ∉ classSpecials) :
    IsMember unicode [ch] (.char ch) where
  first := by
    simp only [classSpecials, List.mem_cons, not_or] at h
    exact ⟨ch, [], rfl, h.2.1, h.2.2.1, h.2.2.2.1⟩
  read opening position rest hrest := by
    have hch : ch ≠ '\\' := by
      rintro rfl
      exact h (by decide)
    rw [← item_code ch]
    exact classMember_of_classAtom (classAtom_char hch rest position) hrest

theorem isMember_range {first last : Char} (hfirst : first ∉ classSpecials)
    (hlast : last ∉ classSpecials) (hle : first.toNat ≤ last.toNat) :
    IsMember unicode [first, '-', last] (.range first last) where
  first := by
    simp only [classSpecials, List.mem_cons, not_or] at hfirst
    exact ⟨first, _, rfl, hfirst.2.1, hfirst.2.2.1, hfirst.2.2.2.1⟩
  read opening position rest _ := by
    simp only [classSpecials, List.mem_cons, not_or] at hfirst hlast
    simp only [classMember, List.cons_append, List.nil_append, classAtom_char hfirst.1,
      classAtom_char hlast.1, rangeHyphen?, Cursor.eat?, Cursor.peek?, List.head?_cons,
      Option.all_some, hlast.2.1, decide_false, joinAtoms, if_true, Bool.false_eq_true, if_false]
    rw [if_neg (by omega)]
    simp [rangeItem, char?_toNat, Nat.add_assoc]

theorem isMember_escaped {ch : Char} {a : ClassAtom}
    (h : ∀ opening start position rest, classEscapeAtom unicode opening start
      ⟨ch :: rest, position⟩ = .ok (a, ⟨rest, position + ch.utf8Size⟩)) :
    IsMember unicode ['\\', ch] a.item where
  first := ⟨'\\', [ch], rfl, by decide, by decide, by decide⟩
  read opening position rest hrest := by
    have hatom : classAtom unicode opening ⟨['\\', ch] ++ rest, position⟩ =
        .ok (a, ⟨rest, position + utf8Length ['\\', ch]⟩) := by
      simp [classAtom, Cursor.next?, h, Nat.add_assoc]
    exact classMember_of_classAtom hatom hrest

theorem classEscapeAtom_special {ch : Char} (h : ch ∈ classSpecials) (start position : Nat)
    (rest : List Char) :
    classEscapeAtom unicode opening start ⟨ch :: rest, position⟩ =
      .ok (.code ch.toNat, ⟨rest, position + ch.utf8Size⟩) := by
  simp only [classSpecials, List.mem_cons, List.not_mem_nil, or_false] at h
  rcases h with rfl | rfl | rfl | rfl <;> cases unicode <;>
    simp [classEscapeAtom, characterEscape, Cursor.next?, ClassEscape.ofLetter?, controlCode?,
      syntaxCharacters, Except.map, Char.isDigit]

theorem isMember_quote (ch : Char) :
    IsMember unicode (quote classSpecials [ch]) (.char ch) := by
  by_cases h : ch ∈ classSpecials
  · have hquote : quote classSpecials [ch] = ['\\', ch] := by simp [quote, h]
    rw [hquote, ← item_code ch]
    exact isMember_escaped fun _ _ _ _ => classEscapeAtom_special h ..
  · have hquote : quote classSpecials [ch] = [ch] := by simp [quote, h]
    rw [hquote]
    exact isMember_char h

end Grammar

/-- What a named range means. -/
def NamedRange.item : NamedRange → ClassItem
  | .lower => .range 'a' 'z'
  | .upper => .range 'A' 'Z'
  | .digit => .range '0' '9'
  | .underscore => .char '_'
  | .whitespace => .escape .space

namespace Grammar

theorem isMember_chars (r : NamedRange) : IsMember unicode r.chars r.item := by
  cases r with
  | lower => exact isMember_range (by decide) (by decide) (by decide)
  | upper => exact isMember_range (by decide) (by decide) (by decide)
  | digit => exact isMember_range (by decide) (by decide) (by decide)
  | underscore => exact isMember_char (by decide)
  | whitespace =>
    exact isMember_escaped (a := .escape .space) fun _ _ _ _ => by
      simp [classEscapeAtom, Cursor.next?, ClassEscape.ofLetter?]

/-- Members one after the other are read up to the closing bracket. -/
theorem classMembers_flatten {ms : List (List Char × ClassItem)}
    (h : ∀ m ∈ ms, IsMember unicode m.1 m.2) (opening position : Nat) (rest : List Char) :
    classMembers unicode opening ⟨(ms.map (·.1)).flatten ++ ']' :: rest, position⟩ =
      .ok (ms.map (·.2), ⟨']' :: rest, position + utf8Length (ms.map (·.1)).flatten⟩) := by
  induction ms generalizing position with
  | nil => exact classMembers_bracket rfl
  | cons m ms ih =>
    have hms : ∀ m ∈ ms, IsMember unicode m.1 m.2 := fun m hm => h m (List.mem_cons_of_mem _ hm)
    obtain ⟨ch, more, hw, hbracket, -, -⟩ := (h m List.mem_cons_self).first
    have hnext : ((ms.map (·.1)).flatten ++ ']' :: rest).head? ≠ some '-' := by
      cases ms with
      | nil => simp
      | cons m' ms =>
        obtain ⟨ch', more', hw', -, hhyphen, -⟩ := (hms m' List.mem_cons_self).first
        simpa [hw'] using hhyphen
    have hfirst := (h m List.mem_cons_self).read opening position _ hnext
    have hpeek : Cursor.peek? ⟨m.1 ++ ((ms.map (·.1)).flatten ++ ']' :: rest), position⟩ =
        some ch := by
      rw [hw]
      rfl
    have hall := classMembers_cons hpeek hbracket hfirst (ih hms _)
    simpa [Nat.add_assoc] using hall

end Grammar

namespace CharClass

/-- What a class without a body of its own is built from, and what it means. -/
def members (c : CharClass) : List (List Char × ClassItem) :=
  c.toggles.ranges.map (fun r => (r.chars, r.item)) ++
    c.custom.toList.map fun ch => (quote classSpecials [ch], .char ch)

theorem flatten_members {c : CharClass} (h : c.raw = none) :
    (c.members.map (·.1)).flatten = c.body := by
  simp [body, h, members, quote, List.flatMap_def, Function.comp_def]

theorem isMember_of_mem_members (unicode : Bool) {c : CharClass} {m : List Char × ClassItem}
    (h : m ∈ c.members) : Grammar.IsMember unicode m.1 m.2 := by
  rcases List.mem_append.mp h with h | h
  · obtain ⟨r, -, rfl⟩ := List.mem_map.mp h
    exact Grammar.isMember_chars r
  · obtain ⟨ch, -, rfl⟩ := List.mem_map.mp h
    exact Grammar.isMember_quote ch

theorem negation_members (c : CharClass) (rest : List Char) (position : Nat) :
    Grammar.negation ⟨(if c.negate then ['^'] else []) ++
        ((c.members.map (·.1)).flatten ++ ']' :: rest), position⟩ =
      (c.negate, ⟨(c.members.map (·.1)).flatten ++ ']' :: rest,
        position + utf8Length (if c.negate then ['^'] else [])⟩) := by
  cases c.negate with
  | true => rfl
  | false =>
    have hhead : ((c.members.map (·.1)).flatten ++ ']' :: rest).head? ≠ some '^' := by
      cases hmembers : c.members with
      | nil => simp
      | cons m ms =>
        have hmem : m ∈ c.members := hmembers ▸ List.mem_cons_self
        obtain ⟨ch, more, hw, -, -, hch⟩ := (isMember_of_mem_members true hmem).first
        simpa [hw] using hch
    simp [Grammar.negation, Cursor.eat?_eq_none hhead]

/-- A class without a body of its own is read as the members that it is built from. -/
theorem bracketBody_of_raw_eq_none {unicode : Bool} {c : CharClass} (h : c.raw = none)
    (opening position : Nat) (rest : List Char) :
    Grammar.bracketBody unicode opening ⟨c.inside ++ ']' :: rest, position⟩ =
      .ok (⟨c.negate, c.members.map (·.2), String.ofList c.body,
          ⟨opening, position + utf8Length c.inside + ']'.utf8Size⟩⟩,
        ⟨rest, position + utf8Length c.inside + ']'.utf8Size⟩) := by
  have hhat := c.negation_members rest position
  have hmembers := Grammar.classMembers_flatten (fun _ => isMember_of_mem_members unicode (c := c))
    opening (position + utf8Length (if c.negate then ['^'] else [])) rest
  rw [flatten_members h] at hhat hmembers
  have hbody : Cursor.Passes
      ⟨c.body ++ ']' :: rest, position + utf8Length (if c.negate then ['^'] else [])⟩ c.body
      ⟨']' :: rest, position + utf8Length (if c.negate then ['^'] else []) + utf8Length c.body⟩ :=
    ⟨rfl, rfl⟩
  simp only [Grammar.bracketBody, inside, List.append_assoc, hhat, hmembers, Cursor.next?,
    hbody.textTo_eq, Cursor.spanSince, utf8Length_append, ← Nat.add_assoc]

/-- A class without a body of its own is read as a class. -/
theorem isInside_of_raw_eq_none {unicode : Bool} {c : CharClass} (h : c.raw = none) :
    IsInside unicode c.inside :=
  ⟨0, [], 0, _, _, bracketBody_of_raw_eq_none h 0 0 [], rfl⟩

theorem rest_ofString_text (c : CharClass) :
    (Cursor.ofString c.text).rest = '[' :: c.inside ++ [']'] := by
  rw [Cursor.ofString, text, String.toList_ofList, render_eq]

theorem isInside_of_standsAlone {unicode : Bool} {c : CharClass} (h : c.StandsAlone unicode) :
    IsInside unicode c.inside := by
  obtain ⟨p, b, hparse, hroot⟩ := h
  obtain ⟨rs, t, hrs, hend, hchoice, -⟩ := Pattern.parse_eq_ok hparse
  rw [hroot] at hchoice
  cases hrs with
  | more => cases hchoice
  | last terms =>
    cases terms with
    | nil => cases hchoice
    | cons more head tail =>
      cases tail with
      | cons => cases hchoice
      | nil =>
        cases hchoice
        exact Grammar.isInside_of_readsTerm head c.rest_ofString_text hend

end CharClass

end PatternBlocks
