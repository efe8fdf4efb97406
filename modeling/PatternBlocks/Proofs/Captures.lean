import PatternBlocks.Proofs.NamedReferences
import PatternBlocks.Proofs.Prescan

/-!
The capturing groups of a syntax tree. A reading registers exactly the groups of the tree that it
returns, in their order, and the count ahead of parsing counts the same ones.
-/
namespace PatternBlocks

namespace Regex

mutual

/-- The capturing groups in the order of their opening parentheses. -/
def captures : Regex → List Capture.Group
  | .group (.capturing index name) body _ => ⟨index, name⟩ :: body.captures
  | .group .nonCapturing body _ | .look _ _ body _ | .repetition _ _ body _ => body.captures
  | .concat terms _ => capturesOfAll terms
  | .alternation branches _ => capturesOfAll branches
  | _ => []

def capturesOfAll : List Regex → List Capture.Group
  | [] => []
  | r :: rs => r.captures ++ capturesOfAll rs

end

end Regex

open Capture

/-- The count of a text with further groups before it. -/
def Capture.Scan.behind (gs : List Capture.Group) (s : Scan) : Scan :=
  ⟨gs.length + s.count, gs.any (·.name.isSome) || s.anyNamed⟩

@[simp] theorem Capture.Scan.behind_nil (s : Scan) : s.behind [] = s := by simp [Scan.behind]

theorem Capture.Scan.behind_append (gs hs : List Capture.Group) (s : Scan) :
    s.behind (gs ++ hs) = (s.behind hs).behind gs := by
  simp [Scan.behind, Nat.add_assoc, Bool.or_assoc]

namespace Grammar

variable {mode : Mode}

/-- From `s` to `t` the groups `gs` are registered, and the count ahead of parsing counts them. -/
structure Opens (s : State) (gs : List Capture.Group) (t : State) : Prop where
  registered : t.groups.groups.toList = s.groups.groups.toList ++ gs
  counted : Scan.ofChars false s.cursor.rest = (Scan.ofChars false t.cursor.rest).behind gs

theorem Opens.trans {s t u : State} {gs hs : List Capture.Group} (h : Opens s gs t)
    (k : Opens t hs u) : Opens s (gs ++ hs) u where
  registered := by rw [k.registered, h.registered, List.append_assoc]
  counted := by rw [h.counted, k.counted, Scan.behind_append]

theorem Opens.of_eq {s t : State} (hg : t.groups = s.groups)
    (hc : Scan.ofChars false s.cursor.rest = Scan.ofChars false t.cursor.rest) :
    Opens s [] t where
  registered := by rw [hg, List.append_nil]
  counted := by rw [hc, Scan.behind_nil]

theorem Opens.skip {s t : State} {gs : List Capture.Group} {c : Cursor} (h : Opens s gs t)
    (hc : t.cursor.SkippedTo c) : Opens s gs { t with cursor := c } where
  registered := h.registered
  counted := by rw [h.counted, hc false]

def Opening.captures : Opening → List Capture.Group
  | .group (.capturing index name) => [⟨index, name⟩]
  | _ => []

theorem captures_close (o : Opening) (r : Regex) (span : Span) :
    (o.close r span).captures = o.captures ++ r.captures := by
  cases o with
  | group kind => cases kind <;> rfl
  | look => rfl

theorem captures_of_leaf {r : Regex} (h : Leaf mode r) : r.captures = [] := by
  cases h <;> rfl

theorem captures_of_repeated {unicode : Bool} {start : Nat} {r r' : Regex} {c d : Cursor}
    (h : repeated unicode start r c = .ok (r', d)) : r'.captures = r.captures := by
  obtain ⟨rfl, -⟩ | ⟨count, greedy, rfl, -⟩ := repeated_eq_ok h <;> rfl

theorem captures_sequence (rs : List Regex) (span : Span) :
    (sequence rs span).captures = Regex.capturesOfAll rs := by
  match rs with
  | [] => rfl
  | [r] => simp [sequence, Regex.capturesOfAll]
  | _ :: _ :: _ => rfl

theorem captures_choice (rs : Regex × List Regex) (span : Span) :
    (choice rs span).captures = Regex.capturesOfAll (rs.1 :: rs.2) := by
  match rs with
  | (r, []) => simp [choice, Regex.capturesOfAll]
  | (_, _ :: _) => rfl

/-- A name that is taken is refused; otherwise the group gets the next number. -/
theorem capture_eq_ok {name : Option String} {start : Nat} {s t : State} {o : Opening}
    (h : capture name start s = .ok (o, t)) :
    o = .group (.capturing (s.groups.size + 1) name) ∧
      t = { s with groups := s.groups.push name } ∧
      ∀ n, name = some n → ¬s.groups.hasName n := by
  unfold capture at h
  obtain ⟨n, -, -, heq⟩ | ⟨hnew, heq⟩ := s.groups.register_cases name
  · rw [heq] at h
    cases h
  · rw [heq] at h
    cases h
    exact ⟨rfl, rfl, hnew⟩

theorem opens_of_capture {name : Option String} {start : Nat} {s t : State} {o : Opening}
    (h : capture name start s = .ok (o, t)) :
    t.cursor = s.cursor ∧ o.captures = [⟨s.groups.size + 1, name⟩] ∧
      t.groups.groups.toList = s.groups.groups.toList ++ o.captures := by
  obtain ⟨rfl, rfl, -⟩ := capture_eq_ok h
  simp [Opening.captures, Registry.push]

theorem ofChars_plainGroup {rest : List Char} (h : rest.head? ≠ some '?') :
    Scan.ofChars false ('(' :: rest) = (Scan.ofChars false rest).addPlain := by
  rw [Scan.ofChars.eq_def]
  simp only [Char.reduceEq, if_false, if_true, Bool.false_eq_true]
  split
  · exact absurd rfl h
  · exact absurd rfl h
  · rfl

theorem ofChars_markedGroup {rest : List Char} (h : rest.head? ≠ some '<') :
    Scan.ofChars false ('(' :: '?' :: rest) = Scan.ofChars false rest := by
  rw [Scan.ofChars.eq_def]
  simp only [Char.reduceEq, if_false, if_true, Bool.false_eq_true]
  split
  next heq =>
    cases heq
    exact absurd rfl h
  next heq =>
    cases heq
    rfl
  next hne => exact absurd rfl (hne rest)

theorem ofChars_angledGroup (rest : List Char) :
    Scan.ofChars false ('(' :: '?' :: '<' :: rest) =
      if rest.head? = some '=' ∨ rest.head? = some '!' then Scan.ofChars false rest
      else (Scan.ofChars false rest).addNamed := by
  rw [Scan.ofChars.eq_def]
  simp

theorem opens_of_markedOpening? {s : State} {c d : Cursor} {o : Opening}
    (hb : s.cursor.next? = some ('(', c)) (hc : c.eat? '?' = some d) {e : Cursor}
    (h : markedOpening? d = some (o, e)) : Opens s o.captures { s with cursor := e } := by
  obtain ⟨mark, hmem, hmark⟩ := markedOpening?_eq_some h
  have hb := (Cursor.passes_of_next? hb).1
  have hc := (Cursor.passes_of_eat? hc).1
  have hd := (Cursor.passes_of_eatAll? hmark).1
  have hnone : o.captures = [] := by
    revert hmem
    simp only [markedOpenings, List.mem_cons, Prod.mk.injEq, List.not_mem_nil, or_false]
    rintro (⟨-, rfl⟩ | ⟨-, rfl⟩ | ⟨-, rfl⟩ | ⟨-, rfl⟩ | ⟨-, rfl⟩) <;> rfl
  rw [hnone]
  refine .of_eq rfl ?_
  rw [hb, hc, hd]
  simp only [markedOpenings, List.mem_cons, Prod.mk.injEq, List.not_mem_nil, or_false] at hmem
  have hplain (ch : Char) (hch : isPlain ch := by decide) :=
    ofChars_cons_of_isPlain hch false e.rest
  obtain ⟨rfl, -⟩ | ⟨rfl, -⟩ | ⟨rfl, -⟩ | ⟨rfl, -⟩ | ⟨rfl, -⟩ := hmem
  · exact (ofChars_markedGroup (by simp)).trans (hplain ':')
  · exact (ofChars_markedGroup (by simp)).trans (hplain '=')
  · exact (ofChars_markedGroup (by simp)).trans (hplain '!')
  · exact (ofChars_angledGroup _).trans (by simpa using hplain '=')
  · exact (ofChars_angledGroup _).trans (by simpa using hplain '!')

theorem head?_of_groupName? {c d : Cursor} {name : String} (h : c.groupName? = some (name, d)) :
    ¬(c.rest.head? = some '=' ∨ c.rest.head? = some '!') := by
  unfold Cursor.groupName? at h
  split at h
  next => cases h
  next first e he =>
    split at h
    next hs =>
      rw [(Cursor.passes_of_next? he).1]
      rintro (hf | hf) <;> cases hf <;> revert hs <;> decide +kernel
    next => cases h

theorem opens_of_namedOpening {name : String} {start : Nat} {s t : State} {c d e f g : Cursor}
    {o : Opening} (hb : s.cursor.next? = some ('(', c)) (hc : c.eat? '?' = some d)
    (hd : d.eat? '<' = some e) (hname : e.groupName? = some (name, f))
    (hclose : f.eat? '>' = some g)
    (h : capture (some name) start { s with cursor := g } = .ok (o, t)) :
    Opens s o.captures t := by
  obtain ⟨hcursor, hcaptures, hregistered⟩ := opens_of_capture h
  have hskip : e.SkippedTo t.cursor := by
    rw [hcursor]
    exact (Cursor.skippedTo_of_groupName? hname).trans
      (Cursor.skippedTo_of_eat? hclose (by decide))
  have hb := (Cursor.passes_of_next? hb).1
  have hc := (Cursor.passes_of_eat? hc).1
  have hd := (Cursor.passes_of_eat? hd).1
  refine ⟨hregistered, ?_⟩
  rw [hb, hc, hd, hcaptures]
  simp only [List.cons_append, List.nil_append]
  rw [ofChars_angledGroup, if_neg (head?_of_groupName? hname), hskip false]
  simp [Scan.behind, Scan.addNamed, Nat.add_comm]

/-- Opening a parenthesis registers what it captures, and the count takes it for the same. -/
theorem opens_of_opening {start : Nat} {s t : State} {c : Cursor} {o : Opening}
    (hb : s.cursor.next? = some ('(', c))
    (h : opening start { s with cursor := c } = .ok (o, t)) : Opens s o.captures t := by
  cases readsOpening_of_opening h with
  | plain noMark numbered =>
    obtain ⟨hcursor, hcaptures, hregistered⟩ := opens_of_capture numbered
    refine ⟨hregistered, ?_⟩
    have hb := (Cursor.passes_of_next? hb).1
    have hhead : c.rest.head? ≠ some '?' := by
      obtain ⟨rest, position⟩ := c
      intro hs
      cases rest with
      | nil => cases hs
      | cons ch rest =>
        cases hs
        simp [Cursor.eat?] at noMark
    rw [hb, hcursor, hcaptures, List.singleton_append, ofChars_plainGroup hhead]
    simp [Scan.behind, Scan.addPlain, Nat.add_comm]
  | marked question mark => exact opens_of_markedOpening? hb question mark
  | named question _ angle read close numbered =>
    exact opens_of_namedOpening hb question angle read close numbered

mutual

/-- What a term opens are the groups of its tree. -/
theorem ReadsTerm.opens {levels : Nat} {s t : State} {r : Regex} :
    ReadsTerm mode levels s r t → Opens s r.captures t
  | .plain first noGroup atom count => by
    have hskip := skippedTo_of_repeated count
    rw [captures_of_repeated count, captures_of_leaf (leaf_of_plainAtom atom)]
    refine .of_eq rfl ?_
    rw [ofChars_of_plainAtom first noGroup atom]
    exact hskip false
  | .group first opened inside closed count => by
    have hskip := (Cursor.skippedTo_of_eat? closed (by decide)).trans (skippedTo_of_repeated count)
    have hopen := opens_of_opening first opened
    rw [captures_of_repeated count, captures_close, captures_choice]
    exact (hopen.trans inside.opens).skip hskip

theorem ReadsTerms.opens {levels : Nat} {s t : State} {rs : List Regex} :
    ReadsTerms mode levels s rs t → Opens s (Regex.capturesOfAll rs) t
  | .nil _ => .of_eq rfl rfl
  | .cons _ head tail => head.opens.trans tail.opens

theorem ReadsAlternatives.opens {levels : Nat} {s t : State} {rs : Regex × List Regex} :
    ReadsAlternatives mode levels s rs t → Opens s (Regex.capturesOfAll (rs.1 :: rs.2)) t
  | .last terms _ => by
    simpa [Regex.capturesOfAll, captures_sequence] using terms.opens
  | .more terms bar tail => by
    have hskip := Cursor.skippedTo_of_eat? bar (by decide)
    simpa [Regex.capturesOfAll, captures_sequence] using
      (terms.opens.skip hskip).trans tail.opens

end

end Grammar

/-- What a pattern that is read to its end says about its groups and their count. -/
theorem Pattern.parse_eq_ok {unicode : Bool} {text : String} {p : Pattern}
    (h : Pattern.parse unicode text = .ok p) :
    ∃ rs t, Grammar.ReadsAlternatives ⟨unicode, .ofString text⟩ nestingLimit
        { cursor := .ofString text } rs t ∧
      t.cursor.rest = [] ∧ p.root = Grammar.choice rs (t.cursor.spanSince 0) ∧
      p.captures = t.groups.size ∧ p.names = t.groups.names ∧
      ∀ x ∈ p.root.namedReferences, t.groups.hasName x.1 := by
  unfold Pattern.parse at h
  dsimp only at h
  split at h
  next => cases h
  next root t hread =>
    split at h
    next hend =>
      split at h
      next => cases h
      next hrefs =>
        cases h
        rw [Grammar.references_of_read hread, List.nil_append] at hrefs
        obtain ⟨rs, hrs, rfl⟩ := Grammar.read_eq_ok_iff.mp hread
        refine ⟨rs, t, hrs, List.isEmpty_iff.mp hend, rfl, rfl, rfl, ?_⟩
        intro x hx
        simpa using List.find?_eq_none.mp hrefs x hx
    next => cases h

/-- A derivation up to the end of the text is what parsing returns. -/
theorem Pattern.parse_eq_ok_of_reads {unicode : Bool} {text : String} {p : Pattern}
    {rs : Regex × List Regex} {t : Grammar.State}
    (hrs : Grammar.ReadsAlternatives ⟨unicode, .ofString text⟩ nestingLimit
      { cursor := .ofString text } rs t)
    (hend : t.cursor.rest = []) (hroot : p.root = Grammar.choice rs (t.cursor.spanSince 0))
    (hcaptures : p.captures = t.groups.size) (hnames : p.names = t.groups.names)
    (hrefs : ∀ x ∈ p.root.namedReferences, t.groups.hasName x.1) :
    Pattern.parse unicode text = .ok p := by
  obtain ⟨root, captures, names⟩ := p
  dsimp only at hroot hcaptures hnames hrefs
  have hread : (Grammar.bodyReader ⟨unicode, .ofString text⟩ nestingLimit).read
      { cursor := .ofString text } = .ok (root, t) :=
    Grammar.read_eq_ok_iff.mpr ⟨rs, hrs, hroot⟩
  have hnone : t.references.find? (!t.groups.hasName ·.1) = none := by
    rw [Grammar.references_of_read hread, List.nil_append, List.find?_eq_none]
    intro x hx
    simp [hrefs x hx]
  have hatEnd : t.cursor.atEnd := by simp [Cursor.atEnd, hend]
  unfold Pattern.parse
  simp only [hread, hatEnd, if_true, hnone, hcaptures, hnames]

theorem Pattern.exists_of_isOk {unicode : Bool} {text : String}
    (h : (Pattern.parse unicode text).isOk) : ∃ p, Pattern.parse unicode text = .ok p := by
  cases hparse : Pattern.parse unicode text with
  | error => simp [hparse, Except.isOk, Except.toBool] at h
  | ok p => exact ⟨p, rfl⟩

/-- The groups registered at the end are those of the tree, and so are the ones counted ahead. -/
theorem Pattern.groups_of_parse {unicode : Bool} {text : String} {p : Pattern}
    (h : Pattern.parse unicode text = .ok p) :
    p.captures = p.root.captures.length ∧ p.names = p.root.captures.filterMap Group.name ∧
      Scan.ofString text = Scan.behind p.root.captures {} := by
  obtain ⟨rs, t, hrs, hend, hroot, hcaptures, hnames, -⟩ := Pattern.parse_eq_ok h
  obtain ⟨hregistered, hcounted⟩ := hrs.opens
  have hgroups : t.groups.groups.toList = p.root.captures := by
    rw [hregistered, hroot, Grammar.captures_choice]
    rfl
  refine ⟨?_, ?_, ?_⟩
  · rw [hcaptures, ← hgroups]
    exact Array.length_toList.symm
  · rw [hnames, ← hgroups]
    rfl
  · rw [hend, ← Grammar.captures_choice rs (t.cursor.spanSince 0), ← hroot] at hcounted
    exact hcounted

/-- The count ahead of parsing agrees with the parser on every pattern that is accepted. -/
theorem Pattern.scan_agrees {unicode : Bool} {text : String} {p : Pattern}
    (h : Pattern.parse unicode text = .ok p) :
    (Scan.ofString text).count = p.captures ∧ p.captures = p.root.captures.length ∧
      ((Scan.ofString text).anyNamed ↔ p.names ≠ []) := by
  obtain ⟨hcaptures, hnames, hscan⟩ := Pattern.groups_of_parse h
  refine ⟨?_, hcaptures, ?_⟩
  · rw [hscan, hcaptures]
    rfl
  · rw [hscan, hnames]
    simp [Scan.behind, List.filterMap_eq_nil_iff, Option.isSome_iff_ne_none]

/-- A pattern whose groups stand beside escapes and brackets that look like groups. -/
theorem Pattern.scan_agrees_mixed :
    ∃ p, Pattern.parse false "(a)\\((?<n>[(]|\\1)\\c[)]" = .ok p ∧
      (Scan.ofString "(a)\\((?<n>[(]|\\1)\\c[)]").count = p.captures ∧
      p.captures = p.root.captures.length ∧
      ((Scan.ofString "(a)\\((?<n>[(]|\\1)\\c[)]").anyNamed ↔ p.names ≠ []) := by
  cases h : Pattern.parse false "(a)\\((?<n>[(]|\\1)\\c[)]" with
  | error e =>
    have hok : (Pattern.parse false "(a)\\((?<n>[(]|\\1)\\c[)]").isOk := by decide +kernel
    simp [h, Except.isOk, Except.toBool] at hok
  | ok p => exact ⟨p, rfl, Pattern.scan_agrees h⟩

end PatternBlocks
