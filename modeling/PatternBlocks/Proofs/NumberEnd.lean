import PatternBlocks.Proofs.RoundTrip

/-!
What stands behind the digits of a reference by number. A digit at the beginning of the next literal
is guarded, but only next to the number: a literal without text in between takes the guard away.
-/
namespace PatternBlocks.Block

open Grammar (follows_renderAfter Closes)

/-! ### The text around a sequence -/

/-- The branches as which the inside of parentheses is written. -/
def bodyBranches (bs : List Block) : List (List Block) := (loneBranches? bs).getD [bs]

theorem bodyBranches_eq {bs : List Block} (h : ¬IsLoneAlternation bs) : bodyBranches bs = [bs] := by
  cases hlone : loneBranches? bs with
  | none => rw [bodyBranches, hlone, Option.getD_none]
  | some branches => exact absurd ⟨branches, loneBranches?_eq_some hlone⟩ h

theorem renderBranches_bodyBranches (bs : List Block) :
    renderBranches (bodyBranches bs) = renderBody bs := by
  by_cases hlone : IsLoneAlternation bs
  · obtain ⟨branches, rfl⟩ := hlone
    rfl
  · rw [bodyBranches_eq hlone, renderBranches, renderBody_eq hlone]

theorem mem_nodesOfAll_of_bodyBranches {bs branch : List Block} (h : branch ∈ bodyBranches bs)
    {x : Block} (hx : x ∈ nodesOfAll branch) : x ∈ nodesOfAll bs := by
  by_cases hlone : IsLoneAlternation bs
  · obtain ⟨branches, rfl⟩ := hlone
    have hnodes := mem_nodesOfBranches.mpr ⟨branch, h, hx⟩
    exact List.mem_append_left _ (List.mem_cons_of_mem _ hnodes)
  · rw [bodyBranches_eq hlone] at h
    obtain rfl := List.mem_singleton.mp h
    exact hx

/-- How the parentheses of a block open, and the branches between them. -/
def enclosed? : Block → Option (List Char × List (List Block))
  | .group capturing name children _ =>
    some ('(' :: groupMark capturing name, bodyBranches children)
  | .alternation branches _ => some (['(', '?', ':'], branches)
  | .look direction positive children _ =>
    some ('(' :: lookMark direction positive, bodyBranches children)
  | _ => none

variable {b : Block} {opening : List Char} {branches : List (List Block)}

theorem renderAfter_of_enclosed? (h : b.enclosed? = some (opening, branches))
    (afterNumber : Bool) :
    b.renderAfter afterNumber = opening ++ renderBranches branches ++ ')' :: b.quant.render := by
  unfold enclosed? at h
  split at h
  · cases h
    simp [renderAfter, renderBranches_bodyBranches, quant]
  · cases h
    simp [renderAfter, quant]
  · cases h
    simp [renderAfter, renderBranches_bodyBranches, quant]
  · cases h

theorem isBareNumber_of_enclosed? (h : b.enclosed? = some (opening, branches)) :
    b.isBareNumber = false := by
  cases b <;> first | rfl | cases h

theorem mem_nodes_of_enclosed? (h : b.enclosed? = some (opening, branches)) {branch : List Block}
    (hbranch : branch ∈ branches) {x : Block} (hx : x ∈ nodesOfAll branch) : x ∈ b.nodes := by
  unfold enclosed? at h
  split at h
  · cases h
    exact List.mem_cons_of_mem _ (mem_nodesOfAll_of_bodyBranches hbranch hx)
  · cases h
    exact List.mem_cons_of_mem _ (mem_nodesOfBranches.mpr ⟨_, hbranch, hx⟩)
  · cases h
    exact List.mem_cons_of_mem _ (mem_nodesOfAll_of_bodyBranches hbranch hx)
  · cases h

theorem renderAll_append_cons (hb : ∀ afterNumber, b.renderAfter afterNumber = b.renderAfter false)
    (afterNumber : Bool) (us vs : List Block) :
    renderAll afterNumber (us ++ b :: vs) =
      renderAll afterNumber us ++ b.renderAfter false ++ renderAll b.isBareNumber vs := by
  induction us generalizing afterNumber with
  | nil => simp [renderAll, hb]
  | cons u us ih => simp [renderAll, ih]

theorem renderBranches_append_cons (lefts : List (List Block)) (branch : List Block)
    (rights : List (List Block)) :
    renderBranches (lefts ++ branch :: rights) =
      lefts.flatMap (renderAll false · ++ ['|']) ++ renderAll false branch ++
        rights.flatMap ('|' :: renderAll false ·) := by
  induction lefts generalizing branch with
  | nil =>
    induction rights generalizing branch with
    | nil => simp [renderBranches]
    | cons right rights ih =>
      have hright := ih right
      simp only [List.nil_append, List.flatMap_nil] at hright ⊢
      rw [renderBranches, hright]
      · simp
      · simp
  | cons left lefts ih =>
    rw [List.cons_append, renderBranches, ih]
    · simp
    · simp

/-- In the text of `bs` the text of a sequence stands between two others. A lone unquantified
alternation inside parentheses is not a sequence, its branches are. -/
inductive Writes (bs : List Block) : List Char → List Block → List Char → Prop where
  | whole : Writes bs [] bs []
  | inside {before after : List Char} {us vs : List Block} {b : Block} {opening : List Char}
      (lefts : List (List Block)) {branch : List Block} {rights : List (List Block)}
      (h : Writes bs before (us ++ b :: vs) after)
      (hb : b.enclosed? = some (opening, lefts ++ branch :: rights)) :
      Writes bs
        (before ++ renderAll false us ++ opening ++ lefts.flatMap (renderAll false · ++ ['|']))
        branch
        (rights.flatMap ('|' :: renderAll false ·) ++ ')' :: b.quant.render ++
          renderAll false vs ++ after)

namespace Writes

variable {bs seq : List Block} {before after : List Char}

theorem renderAll_eq (h : Writes bs before seq after) :
    renderAll false bs = before ++ renderAll false seq ++ after := by
  induction h with
  | whole => simp
  | inside lefts h hb ih =>
    have hrender := renderAfter_of_enclosed? hb
    have hb' := fun afterNumber => (hrender afterNumber).trans (hrender false).symm
    rw [ih, renderAll_append_cons hb', isBareNumber_of_enclosed? hb, hrender,
      renderBranches_append_cons]
    simp only [List.append_assoc, List.cons_append]

theorem closes (h : Writes bs before seq after) : Closes after := by
  cases h with
  | whole => exact nofun
  | @inside _ _ _ _ _ _ _ _ rights =>
    cases rights <;> simp [Closes]

theorem nodes_subset (h : Writes bs before seq after) {x : Block} (hx : x ∈ nodesOfAll seq) :
    x ∈ nodesOfAll bs := by
  induction h generalizing x with
  | whole => exact hx
  | inside lefts h hb ih =>
    have hbranch := mem_nodes_of_enclosed? hb (by simp) hx
    exact ih (mem_nodesOfAll.mpr ⟨_, by simp, hbranch⟩)

/-- Behind a bare number stand the rest of its sequence and what encloses the sequence. -/
theorem renderAll_eq_of_number {n : GroupNumber} {us vs : List Block}
    (h : Writes bs before (us ++ .backref (.index n) .one :: vs) after) :
    renderAll false bs = before ++ renderAll false us ++ '\\' :: decimalDigits n.value ++
      (renderAll true vs ++ after) := by
  have hsplit := renderAll_append_cons (b := .backref (.index n) .one) (fun _ => rfl) false us vs
  rw [h.renderAll_eq, hsplit]
  simp [renderAfter, Target.render, isBareNumber, Quantifier.render, Quantifier.countMark,
    Quantifier.isGreedy]

end Writes

/-! ### Every bare number stands in a sequence -/

/-- A block of a list stands in one of the sequences that the list is written as. -/
def IsWritten (bs : List Block) (b : Block) : Prop :=
  ∃ before seq after, Writes bs before seq after ∧ b ∈ seq

variable {bs : List Block}

-- What a sequence is known to stand between is the same for all its blocks, and so for all branches
-- of a block. The blocks and branches to the left are therefore carried along in `us` and `lefts`.
mutual

theorem isWritten_of_mem_nodes : (b : Block) → ∀ {before after : List Char} {us vs : List Block},
    Writes bs before (us ++ b :: vs) after → ∀ x ∈ b.nodes, x.isBareNumber → IsWritten bs x
  | .group capturing name children q, _, _, _, _, h, x, hx, hnumber => by
    rcases List.mem_cons.mp hx with rfl | hx
    · cases hnumber
    · exact isWritten_of_mem_body children h rfl x hx hnumber
  | .look direction positive children q, _, _, _, _, h, x, hx, hnumber => by
    rcases List.mem_cons.mp hx with rfl | hx
    · cases hnumber
    · exact isWritten_of_mem_body children h rfl x hx hnumber
  | .alternation branches q, _, _, _, _, h, x, hx, hnumber => by
    rcases List.mem_cons.mp hx with rfl | hx
    · cases hnumber
    · exact isWritten_of_mem_branches branches [] h rfl x hx hnumber
  | .literal .., _, _, _, _, h, x, hx, _
  | .shorthand .., _, _, _, _, h, x, hx, _
  | .anchor _, _, _, _, _, h, x, hx, _
  | .boundary .., _, _, _, _, h, x, hx, _
  | .charClass .., _, _, _, _, h, x, hx, _
  | .backref .., _, _, _, _, h, x, hx, _ => by
    obtain rfl := List.mem_singleton.mp hx
    exact ⟨_, _, _, h, by simp⟩

theorem isWritten_of_mem_nodesOfAll : (seq us : List Block) → ∀ {before after : List Char},
    Writes bs before (us ++ seq) after →
    ∀ x ∈ nodesOfAll seq, x.isBareNumber → IsWritten bs x
  | [], _, _, _, _, _, hx, _ => by cases hx
  | b :: seq, us, _, _, h, x, hx, hnumber => by
    rcases List.mem_append.mp hx with hx | hx
    · exact isWritten_of_mem_nodes b h x hx hnumber
    · rw [List.append_cons] at h
      exact isWritten_of_mem_nodesOfAll seq (us ++ [b]) h x hx hnumber

theorem isWritten_of_mem_branches : (rights lefts : List (List Block)) →
    ∀ {before after opening : List Char} {us vs : List Block} {b : Block},
    Writes bs before (us ++ b :: vs) after → b.enclosed? = some (opening, lefts ++ rights) →
    ∀ x ∈ nodesOfBranches rights, x.isBareNumber → IsWritten bs x
  | [], _, _, _, _, _, _, _, _, _, _, hx, _ => by cases hx
  | branch :: rights, lefts, _, _, _, _, _, _, h, hb, x, hx, hnumber => by
    rcases List.mem_append.mp hx with hx | hx
    · exact isWritten_of_mem_nodesOfAll branch [] (h.inside lefts hb) x hx hnumber
    · rw [List.append_cons] at hb
      exact isWritten_of_mem_branches rights (lefts ++ [branch]) h hb x hx hnumber

theorem isWritten_of_mem_body : (children : List Block) →
    ∀ {before after opening : List Char} {us vs : List Block} {b : Block},
    Writes bs before (us ++ b :: vs) after →
    b.enclosed? = some (opening, bodyBranches children) →
    ∀ x ∈ nodesOfAll children, x.isBareNumber → IsWritten bs x
  | [], _, _, _, _, _, _, _, _, _, hx, _ => by cases hx
  | c :: children, _, _, _, _, _, _, h, hb, x, hx, hnumber => by
    by_cases hlone : IsLoneAlternation (c :: children)
    · obtain ⟨branches, heq⟩ := hlone
      cases heq
      rcases List.mem_append.mp hx with hx | hx
      · rcases List.mem_cons.mp hx with rfl | hx
        · cases hnumber
        · exact isWritten_of_mem_branches branches [] h hb x hx hnumber
      · cases hx
    · rw [bodyBranches_eq hlone] at hb
      have hinside := h.inside [] hb
      rcases List.mem_append.mp hx with hx | hx
      · rw [← List.nil_append (c :: children)] at hinside
        exact isWritten_of_mem_nodes c hinside x hx hnumber
      · exact isWritten_of_mem_nodesOfAll children [c] hinside x hx hnumber

end

/-! ### Digits at the beginning of a sequence -/

/-- A literal that leaves no text. -/
def blank : Block := .literal "" .one

theorem renderAll_blank (afterNumber : Bool) (vs : List Block) :
    renderAll afterNumber (blank :: vs) = renderAll false vs := by
  cases afterNumber <;> rfl

theorem beginsWithout_quant {q : Quantifier} (h : q ≠ .one) (rest : List Char) :
    BeginsWithout Char.isDigit (q.render ++ rest) := by
  cases q with
  | one => exact absurd rfl h
  | _ => exact beginsWithout_cons.mpr (by decide)

theorem beginsWithout_quote {text : List Char} (h : text ≠ []) (rest : List Char) :
    BeginsWithout Char.isDigit (quote literalSpecials text ++ rest) ↔
      BeginsWithout Char.isDigit text := by
  have hspecials : ∀ ch ∈ literalSpecials, ¬ch.isDigit := by simp [literalSpecials]
  cases text with
  | nil => exact absurd rfl h
  | cons ch cs =>
    rw [quote_cons, beginsWithout_cons]
    by_cases hspecial : ch ∈ literalSpecials
    · have hslash : ¬Char.isDigit '\\' := by decide
      simp [quote, hspecial, beginsWithout_cons, hspecials ch hspecial, hslash]
    · simp [quote, hspecial, beginsWithout_cons]

theorem beginsWithout_literal {text : String} {q : Quantifier} (hblank : literal text q ≠ blank)
    (afterNumber : Bool) (rest : List Char) :
    BeginsWithout Char.isDigit ((literal text q).renderAfter afterNumber ++ rest) ↔
      afterNumber = true ∨ BeginsWithout Char.isDigit text.toList := by
  by_cases htext : text = ""
  · subst htext
    have hq : q ≠ .one := fun hq => hblank (hq ▸ rfl)
    have hrender : (literal "" q).renderAfter afterNumber = q.render := by
      cases afterNumber <;> rfl
    rw [hrender]
    exact iff_of_true (beginsWithout_quant hq rest) (.inr (beginsWithout_nil _))
  · cases afterNumber with
    | true => exact iff_of_true ((follows_renderAfter (b := .literal text q) htext true rest).2 rfl) (.inl rfl)
    | false =>
      have hne : text.toList ≠ [] := mt String.toList_eq_nil_iff.mp htext
      rw [renderAfter, literalText_false, List.append_assoc, beginsWithout_quote hne]
      simp

theorem beginsWithout_of_ne_literal {b : Block} (h : ∀ text q, b ≠ .literal text q)
    (afterNumber : Bool) (rest : List Char) :
    BeginsWithout Char.isDigit (b.renderAfter afterNumber ++ rest) := by
  have hblank : ¬b.IsBlank := by
    cases b with
    | literal text q => exact absurd rfl (h text q)
    | _ => exact not_false
  have hrender : b.renderAfter afterNumber = b.renderAfter true := by
    cases b with
    | literal text q => exact absurd rfl (h text q)
    | _ => simp only [renderAfter]
  rw [hrender]
  exact (follows_renderAfter hblank true rest).2 rfl

/-- Only a literal that does not stand behind a number can begin with a digit. -/
theorem beginsWithout_renderAfter {b : Block} (hblank : b ≠ blank) (afterNumber : Bool)
    (rest : List Char) :
    BeginsWithout Char.isDigit (b.renderAfter afterNumber ++ rest) ↔
      afterNumber = true ∨ ∀ text q, b = .literal text q →
        BeginsWithout Char.isDigit text.toList := by
  cases b with
  | literal text q => simpa using beginsWithout_literal hblank afterNumber rest
  | _ => exact iff_of_true (beginsWithout_of_ne_literal (by simp) afterNumber rest) (by simp)

/-- Without a number before it the text of a sequence begins with a digit if only blanks come before
a literal that does. -/
theorem beginsWithout_renderAll_false (vs : List Block) {after : List Char} (h : Closes after) :
    ¬BeginsWithout Char.isDigit (renderAll false vs ++ after) ↔
      ∃ k text q ws, vs = List.replicate k blank ++ .literal text q :: ws ∧
        ¬BeginsWithout Char.isDigit text.toList := by
  induction vs with
  | nil => simpa [renderAll] using (h.follows true).2 rfl
  | cons b vs ih =>
    by_cases hblank : b = blank
    · subst hblank
      rw [renderAll_blank, ih]
      constructor
      · rintro ⟨k, text, q, ws, rfl, hdigit⟩
        exact ⟨k + 1, text, q, ws, rfl, hdigit⟩
      · rintro ⟨k, text, q, ws, heq, hdigit⟩
        cases k with
        | zero =>
          cases heq
          exact absurd (beginsWithout_nil _) hdigit
        | succ k =>
          cases heq
          exact ⟨k, text, q, ws, rfl, hdigit⟩
    · rw [renderAll, List.append_assoc, beginsWithout_renderAfter hblank]
      constructor
      · intro hnot
        simp only [Bool.false_eq_true, false_or, Classical.not_forall] at hnot
        obtain ⟨text, q, rfl, hdigit⟩ := hnot
        exact ⟨0, text, q, vs, rfl, hdigit⟩
      · rintro ⟨k, text, q, ws, heq, hdigit⟩
        cases k with
        | zero =>
          cases heq
          simpa using hdigit
        | succ k =>
          cases heq
          exact absurd rfl hblank

/-- Behind a number a digit is guarded unless a blank comes first. -/
theorem beginsWithout_renderAll_true (vs : List Block) {after : List Char} (h : Closes after) :
    ¬BeginsWithout Char.isDigit (renderAll true vs ++ after) ↔
      ∃ ws, vs = blank :: ws ∧ ¬BeginsWithout Char.isDigit (renderAll false ws ++ after) := by
  cases vs with
  | nil => simpa [renderAll] using (h.follows true).2 rfl
  | cons b vs =>
    by_cases hblank : b = blank
    · subst hblank
      constructor
      · exact fun hdigit => ⟨vs, rfl, hdigit⟩
      · rintro ⟨ws, heq, hdigit⟩
        cases heq
        exact hdigit
    · rw [renderAll, List.append_assoc, beginsWithout_renderAfter hblank]
      simp [hblank]

/-! ### Digits behind bare numbers -/

/-- Every bare number stands in a sequence, its digits in front of the rest of the sequence. This
rest begins with a digit if and only if blanks, and at least one, come before a literal that does. -/
theorem number_extended_iff (bs : List Block) :
    (∀ b ∈ nodesOfAll bs, b.isBareNumber → IsWritten bs b) ∧
      ∀ before us n vs after, Writes bs before (us ++ .backref (.index n) .one :: vs) after →
        renderAll false bs = before ++ renderAll false us ++ '\\' :: decimalDigits n.value ++
          (renderAll true vs ++ after) ∧
        (¬BeginsWithout Char.isDigit (renderAll true vs ++ after) ↔
          ∃ k text q ws, vs = List.replicate (k + 1) blank ++ .literal text q :: ws ∧
            ¬BeginsWithout Char.isDigit text.toList) := by
  refine ⟨isWritten_of_mem_nodesOfAll bs [] .whole, ?_⟩
  intro before us n vs after h
  refine ⟨h.renderAll_eq_of_number, ?_⟩
  rw [beginsWithout_renderAll_true vs h.closes]
  constructor
  · rintro ⟨ws, rfl, hdigit⟩
    obtain ⟨k, text, q, ws, rfl, hfirst⟩ := (beginsWithout_renderAll_false _ h.closes).mp hdigit
    exact ⟨k, text, q, ws, rfl, hfirst⟩
  · rintro ⟨k, text, q, ws, rfl, hdigit⟩
    exact ⟨_, rfl, (beginsWithout_renderAll_false _ h.closes).mpr ⟨k, text, q, ws, rfl, hdigit⟩⟩

/-- If all literals have text then no bare number is extended. -/
theorem Writes.beginsWithout_of_not_isBlank {bs us vs : List Block} {before after : List Char}
    {n : GroupNumber} (h : Writes bs before (us ++ .backref (.index n) .one :: vs) after)
    (hbs : ∀ b ∈ nodesOfAll bs, ¬b.IsBlank) :
    BeginsWithout Char.isDigit (renderAll true vs ++ after) := by
  refine Classical.byContradiction fun hdigit => ?_
  obtain ⟨ws, rfl, -⟩ := (beginsWithout_renderAll_true vs h.closes).mp hdigit
  have hblank : blank ∈ nodesOfAll (us ++ .backref (.index n) .one :: blank :: ws) :=
    Grammar.mem_nodesOfAll_self (by simp)
  exact hbs blank (h.nodes_subset hblank) rfl

/-- A number and a digit with a blank between them. -/
def numberBlankDigit (n : GroupNumber) : List Block :=
  [.group true none [.literal "a" .one] .one, .backref (.index n) .one, blank, .literal "0" .one]

theorem number_extended_numberBlankDigit :
    pattern (numberBlankDigit ⟨1, by decide⟩) = "(a)\\10" ∧
      ¬∀ before us n vs after,
        Writes (numberBlankDigit ⟨1, by decide⟩) before (us ++ .backref (.index n) .one :: vs) after →
          BeginsWithout Char.isDigit (renderAll true vs ++ after) := by
  refine ⟨by decide, ?_⟩
  intro hall
  have hdigit := hall [] [.group true none [.literal "a" .one] .one] _ _ [] .whole
  exact absurd rfl (hdigit '0' rfl)

end PatternBlocks.Block
