import Mathlib.Logic.ExistsUnique
import PatternBlocks.Cursor.Reach

/-!
Spans of a text: which characters they take up, and spans that follow each other without a gap. The
spans that a cursor measures on its way through a text are of this kind.
-/
namespace PatternBlocks

/-! ### Positions in a text -/

theorem utf8ByteSize_ofList (cs : List Char) : (String.ofList cs).utf8ByteSize = utf8Length cs := by
  induction cs with
  | nil => rfl
  | cons ch cs ih =>
    have hcons : String.ofList (ch :: cs) = String.singleton ch ++ String.ofList cs := by
      apply String.toList_inj.mp
      simp
    rw [hcons, String.utf8ByteSize_append, String.utf8ByteSize_singleton, ih, utf8Length_cons]

theorem utf8ByteSize_eq (text : String) : text.utf8ByteSize = utf8Length text.toList := by
  rw [← utf8ByteSize_ofList, String.ofList_toList]

/-- The positions between characters are the lengths of the beginnings of the text. -/
theorem isValid_iff {text : String} {position : Nat} :
    String.Pos.Raw.IsValid text ⟨position⟩ ↔
      ∃ before after, text.toList = before ++ after ∧ position = utf8Length before := by
  rw [String.Pos.Raw.isValid_iff_exists_append]
  constructor
  · rintro ⟨s, t, rfl, hposition⟩
    refine ⟨s.toList, t.toList, String.toList_append, ?_⟩
    rw [← utf8ByteSize_eq]
    exact congrArg String.Pos.Raw.byteIdx hposition
  · rintro ⟨before, after, htext, rfl⟩
    refine ⟨String.ofList before, String.ofList after, ?_, ?_⟩
    · rw [← String.ofList_append, ← htext, String.ofList_toList]
    · rw [← utf8ByteSize_ofList]
      rfl

/-- No position between characters is inside a character. -/
theorem le_of_isValid {text : String} {before after : List Char} {ch : Char} {position : Nat}
    (htext : text.toList = before ++ ch :: after)
    (hvalid : String.Pos.Raw.IsValid text ⟨position⟩) (hlt : utf8Length before < position) :
    utf8Length (before ++ [ch]) ≤ position := by
  obtain ⟨before', after', htext', rfl⟩ := isValid_iff.mp hvalid
  rw [htext, List.append_eq_append_iff] at htext'
  obtain ⟨mid, rfl, hmid⟩ | ⟨mid, rfl, -⟩ := htext'
  · cases mid with
    | nil => simp at hlt
    | cons ch' mid =>
      obtain rfl : ch = ch' := (List.cons.inj hmid).1
      simp only [utf8Length_append, utf8Length_cons, utf8Length_nil]
      omega
  · rw [utf8Length_append] at hlt
    omega

/-! ### Spans -/

namespace Span

/-- The ends of the span are in order and stand between characters of the text. -/
structure InText (text : String) (s : Span) : Prop where
  ordered : s.start ≤ s.stop
  start_isValid : String.Pos.Raw.IsValid text ⟨s.start⟩
  stop_isValid : String.Pos.Raw.IsValid text ⟨s.stop⟩

/-- The characters `w` stand at the span. -/
def Spells (text : String) (w : List Char) (s : Span) : Prop :=
  ∃ before after, text.toList = before ++ w ++ after ∧ s.start = utf8Length before ∧
    s.stop = utf8Length (before ++ w)

/-- The span holds all of `ch`, which stands behind `before` in the text. -/
def Covers (s : Span) (before : List Char) (ch : Char) : Prop :=
  s.start ≤ utf8Length before ∧ utf8Length (before ++ [ch]) ≤ s.stop

theorem Spells.inText {text : String} {w : List Char} {s : Span} (h : s.Spells text w) :
    s.InText text := by
  obtain ⟨before, after, htext, hstart, hstop⟩ := h
  constructor
  · rw [hstart, hstop, utf8Length_append]
    exact Nat.le_add_right _ _
  · refine isValid_iff.mpr ⟨before, w ++ after, ?_, hstart⟩
    rw [htext, List.append_assoc]
  · exact isValid_iff.mpr ⟨before ++ w, after, htext, hstop⟩

theorem Spells.stop_eq {text : String} {w : List Char} {s : Span} (h : s.Spells text w) :
    s.stop = s.start + utf8Length w := by
  obtain ⟨before, after, -, hstart, hstop⟩ := h
  rw [hstart, hstop, utf8Length_append]

/-- The spans follow each other without a gap from one position to another. -/
def Tile (text : String) : Nat → List Span → Nat → Prop
  | a, [], b => a = b
  | a, s :: ss, b => s.start = a ∧ s.InText text ∧ Tile text s.stop ss b

/-- The spans follow each other from one position to another, with the text `sep` between them. -/
def Joined (text : String) (sep : List Char) : Nat → List Span → Nat → Prop
  | _, [], _ => False
  | a, [s], b => s.start = a ∧ s.stop = b
  | a, s :: t :: ss, b =>
    s.start = a ∧ (Span.mk s.stop t.start).Spells text sep ∧ Joined text sep t.start (t :: ss) b

variable {text : String} {sep : List Char} {a b c : Nat} {ss ts : List Span}

theorem Tile.singleton {s : Span} (h : s.InText text) : Tile text s.start [s] s.stop :=
  ⟨rfl, h, rfl⟩

theorem Tile.cons {s : Span} (hs : s.InText text) (h : Tile text s.stop ss b) :
    Tile text s.start (s :: ss) b :=
  ⟨rfl, hs, h⟩

theorem Tile.append (h : Tile text a ss b) (k : Tile text b ts c) : Tile text a (ss ++ ts) c := by
  induction ss generalizing a with
  | nil =>
    obtain rfl : a = b := h
    exact k
  | cons s ss ih =>
    obtain ⟨hstart, hs, hss⟩ := h
    exact ⟨hstart, hs, ih hss⟩

theorem Tile.start_le {s : Span} (h : Tile text a ss b) (hs : s ∈ ss) : a ≤ s.start := by
  induction ss generalizing a with
  | nil => cases hs
  | cons s' ss ih =>
    obtain ⟨rfl, hs', hss⟩ := h
    rcases List.mem_cons.mp hs with rfl | hs
    · exact Nat.le_refl _
    · exact Nat.le_trans hs'.ordered (ih hss hs)

/-- Of spans without a gap between them the earlier ones end before the later ones start. -/
theorem Tile.pairwise (h : Tile text a ss b) : ss.Pairwise fun s t => s.stop ≤ t.start := by
  induction ss generalizing a with
  | nil => exact .nil
  | cons s ss ih =>
    obtain ⟨-, -, hss⟩ := h
    exact .cons (fun t ht => hss.start_le ht) (ih hss)

/-- Spans without a gap between them share out the characters from their beginning to their end. -/
theorem Tile.existsUnique_covers {before after : List Char} {ch : Char}
    (h : Tile text a ss b) (htext : text.toList = before ++ ch :: after)
    (ha : a ≤ utf8Length before) (hb : utf8Length (before ++ [ch]) ≤ b) :
    ∃! k : Nat, ∃ s, ss[k]? = some s ∧ s.Covers before ch := by
  have hpos : utf8Length before < utf8Length (before ++ [ch]) := by
    have := ch.utf8Size_pos
    simp only [utf8Length_append, utf8Length_cons, utf8Length_nil]
    omega
  induction ss generalizing a with
  | nil =>
    obtain rfl : a = b := h
    omega
  | cons s ss ih =>
    obtain ⟨rfl, hs, hss⟩ := h
    by_cases hlt : utf8Length before < s.stop
    · -- The first span holds the character, and all later ones begin behind it.
      refine ⟨0, ⟨s, rfl, ha, le_of_isValid htext hs.stop_isValid hlt⟩, ?_⟩
      rintro k ⟨t, ht, hcovers⟩
      cases k with
      | zero => rfl
      | succ k =>
        have hle := hss.start_le (List.mem_of_getElem? ht)
        have := hcovers.1
        omega
    · obtain ⟨k, hk, hunique⟩ := ih hss (Nat.not_lt.mp hlt)
      refine ⟨k + 1, hk, ?_⟩
      rintro j ⟨t, ht, hcovers⟩
      cases j with
      | zero =>
        obtain rfl : s = t := Option.some.inj ht
        have := hcovers.2
        omega
      | succ j => exact congrArg (· + 1) (hunique j ⟨t, ht, hcovers⟩)

theorem Joined.start_eq {s : Span} (h : Joined text sep a (s :: ss) b) : s.start = a := by
  cases ss with
  | nil => exact h.1
  | cons t ss => exact h.1

theorem Joined.cons {s : Span} (h : Joined text sep c ss b) (hstart : s.start = a)
    (hsep : (Span.mk s.stop c).Spells text sep) : Joined text sep a (s :: ss) b := by
  cases ss with
  | nil => exact h.elim
  | cons t ss =>
    obtain rfl := h.start_eq
    exact ⟨hstart, hsep, h⟩

end Span

/-! ### Cursors -/

namespace Cursor

/-- The cursor is somewhere in the text. -/
def IsOn (text : String) (c : Cursor) : Prop := (ofString text).Reaches c

theorem IsOn.passes {text : String} {c : Cursor} (h : c.IsOn text) :
    ∃ before, text.toList = before ++ c.rest ∧ c.position = utf8Length before := by
  obtain ⟨before, htext, hposition⟩ := h
  exact ⟨before, htext, hposition.trans (Nat.zero_add _)⟩

theorem Passes.spells {text : String} {c d : Cursor} {w : List Char} (hc : c.IsOn text)
    (h : c.Passes w d) : (d.spanSince c.position).Spells text w := by
  obtain ⟨before, htext, hposition⟩ := hc.passes
  refine ⟨before, d.rest, ?_, hposition, ?_⟩
  · rw [htext, h.1, List.append_assoc]
  · rw [utf8Length_append, ← hposition]
    exact h.2

theorem Reaches.inText {text : String} {c d : Cursor} (hc : c.IsOn text) (h : c.Reaches d) :
    (d.spanSince c.position).InText text := by
  obtain ⟨w, hw⟩ := h
  exact (hw.spells hc).inText

theorem Passes.isOn {text : String} {c d : Cursor} {w : List Char} (hc : c.IsOn text)
    (h : c.Passes w d) : d.IsOn text :=
  Reaches.trans hc ⟨w, h⟩

theorem IsOn.position_eq {text : String} {c : Cursor} (h : c.IsOn text) (hend : c.rest = []) :
    c.position = text.utf8ByteSize := by
  obtain ⟨before, htext, hposition⟩ := h.passes
  rw [hend, List.append_nil] at htext
  rw [hposition, utf8ByteSize_eq, htext]

end Cursor

end PatternBlocks
