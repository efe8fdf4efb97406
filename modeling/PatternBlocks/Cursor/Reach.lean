import PatternBlocks.Cursor.Number

/-!
`c.Reaches d` says that reading from `c` can lead to `d`: the text in between is spelled out and
its bytes are the difference of the positions. Every reader leads to a cursor that it reaches.
-/
namespace PatternBlocks

@[simp] theorem utf8Length_nil : utf8Length [] = 0 := rfl

@[simp] theorem utf8Length_cons (ch : Char) (cs : List Char) :
    utf8Length (ch :: cs) = ch.utf8Size + utf8Length cs :=
  rfl

@[simp] theorem utf8Length_append (as bs : List Char) :
    utf8Length (as ++ bs) = utf8Length as + utf8Length bs := by
  induction as with
  | nil => simp
  | cons a as ih => simp [ih, Nat.add_assoc]

theorem length_le_utf8Length (cs : List Char) : cs.length ≤ utf8Length cs := by
  induction cs with
  | nil => simp
  | cons ch cs ih =>
    have := ch.utf8Size_pos
    simp only [List.length_cons, utf8Length_cons]
    omega

namespace Cursor

/-- The text `w` lies between the two cursors. -/
def Passes (c : Cursor) (w : List Char) (d : Cursor) : Prop :=
  c.rest = w ++ d.rest ∧ d.position = c.position + utf8Length w

def Reaches (c d : Cursor) : Prop := ∃ w, c.Passes w d

/-- The cursor has moved by at least one character. -/
def Advances (c d : Cursor) : Prop := ∃ w, w ≠ [] ∧ c.Passes w d

theorem Passes.refl (c : Cursor) : c.Passes [] c := ⟨rfl, rfl⟩

theorem Passes.trans {c d e : Cursor} {v w : List Char} (h : c.Passes v d) (k : d.Passes w e) :
    c.Passes (v ++ w) e :=
  ⟨by rw [h.1, k.1, List.append_assoc], by rw [k.2, h.2, utf8Length_append, Nat.add_assoc]⟩

theorem Reaches.refl (c : Cursor) : c.Reaches c := ⟨[], .refl c⟩

theorem Reaches.trans {c d e : Cursor} (h : c.Reaches d) (k : d.Reaches e) : c.Reaches e :=
  let ⟨_, hv⟩ := h
  let ⟨_, hw⟩ := k
  ⟨_, hv.trans hw⟩

theorem Advances.reaches {c d : Cursor} (h : c.Advances d) : c.Reaches d :=
  let ⟨w, _, hw⟩ := h
  ⟨w, hw⟩

theorem Advances.trans_reaches {c d e : Cursor} (h : c.Advances d) (k : d.Reaches e) :
    c.Advances e :=
  let ⟨_, hne, hv⟩ := h
  let ⟨_, hw⟩ := k
  ⟨_, List.append_ne_nil_of_left_ne_nil hne _, hv.trans hw⟩

theorem Reaches.trans_advances {c d e : Cursor} (h : c.Reaches d) (k : d.Advances e) :
    c.Advances e :=
  let ⟨_, hv⟩ := h
  let ⟨_, hne, hw⟩ := k
  ⟨_, List.append_ne_nil_of_right_ne_nil _ hne, hv.trans hw⟩

theorem Reaches.length_le {c d : Cursor} (h : c.Reaches d) : d.rest.length ≤ c.rest.length := by
  obtain ⟨w, hw, _⟩ := h
  simp [hw]

theorem Advances.length_lt {c d : Cursor} (h : c.Advances d) :
    d.rest.length < c.rest.length := by
  obtain ⟨w, hne, hw, _⟩ := h
  have := List.length_pos_iff.mpr hne
  simp only [hw, List.length_append]
  omega

theorem Reaches.position_le {c d : Cursor} (h : c.Reaches d) : c.position ≤ d.position := by
  obtain ⟨w, -, hw⟩ := h
  omega

theorem Advances.position_lt {c d : Cursor} (h : c.Advances d) : c.position < d.position := by
  obtain ⟨w, hne, -, hw⟩ := h
  have hlength := length_le_utf8Length w
  have hpos := List.length_pos_iff.mpr hne
  omega

theorem next?_cons (ch : Char) (rest : List Char) (position : Nat) :
    next? ⟨ch :: rest, position⟩ = some (ch, ⟨rest, position + ch.utf8Size⟩) :=
  rfl

theorem passes_of_next? {c d : Cursor} {ch : Char} (h : c.next? = some (ch, d)) :
    c.Passes [ch] d := by
  obtain ⟨rest, position⟩ := c
  cases rest with
  | nil => simp [next?] at h
  | cons ch' rest =>
    simp only [next?, Option.some.injEq, Prod.mk.injEq] at h
    obtain ⟨rfl, rfl⟩ := h
    simp [Passes]

theorem advances_of_next? {c d : Cursor} {ch : Char} (h : c.next? = some (ch, d)) :
    c.Advances d :=
  ⟨[ch], by simp, passes_of_next? h⟩

theorem passes_of_eat? {c d : Cursor} {ch : Char} (h : c.eat? ch = some d) :
    c.Passes [ch] d := by
  obtain ⟨rest, position⟩ := c
  cases rest with
  | nil => simp [eat?] at h
  | cons ch' rest =>
    simp only [eat?] at h
    split at h
    next heq =>
      subst heq
      cases h
      simp [Passes]
    next => cases h

theorem advances_of_eat? {c d : Cursor} {ch : Char} (h : c.eat? ch = some d) : c.Advances d :=
  ⟨[ch], by simp, passes_of_eat? h⟩

theorem passes_of_eatAll? {expected : List Char} {c d : Cursor}
    (h : c.eatAll? expected = some d) : c.Passes expected d := by
  induction expected generalizing c with
  | nil =>
    cases h
    exact .refl _
  | cons ch expected ih =>
    obtain ⟨e, he, hd⟩ := Option.bind_eq_some_iff.mp h
    exact (passes_of_eat? he).trans (ih hd)

theorem passes_takeWhile (p : Char → Bool) (c : Cursor) :
    c.Passes (c.takeWhile p).1 (c.takeWhile p).2 :=
  ⟨(List.takeWhile_append_dropWhile ..).symm, rfl⟩

theorem passes_of_groupName? {c d : Cursor} {name : String}
    (h : c.groupName? = some (name, d)) : c.Passes name.toList d := by
  unfold groupName? at h
  split at h
  next => cases h
  next first e he =>
    split at h
    next =>
      simp only [Option.some.injEq, Prod.mk.injEq] at h
      obtain ⟨rfl, rfl⟩ := h
      simpa using (passes_of_next? he).trans (passes_takeWhile GroupName.isContinue e)
    next => cases h

theorem passes_of_digit? {base n : Nat} {c d : Cursor} (h : c.digit? base = some (n, d)) :
    ∃ ch, PatternBlocks.digit? base ch = some n ∧ c.Passes [ch] d := by
  unfold digit? at h
  split at h
  next => cases h
  next ch e he =>
    obtain ⟨m, hm, hd⟩ := Option.map_eq_some_iff.mp h
    cases hd
    exact ⟨ch, hm, passes_of_next? he⟩

theorem advances_of_digit? {base n : Nat} {c d : Cursor} (h : c.digit? base = some (n, d)) :
    c.Advances d :=
  let ⟨ch, _, hw⟩ := passes_of_digit? h
  ⟨[ch], by simp, hw⟩

theorem reaches_decimalFrom (value : Nat) (rest : List Char) (position : Nat) :
    Reaches ⟨rest, position⟩ (decimalFrom value rest position).2 := by
  induction rest generalizing value position with
  | nil => exact .refl _
  | cons ch rest ih =>
    unfold decimalFrom
    split
    next => exact .refl _
    next => exact (advances_of_next? (next?_cons ..)).reaches.trans (ih ..)

theorem advances_of_decimal? {c d : Cursor} {n : Nat} (h : c.decimal? = some (n, d)) :
    c.Advances d := by
  unfold decimal? at h
  split at h
  next hs =>
    obtain ⟨⟨first, e⟩, he⟩ := Option.isSome_iff_exists.mp hs
    obtain ⟨rest, position⟩ := c
    cases rest with
    | nil => simp [digit?, next?] at he
    | cons ch rest =>
      simp only [digit?, next?, Option.map_eq_some_iff] at he
      obtain ⟨m, hm, -⟩ := he
      simp only [decimalFrom, hm, Option.some.injEq] at h
      have := reaches_decimalFrom (min (0 * 10 + m) maxDecimal) rest (position + ch.utf8Size)
      rw [h] at this
      exact (advances_of_next? (next?_cons ..)).trans_reaches this
  next => cases h

theorem reaches_of_hexDigitsFrom? {count value n : Nat} {c d : Cursor}
    (h : hexDigitsFrom? count value c = some (n, d)) : c.Reaches d := by
  induction count generalizing value c with
  | zero =>
    cases h
    exact .refl _
  | succ count ih =>
    unfold hexDigitsFrom? at h
    split at h
    next => cases h
    next he => exact (advances_of_digit? he).reaches.trans (ih h)

theorem reaches_of_hexDigits? {count n : Nat} {c d : Cursor}
    (h : c.hexDigits? count = some (n, d)) : c.Reaches d :=
  reaches_of_hexDigitsFrom? h

theorem reaches_hexUpToFrom (limit value : Nat) (rest : List Char) (position : Nat) :
    Reaches ⟨rest, position⟩ (hexUpToFrom limit value rest position).2 := by
  induction rest generalizing value position with
  | nil => exact .refl _
  | cons ch rest ih =>
    unfold hexUpToFrom
    split
    next => exact .refl _
    next =>
      split
      next => exact (advances_of_next? (next?_cons ..)).reaches.trans (ih ..)
      next => exact .refl _

theorem reaches_hexUpTo (limit : Nat) (c : Cursor) : c.Reaches (c.hexUpTo limit).2 := by
  unfold hexUpTo
  split
  next => exact reaches_hexUpToFrom ..
  next => exact .refl _

theorem reaches_octalDigits (count value : Nat) (c : Cursor) :
    c.Reaches (octalDigits count value c).2 := by
  induction count generalizing value c with
  | zero => exact .refl _
  | succ count ih =>
    unfold octalDigits
    split
    next => exact .refl _
    next he => exact (advances_of_digit? he).reaches.trans (ih ..)

theorem advances_of_octalEscape? {c d : Cursor} {n : Nat} (h : c.octalEscape? = some (n, d)) :
    c.Advances d := by
  unfold octalEscape? at h
  split at h
  next => cases h
  next first e he =>
    have := reaches_octalDigits (if first ≤ 3 then 2 else 1) first e
    rw [Option.some.inj h] at this
    exact (advances_of_digit? he).trans_reaches this

end Cursor

end PatternBlocks
