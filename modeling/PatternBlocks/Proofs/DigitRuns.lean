import PatternBlocks.Cursor.Reach

/-!
The texts that readers of numbers pass over. Whatever the base, they are made of letters and digits
only.
-/
namespace PatternBlocks

theorem isAlphanum_of_digit? {base n : Nat} (hb : base ≤ 36) {ch : Char}
    (h : digit? base ch = some n) : ch.isAlphanum := by
  have hlt : digitValue ch < 36 := by
    unfold digit? at h
    split at h
    next hd => omega
    next => cases h
  unfold digitValue at hlt
  split at hlt
  next hdigit =>
    have hclass : ch.isDigit :=
      Bool.and_eq_true_iff.mpr ⟨decide_eq_true hdigit.1, decide_eq_true hdigit.2⟩
    exact Bool.or_eq_true_iff.mpr (.inr hclass)
  split at hlt
  next hlower =>
    have hclass : ch.isLower :=
      Bool.and_eq_true_iff.mpr ⟨decide_eq_true hlower.1, decide_eq_true hlower.2⟩
    exact Bool.or_eq_true_iff.mpr (.inl (Bool.or_eq_true_iff.mpr (.inr hclass)))
  split at hlt
  next hupper =>
    have hclass : ch.isUpper := decide_eq_true (show 'A' ≤ ch ∧ ch ≤ 'Z' from hupper)
    exact Bool.or_eq_true_iff.mpr (.inl (Bool.or_eq_true_iff.mpr (.inl hclass)))
  next => omega

namespace Cursor

/-- Only characters of one kind lie between the cursors. -/
def PassesOnly (p : Char → Bool) (c d : Cursor) : Prop := ∃ w, c.Passes w d ∧ ∀ ch ∈ w, p ch

section

variable {p q : Char → Bool} {c d e : Cursor}

theorem PassesOnly.refl (c : Cursor) : PassesOnly p c c := ⟨[], .refl c, by simp⟩

theorem PassesOnly.trans (h : PassesOnly p c d) (k : PassesOnly p d e) : PassesOnly p c e := by
  obtain ⟨v, hv, hpv⟩ := h
  obtain ⟨w, hw, hpw⟩ := k
  exact ⟨v ++ w, hv.trans hw, List.forall_mem_append.mpr ⟨hpv, hpw⟩⟩

theorem PassesOnly.mono (h : PassesOnly p c d) (hpq : ∀ ch, p ch → q ch) : PassesOnly q c d := by
  obtain ⟨w, hw, hp⟩ := h
  exact ⟨w, hw, fun ch hch => hpq ch (hp ch hch)⟩

theorem passesOnly_of_next? {ch : Char} (h : c.next? = some (ch, d)) (hch : p ch) :
    PassesOnly p c d :=
  ⟨[ch], passes_of_next? h, List.forall_mem_singleton.mpr hch⟩

theorem passesOnly_of_eat? {ch : Char} (h : c.eat? ch = some d) (hch : p ch) :
    PassesOnly p c d :=
  ⟨[ch], passes_of_eat? h, List.forall_mem_singleton.mpr hch⟩

end

theorem passesOnly_of_digit? {base n : Nat} (hb : base ≤ 36) {c d : Cursor}
    (h : c.digit? base = some (n, d)) : PassesOnly Char.isAlphanum c d := by
  obtain ⟨ch, hch, hw⟩ := passes_of_digit? h
  exact ⟨[ch], hw, List.forall_mem_singleton.mpr (isAlphanum_of_digit? hb hch)⟩

theorem passesOnly_decimalFrom (value : Nat) (rest : List Char) (position : Nat) :
    PassesOnly Char.isAlphanum ⟨rest, position⟩ (decimalFrom value rest position).2 := by
  induction rest generalizing value position with
  | nil => exact .refl _
  | cons ch rest ih =>
    unfold decimalFrom
    split
    next => exact .refl _
    next hd =>
      have hch := isAlphanum_of_digit? (by decide) hd
      exact (passesOnly_of_next? (next?_cons ..) hch).trans (ih _ _)

theorem passesOnly_of_decimal? {c d : Cursor} {n : Nat} (h : c.decimal? = some (n, d)) :
    PassesOnly Char.isAlphanum c d := by
  unfold decimal? at h
  split at h
  next =>
    have := passesOnly_decimalFrom 0 c.rest c.position
    rwa [Option.some.inj h] at this
  next => cases h

theorem passesOnly_of_hexDigitsFrom? {count value n : Nat} {c d : Cursor}
    (h : hexDigitsFrom? count value c = some (n, d)) : PassesOnly Char.isAlphanum c d := by
  induction count generalizing value c with
  | zero =>
    cases h
    exact .refl _
  | succ count ih =>
    unfold hexDigitsFrom? at h
    split at h
    next => cases h
    next he => exact (passesOnly_of_digit? (by decide) he).trans (ih h)

theorem passesOnly_of_hexDigits? {count n : Nat} {c d : Cursor}
    (h : c.hexDigits? count = some (n, d)) : PassesOnly Char.isAlphanum c d :=
  passesOnly_of_hexDigitsFrom? h

theorem passesOnly_hexUpToFrom (limit value : Nat) (rest : List Char) (position : Nat) :
    PassesOnly Char.isAlphanum ⟨rest, position⟩ (hexUpToFrom limit value rest position).2 := by
  induction rest generalizing value position with
  | nil => exact .refl _
  | cons ch rest ih =>
    unfold hexUpToFrom
    split
    next => exact .refl _
    next hd =>
      have hch := isAlphanum_of_digit? (by decide) hd
      split
      next => exact (passesOnly_of_next? (next?_cons ..) hch).trans (ih _ _)
      next => exact .refl _

theorem passesOnly_hexUpTo (limit : Nat) (c : Cursor) :
    PassesOnly Char.isAlphanum c (c.hexUpTo limit).2 := by
  unfold hexUpTo
  split
  next => exact passesOnly_hexUpToFrom _ _ _ _
  next => exact .refl _

theorem passesOnly_octalDigits (count value : Nat) (c : Cursor) :
    PassesOnly Char.isAlphanum c (octalDigits count value c).2 := by
  induction count generalizing value c with
  | zero => exact .refl _
  | succ count ih =>
    unfold octalDigits
    split
    next => exact .refl _
    next he => exact (passesOnly_of_digit? (by decide) he).trans (ih _ _)

theorem passesOnly_of_octalEscape? {c d : Cursor} {n : Nat} (h : c.octalEscape? = some (n, d)) :
    PassesOnly Char.isAlphanum c d := by
  unfold octalEscape? at h
  split at h
  next => cases h
  next first e he =>
    have := passesOnly_octalDigits (if first ≤ 3 then 2 else 1) first e
    rw [Option.some.inj h] at this
    exact (passesOnly_of_digit? (by decide) he).trans this

end Cursor

end PatternBlocks
