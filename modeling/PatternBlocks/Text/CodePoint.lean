/-! Code points as numbers. Surrogates are numbers of code units but not of characters. -/
namespace PatternBlocks

def char? (code : Nat) : Option Char :=
  if code.isValidChar then some (Char.ofNat code) else none

def isHighSurrogate (unit : Nat) : Bool := 0xd800 ≤ unit && unit ≤ 0xdbff

def isLowSurrogate (unit : Nat) : Bool := 0xdc00 ≤ unit && unit ≤ 0xdfff

/-- The code point that a surrogate pair stands for. -/
def surrogatePair (high low : Nat) : Nat := 0x10000 + (high - 0xd800) * 0x400 + (low - 0xdc00)

theorem char?_toNat (c : Char) : char? c.toNat = some c := by
  have h : c.toNat.isValidChar := c.valid
  simp [char?, h]

theorem toNat_of_char? {code : Nat} {c : Char} (h : char? code = some c) : c.toNat = code := by
  unfold char? at h
  split at h
  next hv =>
    cases h
    rw [Char.ofNat, dif_pos hv]
    rfl
  next => cases h

end PatternBlocks
