import PatternBlocks.Json.Token

/-!
JSON text as values. The tokens are read from left to right with a stack of the arrays and objects
that are still open.
-/
namespace PatternBlocks.Json

namespace Token

theorem length_of_stringBody? {cs rest s : List Char} (h : stringBody? cs = some (s, rest)) :
    rest.length < cs.length := by
  unfold stringBody? at h
  repeat' split at h
  all_goals
    try cases h
    try simp only [List.length_cons]
    try omega
  all_goals
    obtain ⟨⟨s', rest'⟩, hs, hr⟩ := Option.map_eq_some_iff.mp h
    cases hr
    have := length_of_stringBody? hs
    omega
termination_by cs.length

theorem length_of_digits? {cs ds rest : List Char} (h : digits? cs = some (ds, rest)) :
    rest.length < cs.length := by
  unfold digits? digitRun at h
  split at h
  next => cases h
  next hne =>
    cases h
    have hcs := congrArg List.length (List.takeWhile_append_dropWhile (p := Char.isDigit) (l := cs))
    have hpos : 0 < (cs.takeWhile Char.isDigit).length :=
      List.length_pos_iff.mpr fun h => hne (List.isEmpty_iff.mpr h)
    simp only [List.length_append] at hcs
    omega

theorem length_of_integer? {cs ds rest : List Char} (h : integer? cs = some (ds, rest)) :
    rest.length < cs.length := by
  unfold integer? at h
  split at h
  next =>
    cases h
    simp
  next => exact length_of_digits? h

theorem length_of_fraction? {cs ds rest : List Char} (h : fraction? cs = some (ds, rest)) :
    rest.length ≤ cs.length := by
  unfold fraction? at h
  split at h
  next =>
    obtain ⟨⟨ds', rest'⟩, hd, hr⟩ := Option.map_eq_some_iff.mp h
    cases hr
    have := length_of_digits? hd
    simp only [List.length_cons]
    omega
  next =>
    cases h
    simp

theorem length_exponentSign (cs : List Char) : (exponentSign cs).2.length ≤ cs.length := by
  unfold exponentSign
  split <;> simp

theorem length_of_exponent? {cs ds rest : List Char} (h : exponent? cs = some (ds, rest)) :
    rest.length ≤ cs.length := by
  unfold exponent? at h
  split at h
  next rest' =>
    split at h
    next =>
      obtain ⟨⟨ds', rest''⟩, hd, hr⟩ := Option.map_eq_some_iff.mp h
      cases hr
      have := length_of_digits? hd
      have := length_exponentSign rest'
      simp only [List.length_cons]
      omega
    next =>
      cases h
      simp
  next =>
    cases h
    simp

theorem length_minus (cs : List Char) : (minus cs).2.length ≤ cs.length := by
  unfold minus
  split <;> simp

theorem length_of_number? {cs rest : List Char} {j : Json} (h : number? cs = some (j, rest)) :
    rest.length < cs.length := by
  have := length_minus cs
  unfold number? at h
  simp only [Option.bind_eq_bind, Option.bind_eq_some_iff] at h
  obtain ⟨whole, hw, fraction, hf, exponent, he, h⟩ := h
  have := length_of_integer? hw
  have := length_of_fraction? hf
  have := length_of_exponent? he
  split at h
  next => cases h
  next => split at h <;> cases h <;> omega

theorem eq_append_of_isPrefixOf? {word cs rest : List Char}
    (h : word.isPrefixOf? cs = some rest) : cs = word ++ rest := by
  induction word generalizing cs with
  | nil =>
    cases h
    rfl
  | cons w word ih =>
    cases cs with
    | nil => cases h
    | cons c cs =>
      change (if w == c then word.isPrefixOf? cs else none) = some rest at h
      split at h
      next hw =>
        cases eq_of_beq hw
        rw [ih h, List.cons_append]
      next => cases h

theorem length_of_word? {cs rest : List Char} {j : Json} (h : word? cs = some (j, rest)) :
    rest.length < cs.length := by
  obtain ⟨⟨word, j'⟩, hm, h⟩ := List.exists_of_findSome?_eq_some h
  obtain ⟨rest', hw, h⟩ := Option.map_eq_some_iff.mp h
  cases h
  have : 0 < word.length := by
    simp only [words, List.mem_cons, List.not_mem_nil, or_false, Prod.mk.injEq] at hm
    obtain ⟨rfl, -⟩ | ⟨rfl, -⟩ | ⟨rfl, -⟩ := hm <;> simp
  rw [eq_append_of_isPrefixOf? hw, List.length_append]
  omega

theorem length_of_read? {c : Char} {cs rest : List Char} {token : Token}
    (h : read? c cs = some (token, rest)) : rest.length < (c :: cs).length := by
  unfold read? at h
  split at h
  next =>
    cases h
    simp
  split at h
  next =>
    obtain ⟨⟨s, rest'⟩, hs, hr⟩ := Option.map_eq_some_iff.mp h
    cases hr
    have := length_of_stringBody? hs
    simp only [List.length_cons]
    omega
  split at h
  next =>
    obtain ⟨⟨j, rest'⟩, hn, hr⟩ := Option.map_eq_some_iff.mp h
    cases hr
    exact length_of_number? hn
  next =>
    obtain ⟨⟨j, rest'⟩, hn, hr⟩ := Option.map_eq_some_iff.mp h
    cases hr
    exact length_of_word? hn

def readAll? (cs : List Char) : Option (List Token) :=
  match _h : cs.dropWhile isBlank with
  | [] => some []
  | c :: rest =>
    match _h : read? c rest with
    | none => none
    | some (token, rest) => (readAll? rest).map (token :: ·)
termination_by cs.length
decreasing_by
  have hread := length_of_read? ‹_›
  have hblank := (List.dropWhile_sublist isBlank (l := cs)).length_le
  simp_all only
  omega

theorem readAll?_eq (cs : List Char) :
    readAll? cs =
      match cs.dropWhile isBlank with
      | [] => some []
      | c :: rest =>
        match read? c rest with
        | none => none
        | some (token, rest) => (readAll? rest).map (token :: ·) := by
  rw [readAll?]
  split
  next => simp only [*]
  next => split <;> simp only [*]

end Token

/-- An array or an object whose reading is under way, with what it holds so far backwards. -/
inductive Frame where
  | array (items : List Json)
  /-- The value of a key is due. -/
  | object (members : List (String × Json)) (key : String)

mutual

/-- Reads on where a value is due. -/
def begin? (stack : List Frame) : List Token → Option Json
  | .openBracket :: .closeBracket :: tokens => continue? stack (.array []) tokens
  | .openBracket :: tokens => begin? (.array [] :: stack) tokens
  | .openBrace :: .closeBrace :: tokens => continue? stack (.object []) tokens
  | .openBrace :: .string key :: .colon :: tokens => begin? (.object [] key :: stack) tokens
  | .string s :: tokens => continue? stack (.string s) tokens
  | .scalar j :: tokens => continue? stack j tokens
  | _ => none

/-- Reads on where a value has just ended. -/
def continue? (stack : List Frame) (j : Json) : List Token → Option Json
  | [] => if stack.isEmpty then some j else none
  | token :: tokens =>
    match stack, token with
    | .array items :: stack, .comma => begin? (.array (j :: items) :: stack) tokens
    | .array items :: stack, .closeBracket =>
      continue? stack (.array (j :: items).reverse) tokens
    | .object members key :: stack, .comma =>
      match tokens with
      | .string key' :: .colon :: tokens =>
        begin? (.object ((key, j) :: members) key' :: stack) tokens
      | _ => none
    | .object members key :: stack, .closeBrace =>
      continue? stack (.object ((key, j) :: members).reverse) tokens
    | _, _ => none

end

def ofText? (text : String) : Option Json := (Token.readAll? text.toList).bind (begin? [])

end PatternBlocks.Json
