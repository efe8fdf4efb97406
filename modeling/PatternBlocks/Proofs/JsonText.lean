import Mathlib.Data.Nat.Digits.Defs
import PatternBlocks.Json.Reader
import PatternBlocks.Json.Writer
import PatternBlocks.Proofs.Numerals

/-!
JSON text gives back the value that it was written from. The text of a value is the text of its
tokens one after the other, and the tokens of a value build the value wherever one is due.
-/
namespace PatternBlocks.Json

namespace Token

/-! ### Strings -/

theorem unitDigits_of_lt : ∀ n < 0x20,
    unitDigits n = ['0', '0', (n / 16).digitChar, (n % 16).digitChar] ∧
      codeUnit? ['0', '0', (n / 16).digitChar, (n % 16).digitChar] = some n := by
  decide

theorem stringBody?_named {e ch : Char} (he : e ≠ 'u') (hch : namedEscape? e = some ch)
    (rest : List Char) :
    stringBody? ('\\' :: e :: rest) = (stringBody? rest).map (prepend ch) := by
  rw [stringBody?.eq_def]
  simp [he, hch]

theorem stringBody?_control {ch : Char} (h : ch.toNat < 0x20) (rest : List Char) :
    stringBody? ('\\' :: 'u' :: (unitDigits ch.toNat ++ rest)) =
      (stringBody? rest).map (prepend ch) := by
  obtain ⟨hdigits, hunit⟩ := unitDigits_of_lt _ h
  have hhigh : isHighSurrogate ch.toNat = false := by
    simp only [isHighSurrogate, Bool.and_eq_false_iff, decide_eq_false_iff_not]
    omega
  rw [hdigits, stringBody?.eq_def]
  simp [hunit, hhigh, char?_toNat]

theorem stringBody?_plain {ch : Char} (hmark : ch ≠ '\x22') (hbackslash : ch ≠ '\\')
    (h : ¬ch.toNat < 0x20) (rest : List Char) :
    stringBody? (ch :: rest) = (stringBody? rest).map (prepend ch) := by
  rw [stringBody?.eq_def]
  simp [hmark, hbackslash, h]

/-- Every character is read back from its escape, or from itself if it has none. -/
theorem stringBody?_escapedChar (ch : Char) (rest : List Char) :
    stringBody? (escapedChar ch ++ rest) = (stringBody? rest).map (prepend ch) := by
  unfold escapedChar
  split
  next h =>
    rw [Bool.or_eq_true, decide_eq_true_eq, decide_eq_true_eq] at h
    rcases h with rfl | rfl <;> exact stringBody?_named (by decide) rfl rest
  iterate 5
    split
    next h =>
      subst h
      exact stringBody?_named (by decide) rfl rest
  next hmark _ _ _ _ _ =>
    rw [Bool.or_eq_true, decide_eq_true_eq, decide_eq_true_eq, not_or] at hmark
    split
    next h => exact stringBody?_control h rest
    next h => exact stringBody?_plain hmark.1 hmark.2 h rest

theorem stringBody?_flatMap (cs rest : List Char) :
    stringBody? (cs.flatMap escapedChar ++ '\x22' :: rest) = some (cs, rest) := by
  induction cs with
  | nil =>
    rw [List.flatMap_nil, List.nil_append, stringBody?.eq_def]
    rfl
  | cons ch cs ih =>
    rw [List.flatMap_cons, List.append_assoc, stringBody?_escapedChar, ih]
    rfl

/-! ### Numbers -/

/-- What follows a value inside an array or an object, or at the end. -/
def Ends (rest : List Char) : Prop := ∀ ch ∈ rest.head?, ch ∈ [',', ']', '}']

theorem isDigit_of_mem_toDigits {n : Nat} {ch : Char} (h : ch ∈ Nat.toDigits 10 n) :
    ch.isDigit :=
  Nat.isDigit_of_mem_toDigits (by decide) (by decide) h

theorem decimalValue_toDigits (n : Nat) : decimalValue (Nat.toDigits 10 n) = n := by
  rw [decimalValue, foldl_digitValue fun _ => isDigit_of_mem_toDigits,
    Nat.ofDigitChars_ten_toDigits]

theorem ends_nil : Ends [] := nofun

theorem ends_cons {ch : Char} {rest : List Char} (h : ch ∈ [',', ']', '}']) :
    Ends (ch :: rest) := by
  rintro _ ⟨⟩
  exact h

theorem Ends.beginsWithout_isDigit {rest : List Char} (h : Ends rest) :
    BeginsWithout Char.isDigit rest := by
  intro ch hch
  have hclosing := h ch hch
  simp only [List.mem_cons, List.not_mem_nil, or_false] at hclosing
  rcases hclosing with rfl | rfl | rfl <;> decide

theorem digitRun_append {ds rest : List Char} (hds : ∀ ch ∈ ds, ch.isDigit)
    (hrest : BeginsWithout Char.isDigit rest) : digitRun (ds ++ rest) = (ds, rest) := by
  have hstop : rest.takeWhile Char.isDigit = [] ∧ rest.dropWhile Char.isDigit = rest := by
    cases rest with
    | nil => exact ⟨rfl, rfl⟩
    | cons ch rest => simp [beginsWithout_cons.mp hrest]
  rw [digitRun, List.takeWhile_append_of_pos hds, List.dropWhile_append_of_pos hds, hstop.1,
    hstop.2, List.append_nil]

theorem head?_toDigits_append (n : Nat) (rest : List Char) :
    (Nat.toDigits 10 n ++ rest).head? = (Nat.toDigits 10 n).head? := by
  rw [List.head?_append, List.head?_eq_some_head Nat.toDigits_ne_nil, Option.some_or]

theorem integer?_toDigits (n : Nat) {rest : List Char} (hrest : Ends rest) :
    integer? (Nat.toDigits 10 n ++ rest) = some (Nat.toDigits 10 n, rest) := by
  by_cases hn : n = 0
  · subst hn
    rfl
  · have hhead : ∀ more, Nat.toDigits 10 n ++ rest ≠ '0' :: more := by
      intro more heq
      have hfirst := congrArg List.head? heq
      rw [head?_toDigits_append, List.head?_cons] at hfirst
      exact head?_toDigits_ne hn hfirst
    have hrun := digitRun_append (fun _ => isDigit_of_mem_toDigits (n := n))
      hrest.beginsWithout_isDigit
    unfold integer?
    split
    next heq => exact absurd heq (hhead _)
    next => simp [digits?, hrun, Nat.toDigits_ne_nil]

theorem isBelowLimit_of_length {digits : List Char} (h : digits.length < 309) :
    isBelowLimit digits 0 := by
  have hle := (List.dropWhile_sublist (· = '0') (l := digits)).length_le
  have hplaces : ((digits.dropWhile (· = '0')).length : Int) + 0 < 309 := by omega
  rw [isBelowLimit, Bool.or_eq_true, Bool.or_eq_true]
  exact .inl (.inr (decide_eq_true hplaces))

theorem minus_toDigits (n : Nat) (rest : List Char) :
    minus (Nat.toDigits 10 n ++ rest) = ([], Nat.toDigits 10 n ++ rest) := by
  unfold minus
  split
  next heq =>
    have hfirst := congrArg List.head? heq
    rw [head?_toDigits_append] at hfirst
    have hdigit := isDigit_of_mem_toDigits (List.mem_of_head? hfirst)
    exact absurd hdigit (by decide)
  next => rfl

theorem fraction?_of_ends {rest : List Char} (h : Ends rest) :
    fraction? rest = some ([], rest) := by
  unfold fraction?
  split
  next => exact absurd (h '.' rfl) (by decide)
  next => rfl

theorem exponent?_of_ends {rest : List Char} (h : Ends rest) :
    exponent? rest = some ([], rest) := by
  unfold exponent?
  split
  next ch _ =>
    have hch : ¬(ch = 'e' || ch = 'E') := by
      intro heq
      rw [Bool.or_eq_true, decide_eq_true_eq, decide_eq_true_eq] at heq
      have hmem := h ch rfl
      rcases heq with rfl | rfl <;> exact absurd hmem (by decide)
    rw [if_neg hch]
  next => rfl

/-- Numbers of 32 bits are far from too large. -/
theorem number?_toDigits {n : Nat} (hn : n < UInt32.size) {rest : List Char}
    (hrest : Ends rest) : number? (Nat.toDigits 10 n ++ rest) = some (.natural n, rest) := by
  have hlength : (Nat.toDigits 10 n).length ≤ 10 :=
    Nat.toDigits_length 10 n 10 (by decide) (hn.trans (by decide))
  have hlimit : isBelowLimit (Nat.toDigits 10 n) 0 := isBelowLimit_of_length (by omega)
  simp [number?, minus_toDigits, integer?_toDigits n hrest, fraction?_of_ends hrest,
    exponent?_of_ends hrest, exponentValue, hlimit, decimalValue_toDigits]

/-! ### Tokens -/

/-- Reading goes on behind the first token. -/
theorem readAll?_of_read? {ch : Char} {rest rest' : List Char} {token : Token}
    (hblank : isBlank ch = false) (h : read? ch rest = some (token, rest')) :
    readAll? (ch :: rest) = (readAll? rest').map (token :: ·) := by
  rw [readAll?_eq, List.dropWhile_cons_of_neg (by simp [hblank])]
  simp only [h]

theorem readAll?_nil : readAll? [] = some [] := by
  rw [readAll?_eq]
  rfl

theorem readAll?_mark {ch : Char} {token : Token} (h : mark? ch = some token)
    (rest : List Char) : readAll? (ch :: rest) = (readAll? rest).map (token :: ·) := by
  have hblank : isBlank ch = false := by
    unfold mark? at h
    split at h
    case h_7 => cases h
    all_goals decide
  exact readAll?_of_read? hblank (by simp only [read?, h])

theorem readAll?_writeString (s : String) (rest : List Char) :
    readAll? (writeString s ++ rest) = (readAll? rest).map (.string s :: ·) := by
  have hbody := stringBody?_flatMap s.toList rest
  rw [writeString, List.cons_append, List.cons_append, List.append_assoc]
  refine readAll?_of_read? (by decide) ?_
  simp only [read?, show mark? '\x22' = none from rfl, if_true, List.cons_append, List.nil_append,
    hbody, Option.map_some, String.ofList_toList]

theorem readAll?_toDigits {n : Nat} (hn : n < UInt32.size) {rest : List Char}
    (hrest : Ends rest) :
    readAll? (Nat.toDigits 10 n ++ rest) = (readAll? rest).map (.scalar (.natural n) :: ·) := by
  have hnumber := number?_toDigits hn hrest
  have hdigits : ∀ ch ∈ Nat.toDigits 10 n, ch.isDigit := fun _ => isDigit_of_mem_toDigits
  cases hcs : Nat.toDigits 10 n with
  | nil => exact absurd hcs Nat.toDigits_ne_nil
  | cons ch cs =>
    rw [hcs] at hnumber hdigits
    rw [List.cons_append] at hnumber ⊢
    have hch := hdigits ch List.mem_cons_self
    have hne (other : Char) (hother : ¬other.isDigit) : ch ≠ other := by
      rintro rfl
      exact hother hch
    refine readAll?_of_read? ?_ ?_
    · simp [isBlank, hne ' ' (by decide), hne '\t' (by decide), hne '\n' (by decide),
        hne '\r' (by decide)]
    · have hmark : mark? ch = none := by
        unfold mark?
        split
        case h_7 => rfl
        all_goals exact absurd hch (by decide)
      simp only [read?, hmark, hne '\x22' (by decide), if_false, hch, Bool.or_true, if_true,
        hnumber, Option.map_some]

theorem readAll?_word {word : List Char} {j : Json} (h : (word, j) ∈ words) (rest : List Char) :
    readAll? (word ++ rest) = (readAll? rest).map (.scalar j :: ·) := by
  simp only [words, List.mem_cons, Prod.mk.injEq, List.not_mem_nil, or_false] at h
  obtain ⟨rfl, rfl⟩ | ⟨rfl, rfl⟩ | ⟨rfl, rfl⟩ := h
  all_goals
    refine readAll?_of_read? (by decide) ?_
    rfl

end Token

/-! ### Values -/

mutual

/-- The tokens of a value. -/
def tokens : Json → List Token
  | .string s => [.string s]
  | .array items => .openBracket :: (tokensOfItems items ++ [.closeBracket])
  | .object members => .openBrace :: (tokensOfMembers members ++ [.closeBrace])
  | j => [.scalar j]

def tokensOfItems : List Json → List Token
  | [] => []
  | [j] => j.tokens
  | j :: items => j.tokens ++ .comma :: tokensOfItems items

def tokensOfMembers : List (String × Json) → List Token
  | [] => []
  | [(key, j)] => .string key :: .colon :: j.tokens
  | (key, j) :: members =>
    .string key :: .colon :: (j.tokens ++ .comma :: tokensOfMembers members)

end

section Separators

variable (key : String) (j : Json)

theorem writeItems_cons (j' : Json) (items : List Json) :
    writeItems (j :: j' :: items) = j.write ++ ',' :: writeItems (j' :: items) :=
  rfl

theorem writeMembers_cons (member : String × Json) (members : List (String × Json)) :
    writeMembers ((key, j) :: member :: members) =
      writeString key ++ ':' :: (j.write ++ ',' :: writeMembers (member :: members)) := by
  simp [writeMembers]

theorem tokensOfItems_cons (j' : Json) (items : List Json) :
    tokensOfItems (j :: j' :: items) = j.tokens ++ .comma :: tokensOfItems (j' :: items) :=
  rfl

theorem tokensOfMembers_cons (member : String × Json) (members : List (String × Json)) :
    tokensOfMembers ((key, j) :: member :: members) =
      .string key :: .colon :: (j.tokens ++ .comma :: tokensOfMembers (member :: members)) :=
  rfl

end Separators

mutual

/-- All numbers in the value are of 32 bits. -/
def IsPlain : Json → Prop
  | .natural n => n < UInt32.size
  | .number _ => False
  | .array items => AreItemsPlain items
  | .object members => AreMembersPlain members
  | _ => True

def AreItemsPlain : List Json → Prop
  | [] => True
  | j :: items => j.IsPlain ∧ AreItemsPlain items

def AreMembersPlain : List (String × Json) → Prop
  | [] => True
  | (_, j) :: members => j.IsPlain ∧ AreMembersPlain members

end

open Token (readAll? Ends ends_cons ends_nil)

mutual

/-- The text of a value in front of other text has the tokens of the value first. -/
theorem readAll?_write {rest : List Char} : (j : Json) → j.IsPlain → Ends rest →
    readAll? (j.write ++ rest) = (readAll? rest).map (j.tokens ++ ·)
  | .null, _, _ | .bool true, _, _ | .bool false, _, _ =>
    Token.readAll?_word (by simp [Token.words, write]) rest
  | .natural n, hn, hrest => Token.readAll?_toDigits hn hrest
  | .string s, _, _ => Token.readAll?_writeString s rest
  | .array items, h, _ => by
    rw [write, List.cons_append, List.cons_append, List.append_assoc, List.singleton_append,
      Token.readAll?_mark rfl, readAll?_writeItems items h (ends_cons (by decide)),
      Token.readAll?_mark rfl]
    simp [tokens, Function.comp_def]
  | .object members, h, _ => by
    rw [write, List.cons_append, List.cons_append, List.append_assoc, List.singleton_append,
      Token.readAll?_mark rfl, readAll?_writeMembers members h (ends_cons (by decide)),
      Token.readAll?_mark rfl]
    simp [tokens, Function.comp_def]

theorem readAll?_writeItems {rest : List Char} : (items : List Json) → AreItemsPlain items →
    Ends rest →
    readAll? (writeItems items ++ rest) = (readAll? rest).map (tokensOfItems items ++ ·)
  | [], _, _ => by simp [writeItems, tokensOfItems]
  | [j], h, hrest => readAll?_write j h.1 hrest
  | j :: j' :: items, h, hrest => by
    rw [writeItems_cons, List.append_assoc, List.cons_append,
      readAll?_write j h.1 (ends_cons (by decide)), Token.readAll?_mark rfl,
      readAll?_writeItems (j' :: items) h.2 hrest]
    simp [tokensOfItems_cons, Function.comp_def]

theorem readAll?_writeMembers {rest : List Char} : (members : List (String × Json)) →
    AreMembersPlain members → Ends rest →
    readAll? (writeMembers members ++ rest) = (readAll? rest).map (tokensOfMembers members ++ ·)
  | [], _, _ => by simp [writeMembers, tokensOfMembers]
  | [(key, j)], h, hrest => by
    rw [writeMembers, List.append_assoc, List.cons_append, Token.readAll?_writeString,
      Token.readAll?_mark rfl, readAll?_write j h.1 hrest]
    simp [tokensOfMembers, Function.comp_def]
  | (key, j) :: (key', j') :: members, h, hrest => by
    rw [writeMembers_cons, List.append_assoc, List.cons_append, List.append_assoc,
      List.cons_append, Token.readAll?_writeString, Token.readAll?_mark rfl,
      readAll?_write j h.1 (ends_cons (by decide)), Token.readAll?_mark rfl,
      readAll?_writeMembers ((key', j') :: members) h.2 hrest]
    simp [tokensOfMembers_cons, Function.comp_def]

end

/-! ### Values from tokens -/

theorem exists_tokensOfItems (j : Json) (items : List Json) :
    ∃ more, tokensOfItems (j :: items) = j.tokens ++ more := by
  cases items with
  | nil => exact ⟨[], (List.append_nil _).symm⟩
  | cons => exact ⟨_, rfl⟩

/-- A value does not begin with a closing bracket. -/
theorem begin?_openBracket (stack : List Frame) (j : Json) (ts : List Token) :
    begin? stack (.openBracket :: (j.tokens ++ ts)) =
      begin? (.array [] :: stack) (j.tokens ++ ts) := by
  cases j <;> rfl

mutual

/-- Where a value is due, its tokens give it, and reading goes on behind them. -/
theorem begin?_tokens (stack : List Frame) (ts : List Token) : (j : Json) →
    begin? stack (j.tokens ++ ts) = continue? stack j ts
  | .null | .bool _ | .natural _ | .number _ | .string _ | .array [] | .object [] => rfl
  | .array (j :: items) => by
    have hitems := begin?_tokensOfItems stack [] ts (j :: items) (List.cons_ne_nil _ _)
    have htokens : (array (j :: items)).tokens ++ ts =
        .openBracket :: (tokensOfItems (j :: items) ++ .closeBracket :: ts) := by
      simp [tokens]
    obtain ⟨more, hmore⟩ := exists_tokensOfItems j items
    rw [hmore, List.append_assoc] at hitems htokens
    rw [htokens, begin?_openBracket, hitems]
    rfl
  | .object (member :: members) => by
    obtain ⟨key, more, htokens, hmore⟩ :=
      begin?_tokensOfMembers stack [] ts (member :: members) (List.cons_ne_nil _ _)
    have hobject : (object (member :: members)).tokens ++ ts =
        .openBrace :: (tokensOfMembers (member :: members) ++ .closeBrace :: ts) := by
      simp [tokens]
    rw [hobject, htokens, List.cons_append, List.cons_append, begin?, hmore]
    rfl

theorem begin?_tokensOfItems (stack : List Frame) (done : List Json) (ts : List Token) :
    (items : List Json) → items ≠ [] →
    begin? (.array done :: stack) (tokensOfItems items ++ .closeBracket :: ts) =
      continue? stack (.array (done.reverse ++ items)) ts
  | [], h => absurd rfl h
  | [j], _ => by
    rw [tokensOfItems, begin?_tokens _ _ j, continue?, List.reverse_cons]
  | j :: j' :: items, _ => by
    rw [tokensOfItems_cons, List.append_assoc, List.cons_append, begin?_tokens _ _ j, continue?,
      begin?_tokensOfItems stack (j :: done) ts (j' :: items) (List.cons_ne_nil _ _),
      List.reverse_cons, List.append_assoc, List.singleton_append]

theorem begin?_tokensOfMembers (stack : List Frame) (done : List (String × Json))
    (ts : List Token) : (members : List (String × Json)) → members ≠ [] →
    ∃ key more, tokensOfMembers members = .string key :: .colon :: more ∧
      begin? (.object done key :: stack) (more ++ .closeBrace :: ts) =
        continue? stack (.object (done.reverse ++ members)) ts
  | [], h => absurd rfl h
  | [(key, j)], _ => by
    refine ⟨key, j.tokens, rfl, ?_⟩
    rw [begin?_tokens _ _ j, continue?, List.reverse_cons]
  | (key, j) :: member :: members, _ => by
    obtain ⟨key', more, htokens, hmore⟩ :=
      begin?_tokensOfMembers stack ((key, j) :: done) ts (member :: members)
        (List.cons_ne_nil _ _)
    refine ⟨key, _, tokensOfMembers_cons key j member members, ?_⟩
    rw [htokens, List.append_assoc, List.cons_append, List.cons_append, List.cons_append,
      begin?_tokens _ _ j, continue?, hmore, List.reverse_cons, List.append_assoc,
      List.singleton_append]

end

/-- The text of a value is read as the value. -/
theorem ofText?_text {j : Json} (h : j.IsPlain) : Json.ofText? j.text = some j := by
  have htokens := readAll?_write j h ends_nil
  have hbegin := begin?_tokens [] [] j
  rw [List.append_nil] at htokens hbegin
  rw [ofText?, text, String.toList_ofList, htokens, Token.readAll?_nil, Option.map_some,
    Option.bind_some, List.append_nil, hbegin]
  rfl

end PatternBlocks.Json
