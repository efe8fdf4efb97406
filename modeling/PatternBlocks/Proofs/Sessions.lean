import PatternBlocks.Cursor.Session
import PatternBlocks.Proofs.ClassText
import PatternBlocks.Proofs.DigitValues
import PatternBlocks.Proofs.Tiling

/-!
Runs of requests. However readings and resets to earlier positions alternate, a session stands
between two characters of its input, and a reading passes over the text that its answer is about.
-/
namespace PatternBlocks

/-! ### Cursors at offsets -/

namespace Cursor

variable {text : String} {c d : Cursor}

theorem IsOn.isValid (h : c.IsOn text) : String.Pos.Raw.IsValid text ⟨c.position⟩ := by
  obtain ⟨before, htext, hposition⟩ := h.passes
  exact isValid_iff.mpr ⟨before, c.rest, htext, hposition⟩

theorem IsOn.position_le (h : c.IsOn text) : c.position ≤ text.utf8ByteSize := by
  obtain ⟨before, htext, hposition⟩ := h.passes
  rw [hposition, utf8ByteSize_eq, htext, utf8Length_append]
  exact Nat.le_add_right _ _

/-- To move forward to a position between characters is to pass over the text before it. -/
theorem skipBytes_ofString {position : Nat}
    (h : String.Pos.Raw.IsValid text ⟨position⟩) :
    ((ofString text).skipBytes position).IsOn text ∧
      ((ofString text).skipBytes position).position = position := by
  obtain ⟨before, after, htext, rfl⟩ := isValid_iff.mp h
  have hskip : (ofString text).skipBytes (utf8Length before) = ⟨after, utf8Length before⟩ := by
    simp only [skipBytes, ofString, htext, takeBytes_append, List.drop_left, Nat.zero_add]
  rw [hskip]
  exact ⟨⟨before, htext, (Nat.zero_add _).symm⟩, rfl⟩

/-- Of two cursors on a text the one further back can read up to the other one. -/
theorem IsOn.passes_of_le (hc : c.IsOn text) (hd : d.IsOn text) (h : c.position ≤ d.position) :
    ∃ w, c.Passes w d := by
  obtain ⟨before, htext, hposition⟩ := hc.passes
  obtain ⟨before', htext', hposition'⟩ := hd.passes
  rw [htext, List.append_eq_append_iff] at htext'
  obtain ⟨w, rfl, hw⟩ | ⟨w, rfl, hw⟩ := htext'
  · refine ⟨w, hw, ?_⟩
    rw [hposition', hposition, utf8Length_append]
  · rw [utf8Length_append] at hposition
    obtain rfl : w = [] := by
      have hlength := length_le_utf8Length w
      exact List.length_eq_zero_iff.mp (by omega)
    refine ⟨[], hw.symm, ?_⟩
    simp only [utf8Length_nil] at hposition ⊢
    omega

end Cursor

namespace Session

/-! ### Requests -/

/-- Up to eight hexadecimal digits are asked for, and only positions that were met. -/
def Request.Allowed (met : List Nat) : Request → Prop
  | .hexDigits count => count ≤ 8
  | .slice start stop => start ∈ met ∧ stop ∈ met ∧ start ≤ stop
  | .reset position => position ∈ met
  | _ => True

/-- Every request is allowed at the positions that were met up to it. -/
def Observant : Session → List Nat → List Request → Prop
  | _, _, [] => True
  | s, met, request :: requests =>
    request.Allowed (s.cursor.position :: met) ∧
      (s.perform request).2.Observant (s.cursor.position :: met) requests

instance (met : List Nat) : DecidablePred (Request.Allowed met)
  | .hexDigits count => inferInstanceAs (Decidable (count ≤ 8))
  | .slice start stop => inferInstanceAs (Decidable (start ∈ met ∧ stop ∈ met ∧ start ≤ stop))
  | .reset position => inferInstanceAs (Decidable (position ∈ met))
  | .peek | .peekAt _ | .next | .eat _ | .eatAll _ | .decimal | .hexUpTo _ | .octalEscape
  | .groupName | .input => inferInstanceAs (Decidable True)

instance decidableObservant (s : Session) (met : List Nat) :
    (requests : List Request) → Decidable (s.Observant met requests)
  | [] => inferInstanceAs (Decidable True)
  | request :: requests =>
    have := decidableObservant (s.perform request).2 (s.cursor.position :: met) requests
    inferInstanceAs (Decidable (_ ∧ _))

/-- The request was not fulfilled. -/
def Answer.IsRefusal : Answer → Prop
  | .char ch => ch = none
  | .flag holds => holds = false
  | .number n => n = none
  | .text s => s = none
  | .nothing => False

/-- The characters are digits of one byte each, and they spell the number. -/
structure Spelled (base : Nat) (w : List Char) (n : Nat) : Prop where
  digits : IsDigits base w
  bytes : utf8Length w = w.length
  value_eq : digitsValue base 0 w = n

/-- The text that a request takes if this is its answer. Only a hexadecimal number that is given up
takes any without telling it. -/
def Request.Takes : Request → Answer → List Char → Prop
  | .next, .char (some ch), w => w = [ch]
  | .eat ch, .flag true, w => w = [ch]
  | .eatAll text, .flag true, w => w = text.toList
  | .decimal, .number (some n), w => w ≠ [] ∧ ∃ v, Spelled 10 w v ∧ n = min v Cursor.maxDecimal
  | .hexDigits count, .number (some n), w => w.length = count ∧ Spelled 16 w n ∧ n < UInt32.size
  | .hexUpTo limit, .number (some n), w => w ≠ [] ∧ Spelled 16 w n ∧ n ≤ limit
  | .hexUpTo limit, .number none, w => ∃ n, Spelled 16 w n ∧ n ≤ limit
  | .octalEscape, .number (some n), w =>
    w ≠ [] ∧ w.length ≤ 3 ∧ Spelled 8 w n ∧ n < UInt8.size
  | .groupName, .text (some name), w => w = name.toList
  | _, _, w => w = []

/-- What a request does to a session. -/
structure Step (s : Session) (request : Request) (answer : Answer) (t : Session) : Prop where
  input_eq : t.input = s.input
  isOn : t.cursor.IsOn s.input
  onward : (∀ position, request ≠ .reset position) → s.cursor.position ≤ t.cursor.position
  /-- Between the old position and the new one is what the request has taken. -/
  taken : (∀ position, request ≠ .reset position) → ∃ w, request.Takes answer w ∧
    (t.cursor.spanSince s.cursor.position).Spells s.input w
  refused : answer.IsRefusal → (∀ limit, request ≠ .hexUpTo limit) → t = s
  slice : ∀ start stop, request = .slice start stop → ∃ w,
    answer = .text (some (String.ofList w)) ∧ (Span.mk start stop).Spells s.input w
  reset : ∀ position, request = .reset position → t.cursor.position = position

/-- A session is the outcome of each request in turn. -/
inductive Steps : Session → List Request → List (Answer × Session) → Prop
  | done (s : Session) : Steps s [] []
  | step {s t : Session} {request : Request} {requests : List Request} {answer : Answer}
      {results : List (Answer × Session)} (first : Step s request answer t)
      (more : Steps t requests results) :
      Steps s (request :: requests) ((answer, t) :: results)

/-! ### One request -/

variable {s : Session} {request : Request} {answer : Answer} {w : List Char} {c : Cursor}

theorem spelled_of_passesDigits {base n : Nat} {d : Cursor} (hbase : base ≤ 36)
    (h : Cursor.PassesDigits base 0 c w n d) : Spelled base w n :=
  ⟨h.digits, h.digits.utf8Length_eq hbase, h.value_eq⟩

/-- A request reads if it neither moves to a position nor asks for the text between two. -/
def Request.Reads : Request → Prop
  | .slice .. | .reset _ => False
  | _ => True

theorem step_of_passes (hs : s.cursor.IsOn s.input) (hreads : request.Reads)
    (hpasses : s.cursor.Passes w c) (htakes : request.Takes answer w)
    (hrefused : answer.IsRefusal → (∀ limit, request ≠ .hexUpTo limit) → c = s.cursor) :
    Step s request answer { s with cursor := c } where
  input_eq := rfl
  isOn := hpasses.isOn hs
  onward _ := Cursor.Reaches.position_le ⟨w, hpasses⟩
  taken _ := ⟨w, htakes, hpasses.spells hs⟩
  refused hanswer hrequest := by rw [hrefused hanswer hrequest]
  slice start stop h := by
    subst h
    exact hreads.elim
  reset position h := by
    subst h
    exact hreads.elim

/-- A request that leaves the session as it is has taken nothing. -/
theorem step_stay (hs : s.cursor.IsOn s.input) (hreads : request.Reads)
    (htakes : request.Takes answer []) : Step s request answer s :=
  step_of_passes hs hreads (.refl s.cursor) htakes fun _ _ => rfl

theorem step_advance {α : Type} {toAnswer : Option α → Answer} {reading : Option (α × Cursor)}
    (hs : s.cursor.IsOn s.input) (hreads : request.Reads)
    (hnone : request.Takes (toAnswer none) [])
    (hsome : ∀ a c, reading = some (a, c) →
      ¬(toAnswer (some a)).IsRefusal ∧
        ∃ w, s.cursor.Passes w c ∧ request.Takes (toAnswer (some a)) w) :
    Step s request (s.advance toAnswer reading).1 (s.advance toAnswer reading).2 := by
  cases reading with
  | none => exact step_stay hs hreads hnone
  | some p =>
    obtain ⟨hanswer, w, hpasses, htakes⟩ := hsome p.1 p.2 rfl
    exact step_of_passes hs hreads hpasses htakes fun hrefused => absurd hrefused hanswer

theorem seek_of_isValid {position : Nat} (h : String.Pos.Raw.IsValid s.input ⟨position⟩) :
    (s.seek position).IsOn s.input ∧ (s.seek position).position = position :=
  Cursor.skipBytes_ofString h

theorem step_slice {start stop : Nat} (hs : s.cursor.IsOn s.input)
    (hstart : String.Pos.Raw.IsValid s.input ⟨start⟩)
    (hstop : String.Pos.Raw.IsValid s.input ⟨stop⟩) (hle : start ≤ stop) :
    Step s (.slice start stop) (.text (some ((s.seek start).textTo (s.seek stop)))) s := by
  obtain ⟨hfrom, hfromPosition⟩ := seek_of_isValid hstart
  obtain ⟨hto, htoPosition⟩ := seek_of_isValid hstop
  obtain ⟨w, hw⟩ := hfrom.passes_of_le hto (by omega)
  refine ⟨rfl, hs, fun _ => Nat.le_refl _, ?_, nofun, ?_, nofun⟩
  · intro _
    exact ⟨[], rfl, (Cursor.Passes.refl s.cursor).spells hs⟩
  · rintro _ _ ⟨⟩
    refine ⟨w, ?_, ?_⟩
    · rw [hw.textTo_eq]
    · have hspells := hw.spells hfrom
      rwa [Cursor.spanSince, hfromPosition, htoPosition] at hspells

theorem step_reset {position : Nat} (hposition : String.Pos.Raw.IsValid s.input ⟨position⟩) :
    Step s (.reset position) .nothing { s with cursor := s.seek position } := by
  obtain ⟨hon, heq⟩ := seek_of_isValid hposition
  refine ⟨rfl, hon, fun h => absurd rfl (h position), fun h => absurd rfl (h position), nofun,
    nofun, ?_⟩
  rintro _ ⟨⟩
  exact heq

theorem step_hexUpTo (hs : s.cursor.IsOn s.input) (limit : Nat) :
    Step s (.hexUpTo limit) (s.perform (.hexUpTo limit)).1 (s.perform (.hexUpTo limit)).2 := by
  obtain ⟨w, n, hw, hn, hvalue⟩ := Cursor.passesDigits_hexUpTo limit s.cursor
  have hspelled : Spelled 16 w n := spelled_of_passesDigits (by decide) hw
  refine step_of_passes hs trivial hw.passes ?_ ?_
  · show Request.Takes (.hexUpTo limit) (.number (s.cursor.hexUpTo limit).1) w
    cases hread : (s.cursor.hexUpTo limit).1 with
    | none => exact Exists.intro n ⟨hspelled, hn⟩
    | some m =>
      obtain rfl := hvalue m hread
      have hadvances := Cursor.advances_of_hexUpTo (Prod.ext hread rfl)
      exact And.intro (hadvances.ne_nil hw.passes) ⟨hspelled, hn⟩
  · intro _ hne
    exact absurd rfl (hne limit)

/-- Every request that is allowed does what it should. -/
theorem step_perform {met : List Nat} (hs : s.cursor.IsOn s.input)
    (hmet : ∀ position ∈ met, String.Pos.Raw.IsValid s.input ⟨position⟩)
    (hallowed : request.Allowed met) :
    Step s request (s.perform request).1 (s.perform request).2 := by
  cases request with
  | peek => exact step_stay hs trivial rfl
  | peekAt n => exact step_stay hs trivial rfl
  | input => exact step_stay hs trivial rfl
  | next =>
    refine step_advance hs trivial rfl ?_
    intro ch c h
    exact ⟨nofun, [ch], Cursor.passes_of_next? h, rfl⟩
  | eat ch =>
    refine step_advance hs trivial rfl ?_
    intro _ c h
    obtain ⟨_, hc, heq⟩ := Option.map_eq_some_iff.mp h
    cases heq
    exact ⟨nofun, [ch], Cursor.passes_of_eat? hc, rfl⟩
  | eatAll text =>
    refine step_advance hs trivial rfl ?_
    intro _ c h
    obtain ⟨_, hc, heq⟩ := Option.map_eq_some_iff.mp h
    cases heq
    exact ⟨nofun, text.toList, Cursor.passes_of_eatAll? hc, rfl⟩
  | decimal =>
    refine step_advance hs trivial rfl ?_
    intro n c h
    obtain ⟨w, v, hne, hw, hn⟩ := Cursor.passesDigits_of_decimal? h
    have hspelled : Spelled 10 w v := spelled_of_passesDigits (by decide) hw
    exact ⟨nofun, w, hw.passes, And.intro hne ⟨v, hspelled, hn⟩⟩
  | hexDigits count =>
    refine step_advance hs trivial rfl ?_
    intro n c h
    obtain ⟨w, hlength, hw⟩ := Cursor.passesDigits_of_hexDigitsFrom? h
    have hlt : n < UInt32.size := by
      have hvalue := hw.digits.value_lt 0
      have hpow : 16 ^ w.length ≤ 16 ^ 8 := Nat.pow_le_pow_right (by decide) (hlength ▸ hallowed)
      rw [hw.value_eq, Nat.zero_add, Nat.one_mul] at hvalue
      exact Nat.lt_of_lt_of_le hvalue hpow
    have hspelled : Spelled 16 w n := spelled_of_passesDigits (by decide) hw
    exact ⟨nofun, w, hw.passes, And.intro hlength ⟨hspelled, hlt⟩⟩
  | hexUpTo limit => exact step_hexUpTo hs limit
  | octalEscape =>
    refine step_advance hs trivial rfl ?_
    intro n c h
    obtain ⟨w, hne, hlength, hw, hlt⟩ := Cursor.passesDigits_of_octalEscape? h
    have hspelled : Spelled 8 w n := spelled_of_passesDigits (by decide) hw
    exact ⟨nofun, w, hw.passes, And.intro hne ⟨hlength, hspelled, hlt⟩⟩
  | groupName =>
    refine step_advance hs trivial rfl ?_
    intro name c h
    exact ⟨nofun, name.toList, Cursor.passes_of_groupName? h, rfl⟩
  | slice start stop =>
    obtain ⟨hstart, hstop, hle⟩ := hallowed
    exact step_slice hs (hmet start hstart) (hmet stop hstop) hle
  | reset position => exact step_reset (hmet position hallowed)

/-! ### Runs -/

theorem steps_of_observant {met : List Nat} {requests : List Request}
    (hs : s.cursor.IsOn s.input)
    (hmet : ∀ position ∈ met, String.Pos.Raw.IsValid s.input ⟨position⟩)
    (h : s.Observant met requests) : Steps s requests (s.run requests) := by
  induction requests generalizing s met with
  | nil => exact .done s
  | cons request requests ih =>
    obtain ⟨hallowed, hmore⟩ := h
    have hmet' : ∀ position ∈ s.cursor.position :: met,
        String.Pos.Raw.IsValid s.input ⟨position⟩ := List.forall_mem_cons.mpr ⟨hs.isValid, hmet⟩
    have hstep := step_perform hs hmet' hallowed
    have hon : (s.perform request).2.cursor.IsOn (s.perform request).2.input := by
      rw [hstep.input_eq]
      exact hstep.isOn
    rw [← hstep.input_eq] at hmet'
    exact .step hstep (ih hon hmet' hmore)

theorem Steps.isOn {requests : List Request} {results : List (Answer × Session)}
    (h : Steps s requests results) : ∀ result ∈ results, result.2.cursor.IsOn s.input := by
  induction h with
  | done => exact List.forall_mem_nil _
  | step first _ ih =>
    rw [first.input_eq] at ih
    exact List.forall_mem_cons.mpr ⟨first.isOn, ih⟩

/-- In every run of requests on a text each request does what it should, and the session never
leaves the positions between the characters of the text. -/
theorem run_steps (text : String) (requests : List Request)
    (h : (ofString text).Observant [] requests) :
    (ofString text).Steps requests ((ofString text).run requests) ∧
      ∀ result ∈ (ofString text).run requests,
        result.2.cursor.position ≤ text.utf8ByteSize ∧
          String.Pos.Raw.IsValid text ⟨result.2.cursor.position⟩ := by
  have hstart : (ofString text).cursor.IsOn text := Cursor.Reaches.refl (Cursor.ofString text)
  have hsteps := steps_of_observant hstart (List.forall_mem_nil _) h
  refine ⟨hsteps, ?_⟩
  intro result hresult
  have hon := hsteps.isOn result hresult
  exact ⟨hon.position_le, hon.isValid⟩

/-- Digits and names among characters of two and four bytes, with two returns to where the session
was before. -/
theorem run_steps_returning :
    ∃ requests : List Request,
      requests = [.next, .decimal, .peekAt 1, .next, .hexUpTo 0x4f, .reset 8, .hexDigits 3,
        .octalEscape, .slice 2 8, .reset 2, .octalEscape, .eatAll "𝒳4", .groupName] ∧
      (ofString "é12𝒳4Fö").Observant [] requests ∧
      ((ofString "é12𝒳4Fö").run requests).map (·.2.cursor.position) =
        [2, 4, 4, 8, 10, 8, 8, 9, 9, 2, 4, 9, 12] ∧
      (ofString "é12𝒳4Fö").Steps requests ((ofString "é12𝒳4Fö").run requests) := by
  have hobservant : (ofString "é12𝒳4Fö").Observant []
      [.next, .decimal, .peekAt 1, .next, .hexUpTo 0x4f, .reset 8, .hexDigits 3, .octalEscape,
        .slice 2 8, .reset 2, .octalEscape, .eatAll "𝒳4", .groupName] := by
    decide +kernel
  exact ⟨_, rfl, hobservant, by decide +kernel, (run_steps _ _ hobservant).1⟩

end Session

end PatternBlocks
