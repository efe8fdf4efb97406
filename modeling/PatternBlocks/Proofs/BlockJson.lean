import PatternBlocks.Editor
import PatternBlocks.Proofs.JsonText
import PatternBlocks.Proofs.Members
import PatternBlocks.Proofs.NormalForm

/-!
Blocks survive as JSON. Whatever blocks are written as JSON text are read back from it, whether or
not they could come from a pattern, so an editor that hands the blocks of a pattern back gets what
the pattern stands for.
-/
namespace PatternBlocks

open Json

/-! ### What blocks are made of -/

@[simp] theorem Json.word?_toNat (n : UInt32) : Json.word? (.natural n.toNat) = some n := by
  have hlt : n.toNat < UInt32.size := n.toNat_lt
  rw [Json.word?, if_pos hlt, UInt32.ofNat_toNat]

namespace Quantifier

theorem distinct_kinds : ∀ x ∈ kinds, ("kind" :: x.2).Nodup := by decide

@[simp] theorem read?_toJson (inner : Bool) (q : Quantifier) : read? inner q.toJson = some q := by
  cases q <;> rw [toJson, read?, tagged?_object distinct_kinds rfl (.refl _)] <;>
    simp [required?, bool?, word?_toNat, List.lookup_cons]

end Quantifier

@[simp] theorem Toggles.ofJson?_toJson (t : Toggles) : Toggles.ofJson? t.toJson = some t := by
  simp [toJson, ofJson?, members?, optional?, bool?, List.lookup_cons]

@[simp] theorem CharClass.ofJson?_toJson (c : CharClass) : CharClass.ofJson? c.toJson = some c := by
  obtain ⟨negate, toggles, custom, raw⟩ := c
  cases raw <;>
    simp [toJson, ofJson?, members?, optional?, optionalMember, bool?, string?, nullable?,
      List.lookup_cons, Toggles.ofJson?_toJson]

@[simp] theorem Flags.ofJson?_toJson (f : Flags) : Flags.ofJson? f.toJson = some f := by
  simp [toJson, ofJson?, members?, optional?, bool?, List.lookup_cons]

@[simp] theorem Target.ofJson?_toJson (t : Target) : Target.ofJson? t.toJson = some t := by
  cases t with
  | index n => simp [toJson, ofJson?, word?_toNat, GroupNumber.ofUInt32?, n.ne_zero]
  | name s => simp [toJson, ofJson?, string?]

section Labels

@[simp] theorem labelled?_shorthand (w : Shorthand) :
    labelled? Shorthand.labels (.string w.label) = some w := by
  cases w <;> decide

@[simp] theorem labelled?_anchor (w : Anchor) :
    labelled? Anchor.labels (.string w.label) = some w := by
  cases w <;> decide

@[simp] theorem labelled?_boundary (w : Boundary) :
    labelled? Boundary.labels (.string w.label) = some w := by
  cases w <;> decide

@[simp] theorem labelled?_lookDirection (d : LookDirection) :
    labelled? LookDirection.labels (.string d.label) = some d := by
  cases d <;> decide

end Labels

/-! ### Blocks -/

namespace Block

theorem distinct_kinds : ∀ x ∈ kinds, ("type" :: x.2).Nodup := by decide

theorem tagged?_tagged {inner : Bool} {kind : String} {fields : List String}
    {members : List (String × Json)} {q : Quantifier} (hkind : kinds.lookup kind = some fields)
    (h : ((members ++ [("quant", q.toJson)]).map (·.1)).Sublist fields) :
    (tagged kind members q).tagged? inner "type" kinds =
      some (kind, members ++ [("quant", q.toJson)]) :=
  tagged?_object distinct_kinds hkind h

mutual

/-- A block is read from its members, wherever it stands. -/
theorem read?_toJson (inner : Bool) : (b : Block) → read? inner b.toJson = some b
  | .literal text q => by
    rw [toJson, read?_eq, tagged?_tagged rfl (.refl _)]
    simp [leaf?, required?, optional?, List.lookup_cons, Quantifier.ofBlockMembers?, string?]
  | .shorthand which q => by
    rw [toJson, read?_eq, tagged?_tagged rfl (.refl _)]
    simp [leaf?, required?, optional?, List.lookup_cons, Quantifier.ofBlockMembers?]
  | .anchor which => by
    rw [toJson, read?_eq, tagged?_object distinct_kinds rfl (.refl _)]
    simp [leaf?, required?]
  | .boundary which q => by
    rw [toJson, read?_eq, tagged?_tagged rfl (.refl _)]
    simp [leaf?, required?, optional?, List.lookup_cons, Quantifier.ofBlockMembers?]
  | .charClass payload q => by
    rw [toJson, read?_eq, tagged?_tagged rfl (.refl _)]
    simp [leaf?, required?, optional?, List.lookup_cons, Quantifier.ofBlockMembers?]
  | .group capturing name children q => by
    have hchildren := readItems?_toJsonAll true children
    have hnames : ((("capturing", Json.bool capturing) :: optionalMember "name" name ++
        [("nodes", Json.array (toJsonAll children))] ++ [("quant", q.toJson)]).map Prod.fst).Sublist
        ["capturing", "name", "nodes", "quant"] := by
      cases name <;> simp [optionalMember]
    rw [toJson, read?_eq, tagged?_tagged rfl hnames]
    cases name <;>
      simp [required?, optional?, optionalMember, group?, List.lookup_cons,
        Quantifier.ofBlockMembers?, readArray?, hchildren, bool?, nullable?, string?]
  | .alternation branches q => by
    have hbranches := branchesOf?_toJsonBranches branches
    rw [toJson, read?_eq, tagged?_tagged rfl (.refl _)]
    simp [optional?, List.lookup_cons, Quantifier.ofBlockMembers?, hbranches]
  | .look direction positive children q => by
    have hchildren := readItems?_toJsonAll true children
    rw [toJson, read?_eq, tagged?_tagged rfl (.refl _)]
    simp [required?, optional?, look?, List.lookup_cons, Quantifier.ofBlockMembers?, readArray?,
      hchildren, bool?]
  | .backref target q => by
    rw [toJson, read?_eq, tagged?_tagged rfl (.refl _)]
    simp [leaf?, required?, optional?, List.lookup_cons, Quantifier.ofBlockMembers?]

theorem readItems?_toJsonAll (inner : Bool) :
    (bs : List Block) → readItems? inner (toJsonAll bs) = some bs
  | [] => by rw [toJsonAll, readItems?]
  | b :: bs => by
    rw [toJsonAll, readItems?, read?_toJson inner b, readItems?_toJsonAll inner bs]
    rfl

theorem branchesOf?_toJsonBranches : (branches : List (List Block)) →
    branchesOf? (toJsonBranches branches) = some branches
  | [] => by rw [toJsonBranches, branchesOf?]
  | branch :: branches => by
    rw [toJsonBranches, branchesOf?, readArray?, readItems?_toJsonAll true branch,
      branchesOf?_toJsonBranches branches]
    rfl

end

/-- A list of a kind and its fields in their order is read like an object with these fields. -/
theorem read?_array {kind : String} {fields : List String}
    (hkind : kinds.lookup kind = some fields) {items : List Json}
    (h : items.length ≤ fields.length) (inner : Bool) :
    read? inner (.array (.string kind :: items)) =
      read? inner (.object (("type", .string kind) :: fields.zip items)) := by
  rw [read?_eq, read?_eq, tagged?_array_eq_object distinct_kinds hkind h]

/-- A block that gives its kind or one of its fields twice is refused. -/
theorem read?_eq_none_of_repeated {kind name : String} {fields : List String}
    {members : List (String × Json)} (hkind : kinds.lookup kind = some fields)
    (hmem : ("type", .string kind) ∈ members) (hname : name ∈ "type" :: fields)
    (h : 1 < (members.map (·.1)).count name) (inner : Bool) :
    read? inner (.object members) = none := by
  rw [read?_eq, tagged?_eq_none_of_repeated hkind hmem hname h]

end Block

/-! ### Text -/

theorem Json.areMembersPlain_append {members more : List (String × Json)} :
    AreMembersPlain (members ++ more) ↔ AreMembersPlain members ∧ AreMembersPlain more := by
  induction members with
  | nil => simp [AreMembersPlain]
  | cons member members ih => simp [AreMembersPlain, ih, and_assoc]

@[simp] theorem Quantifier.isPlain_toJson (q : Quantifier) : q.toJson.IsPlain := by
  cases q <;> simp [toJson, IsPlain, AreMembersPlain, UInt32.toNat_lt_size]

@[simp] theorem CharClass.isPlain_toJson (c : CharClass) : c.toJson.IsPlain := by
  cases h : c.raw <;>
    simp [toJson, Toggles.toJson, optionalMember, h, IsPlain, AreMembersPlain]

theorem Flags.isPlain_toJson (f : Flags) : f.toJson.IsPlain := by
  simp [toJson, IsPlain, AreMembersPlain]

@[simp] theorem Target.isPlain_toJson (t : Target) : t.toJson.IsPlain := by
  cases t <;> simp [toJson, IsPlain, AreMembersPlain, UInt32.toNat_lt_size]

namespace Block

theorem isPlain_tagged {tag : String} {members : List (String × Json)} {q : Quantifier} :
    (tagged tag members q).IsPlain ↔ AreMembersPlain members := by
  simp [tagged, IsPlain, AreMembersPlain, areMembersPlain_append]

mutual

theorem isPlain_toJson : (b : Block) → b.toJson.IsPlain
  | .literal .. | .shorthand .. | .boundary .. | .charClass .. | .backref .. => by
    simp [toJson, isPlain_tagged, AreMembersPlain, IsPlain]
  | .anchor _ => by simp [toJson, AreMembersPlain, IsPlain]
  | .group _ name children _ => by
    have hchildren := areItemsPlain_toJsonAll children
    cases name <;>
      simp [toJson, isPlain_tagged, optionalMember, AreMembersPlain, IsPlain, hchildren]
  | .alternation branches _ => by
    have hbranches := areItemsPlain_toJsonBranches branches
    simp [toJson, isPlain_tagged, AreMembersPlain, IsPlain, hbranches]
  | .look _ _ children _ => by
    have hchildren := areItemsPlain_toJsonAll children
    simp [toJson, isPlain_tagged, AreMembersPlain, IsPlain, hchildren]

theorem areItemsPlain_toJsonAll : (bs : List Block) → AreItemsPlain (toJsonAll bs)
  | [] => trivial
  | b :: bs => ⟨isPlain_toJson b, areItemsPlain_toJsonAll bs⟩

theorem areItemsPlain_toJsonBranches :
    (branches : List (List Block)) → AreItemsPlain (toJsonBranches branches)
  | [] => trivial
  | branch :: branches => ⟨areItemsPlain_toJsonAll branch, areItemsPlain_toJsonBranches branches⟩

end

/-- Blocks that are read from JSON are the ones that were written, whatever they are. -/
theorem ofArray?_toJsonAll (bs : List Block) : ofArray? (.array (toJsonAll bs)) = some bs := by
  rw [ofArray?, readArray?, readItems?_toJsonAll]

end Block

namespace Editor

/-- The blocks of a pattern, however they are handed back, stand for what they stood for. -/
theorem render_of_ofText? {pattern : String} {flags : Flags} {bs : List Block}
    (h : Block.ofPattern pattern flags = .ok bs) {text : String}
    (htext : Json.ofText? text = some (.array (Block.toJsonAll bs))) :
    render text = .ok (Block.pattern bs) := by
  obtain ⟨c, hc, rfl⟩ := map_eq_ok.mp h
  obtain ⟨hsettled, -⟩ := Conversion.settled_of_ofPattern hc
  have hcheck : Block.check c.blocks = .ok () := by
    apply Block.check_eq_ok
    intro b hb
    exact Block.misname?_of_admissible (hsettled.admissible b hb)
  have hread : (Json.ofText? text).bind Block.ofArray? = some c.blocks := by
    rw [htext, Option.bind_some, Block.ofArray?_toJsonAll]
  simp only [render, hread, hcheck]

/-- The text that an editor is given for a pattern has its blocks as a member. -/
theorem nodes_of_parse {pattern flags : String} {bs : List Block}
    (h : Block.ofPattern pattern (Flags.ofString flags) = .ok bs) :
    ∃ text, parse pattern flags = .ok text ∧
      (Json.ofText? text).bind (Json.member? "nodes") = some (.array (Block.toJsonAll bs)) := by
  refine ⟨_, map_eq_ok.mpr ⟨bs, h, rfl⟩, ?_⟩
  rw [Json.ofText?_text]
  · rfl
  · simp [IsPlain, AreMembersPlain, Block.areItemsPlain_toJsonAll, Flags.isPlain_toJson]

/-- Whatever an editor is given as JSON text is read back from it unchanged, blocks that no pattern
has included, and the blocks of a pattern are taken back as what the pattern stands for. -/
theorem reads_what_is_written :
    (∀ bs : List Block,
      (Json.ofText? (Json.array (Block.toJsonAll bs)).text).bind Block.ofArray? = some bs) ∧
    (∀ c : CharClass, (Json.ofText? c.toJson.text).bind CharClass.ofJson? = some c) ∧
    (∀ q : Quantifier, (Json.ofText? q.toJson.text).bind Quantifier.ofJson? = some q) ∧
    (∀ f : Flags, (Json.ofText? f.toJson.text).bind Flags.ofJson? = some f) ∧
    ∀ pattern flags bs, Block.ofPattern pattern (Flags.ofString flags) = .ok bs →
      ∃ text nodes, parse pattern flags = .ok text ∧
        (Json.ofText? text).bind (Json.member? "nodes") = some nodes ∧
        Json.ofText? nodes.text = some nodes ∧
        ∀ text', Json.ofText? text' = some nodes → render text' = .ok (Block.pattern bs) := by
  have hplain (bs : List Block) : (Json.array (Block.toJsonAll bs)).IsPlain :=
    Block.areItemsPlain_toJsonAll bs
  refine ⟨fun bs => ?_, fun c => ?_, fun q => ?_, fun f => ?_, fun pattern flags bs h => ?_⟩
  · rw [Json.ofText?_text (hplain bs), Option.bind_some, Block.ofArray?_toJsonAll]
  · rw [Json.ofText?_text c.isPlain_toJson, Option.bind_some, CharClass.ofJson?_toJson]
  · rw [Json.ofText?_text q.isPlain_toJson, Option.bind_some, Quantifier.ofJson?,
      Quantifier.read?_toJson]
  · rw [Json.ofText?_text f.isPlain_toJson, Option.bind_some, Flags.ofJson?_toJson]
  · obtain ⟨text, hparse, hnodes⟩ := nodes_of_parse h
    exact ⟨text, _, hparse, hnodes, Json.ofText?_text (hplain bs),
      fun _ htext => render_of_ofText? h htext⟩

/-- Blocks that no pattern has, with characters that JSON escapes, and a pattern with quotation
marks in its text and its class. -/
theorem reads_what_is_written_mixed :
    (∃ bs : List Block, ¬(Block.check bs).isOk ∧
      (Json.ofText? (Json.array (Block.toJsonAll bs)).text).bind Block.ofArray? = some bs) ∧
    ∃ pattern flags bs, pattern = "(?<é>\"[^\"\\\\]{2,}?|\t)" ∧
      Block.ofPattern pattern (Flags.ofString flags) = .ok bs ∧
      ∃ text nodes, parse pattern flags = .ok text ∧
        (Json.ofText? text).bind (Json.member? "nodes") = some nodes ∧
        Json.ofText? nodes.text = some nodes ∧
        ∀ text', Json.ofText? text' = some nodes → render text' = .ok (Block.pattern bs) := by
  constructor
  · exact ⟨[.group false (some "\x00\"") [.alternation [] .one] (.range 5 2 false)],
      by decide +kernel, reads_what_is_written.1 _⟩
  · have hok : (Block.ofPattern "(?<é>\"[^\"\\\\]{2,}?|\t)" (Flags.ofString "gu")).isOk := by
      decide +kernel
    cases h : Block.ofPattern "(?<é>\"[^\"\\\\]{2,}?|\t)" (Flags.ofString "gu") with
    | error => simp [h, Except.isOk, Except.toBool] at hok
    | ok bs => exact ⟨_, "gu", bs, rfl, h, reads_what_is_written.2.2.2.2 _ "gu" bs h⟩

end Editor

end PatternBlocks
