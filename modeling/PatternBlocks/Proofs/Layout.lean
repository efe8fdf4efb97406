import PatternBlocks.Block.Render
import PatternBlocks.Proofs.ClassText
import PatternBlocks.Proofs.Shape
import PatternBlocks.Proofs.Tiling

/-!
Where the expressions of a pattern stand in its text. The span of an expression is made up of the
spans of its parts and of marks around and between them, and the text at a span is what the
expression says, so that the leaves and the marks share out the characters of the pattern.
-/
namespace PatternBlocks

open PatternBlocks.Span (Tile Joined)

/-- The text of a bracket expression. -/
def Bracket.source (b : Bracket) : List Char :=
  '[' :: (if b.negated then ['^'] else []) ++ b.raw.toList ++ [']']

/-- What stands between the parenthesis and the body of a group. -/
def GroupKind.mark : GroupKind → List Char
  | .capturing _ name => Block.groupMark true name
  | .nonCapturing => Block.groupMark false none

/-- Around the body stand a parenthesis with a mark and a closing parenthesis. -/
def Span.Encloses (text : String) (mark : List Char) (body s : Span) : Prop :=
  (Span.mk s.start body.start).Spells text ('(' :: mark) ∧
    (Span.mk body.stop s.stop).Spells text [')']

namespace Regex

/-- How the text of an expression is put together. -/
def LaidOut (text : String) : Regex → Prop
  | .empty span => span.Spells text []
  | .char value false span => span.Spells text [value]
  | .dot span => span.Spells text ['.']
  | .assertion .start span => span.Spells text ['^']
  | .assertion .stop span => span.Spells text ['$']
  | .char _ true span | .classEscape _ span | .assertion _ span | .backref _ span =>
    ∃ w, span.Spells text ('\\' :: w)
  | .property p => ∃ w, p.span.Spells text ('\\' :: w)
  | .bracket b =>
    b.span.Spells text b.source ∧ ∀ p, .property p ∈ b.items → p.span.InText text
  | .group kind body span => Span.Encloses text kind.mark body.span span
  | .look direction negated body span =>
    Span.Encloses text (Block.lookMark direction !negated) body.span span
  | .repetition _ _ body span => body.span.start = span.start ∧ body.span.stop < span.stop
  | .concat terms span => Joined text [] span.start (terms.map Regex.span) span.stop
  | .alternation branches span => Joined text ['|'] span.start (branches.map Regex.span) span.stop

structure WellPlaced (text : String) (r : Regex) : Prop where
  inText : r.span.InText text
  laidOut : r.LaidOut text

mutual

/-- The places of the leaves, and of the marks around, behind and between expressions. -/
def places : Regex → List Span
  | .group _ body span | .look _ _ body span =>
    ⟨span.start, body.span.start⟩ :: body.places ++ [⟨body.span.stop, span.stop⟩]
  | .repetition _ _ body span => body.places ++ [⟨body.span.stop, span.stop⟩]
  | .concat terms _ => placesOfAll terms
  | .alternation branches _ => placesOfBranches branches
  | r => [r.span]

def placesOfAll : List Regex → List Span
  | [] => []
  | r :: rs => r.places ++ placesOfAll rs

/-- Bars stand between branches. -/
def placesOfBranches : List Regex → List Span
  | [] => []
  | [r] => r.places
  | r :: r' :: rs => r.places ++ ⟨r.span.stop, r'.span.start⟩ :: placesOfBranches (r' :: rs)

end

variable {text : String}

theorem tile_enclosed {mark : List Char} {body s : Span} {places : List Span}
    (h : Span.Encloses text mark body s) (hbody : Tile text body.start places body.stop) :
    Tile text s.start (⟨s.start, body.start⟩ :: places ++ [⟨body.stop, s.stop⟩]) s.stop := by
  have hopened : Tile text s.start [⟨s.start, body.start⟩] body.start := .singleton h.1.inText
  exact (hopened.append hbody).append (.singleton h.2.inText)

theorem tile_repetition {body s : Span} {places : List Span} (hbody : body.InText text)
    (hs : s.InText text) (hstart : body.start = s.start) (hlt : body.stop < s.stop)
    (hplaces : Tile text body.start places body.stop) :
    Tile text s.start (places ++ [⟨body.stop, s.stop⟩]) s.stop := by
  have hsuffix : (Span.mk body.stop s.stop).InText text :=
    ⟨Nat.le_of_lt hlt, hbody.stop_isValid, hs.stop_isValid⟩
  rw [← hstart]
  exact hplaces.append (.singleton hsuffix)

mutual

/-- The places of an expression leave no gap if everything in it is laid out. -/
theorem tile_places : (r : Regex) → (∀ x ∈ r.subtrees, x.WellPlaced text) →
    Tile text r.span.start r.places r.span.stop
  | .empty _, h | .char .., h | .dot _, h | .classEscape .., h | .property _, h | .bracket _, h
  | .assertion .., h | .backref .., h => .singleton (h _ List.mem_cons_self).inText
  | .group _ body _, h | .look _ _ body _, h => by
    obtain ⟨hself, hbody⟩ := List.forall_mem_cons.mp h
    exact tile_enclosed hself.laidOut (tile_places body hbody)
  | .repetition _ _ body _, h => by
    obtain ⟨hself, hbody⟩ := List.forall_mem_cons.mp h
    obtain ⟨hstart, hlt⟩ := hself.laidOut
    have hinText := (hbody body (mem_subtrees_self body)).inText
    exact tile_repetition hinText hself.inText hstart hlt (tile_places body hbody)
  | .concat terms _, h => by
    obtain ⟨hself, hterms⟩ := List.forall_mem_cons.mp h
    exact tile_placesOfAll terms hterms hself.laidOut
  | .alternation branches _, h => by
    obtain ⟨hself, hbranches⟩ := List.forall_mem_cons.mp h
    exact tile_placesOfBranches branches hbranches hself.laidOut

theorem tile_placesOfAll {a b : Nat} : (rs : List Regex) →
    (∀ x ∈ subtreesOfAll rs, x.WellPlaced text) → Joined text [] a (rs.map Regex.span) b →
    Tile text a (placesOfAll rs) b
  | [], _, hjoined => hjoined.elim
  | r :: rs, h, hjoined => by
    obtain ⟨hr, hrs⟩ := List.forall_mem_append.mp h
    have hhead := tile_places r hr
    obtain rfl := hjoined.start_eq
    cases rs with
    | nil =>
      obtain ⟨-, rfl⟩ := hjoined
      exact hhead.append rfl
    | cons r' rs =>
      obtain ⟨-, hgap, hrest⟩ := hjoined
      rw [show r'.span.start = r.span.stop from hgap.stop_eq] at hrest
      exact hhead.append (tile_placesOfAll (r' :: rs) hrs hrest)

theorem tile_placesOfBranches {a b : Nat} : (rs : List Regex) →
    (∀ x ∈ subtreesOfAll rs, x.WellPlaced text) → Joined text ['|'] a (rs.map Regex.span) b →
    Tile text a (placesOfBranches rs) b
  | [], _, hjoined => hjoined.elim
  | [r], h, hjoined => by
    obtain ⟨hr, -⟩ := List.forall_mem_append.mp h
    obtain ⟨rfl, rfl⟩ := hjoined
    exact tile_places r hr
  | r :: r' :: rs, h, hjoined => by
    obtain ⟨hr, hrs⟩ := List.forall_mem_append.mp h
    obtain ⟨rfl, hbar, hrest⟩ := hjoined
    have hrest := tile_placesOfBranches (r' :: rs) hrs hrest
    exact (tile_places r hr).append (.cons hbar.inText hrest)

end

example : (Pattern.parse false "(?:é|b)*").toOption.map (·.root.places) =
    some [⟨0, 3⟩, ⟨3, 5⟩, ⟨5, 6⟩, ⟨6, 7⟩, ⟨7, 8⟩, ⟨8, 9⟩] := by
  decide +kernel

end Regex

end PatternBlocks
