import GuardCode.Diagnostic
import GuardCode.Proofs.Reading.Blame

/-! Where the error of a refused guard points. The span of an error lies in the source, between two
places where characters begin or end, and holds exactly what the error speaks of; the report of the
error points at the same span. -/
namespace GuardCode

open Grammar (TakesUp located_part takesUp_part)
open Phrase (Meets)
open Reading (Denotes Blames)

namespace Phrase

variable {whole : Phrase} {left right : Frame × Phrase} {c c' : Cursor}

/-- Two parts that meet stand in their order, with something between them. -/
theorem Meets.located (h : Meets whole left right) (hwhole : whole.Located c c') :
    ∃ c₁ c₂ c₃ c₄ front between, c.Crosses front c₁ ∧ left.2.Located c₁ c₂ ∧
      c₂.Crosses between c₃ ∧ right.2.Located c₃ c₄ := by
  cases h with
  | operands left right =>
    obtain ⟨c₁, c₂, hleft, ⟨between, hbetween, -⟩, hright⟩ := hwhole
    exact ⟨c, c₁, c₂, c', [], between, .refl c, hleft, hbetween, hright⟩
  | arguments span callee first second =>
    obtain ⟨-, c₁, c₂, c₃, c₄, ⟨_, hat, -⟩, hcallee, ⟨_, hopen, -⟩, hargs, -⟩ := hwhole
    obtain ⟨c₅, c₆, ⟨_, hlead, -⟩, hfirst, c₇, c₈, ⟨between, hbetween, -⟩, hsecond, -⟩ := hargs
    exact ⟨c₅, c₆, c₇, c₈, _, between, hat.trans (hcallee.crosses.trans (hopen.trans hlead)), hfirst,
      hbetween, hsecond⟩

theorem Located.crosses {p : Phrase} (h : p.Located c c') : ∃ text, c.Crosses text c' := by
  obtain ⟨text, hcrosses, -⟩ := h.reaches.1
  exact ⟨text, hcrosses⟩

/-- From the start of the one to the end of the other there is a text of the source. -/
theorem Meets.holds {source : List Char} (h : Meets whole left right) (hc : c.On source)
    (hwhole : whole.Located c c') :
    ∃ text, Span.Holds source (left.2.span.combine right.2.span) text := by
  obtain ⟨c₁, c₂, c₃, c₄, front, between, hfront, hl, hbetween, hr⟩ := h.located hwhole
  obtain ⟨text, htext⟩ := hl.crosses
  obtain ⟨text', htext'⟩ := hr.crosses
  have hspan : left.2.span.combine right.2.span = ⟨c₁.position, c₄.position⟩ := by
    rw [hl.span_eq, hr.span_eq]
    rfl
  rw [hspan]
  exact ⟨_, (hc.crosses hfront).holds (htext.trans (hbetween.trans htext'))⟩

end Phrase

namespace ParseError

variable {scope : Scope} {limit : Nat} {source : String} {e : ParseError}

/-- What an error speaks of stands in the source where the error points: the name or the literal, the
parenthesis that opens a level too many, nothing where something else is missing; and the parts whose
types do not agree, from the start of the one to the end of the other. -/
def Exhibits (scope : Scope) (source : List Char) : ParseError → Prop
  | ⟨.unexpected _, span⟩ => span.Holds source []
  | ⟨.unknownName name, span⟩ | ⟨.unknownCapability name, span⟩ => span.Holds source name.toList
  | ⟨.invalidLiteral text _, span⟩ => span.Holds source text.toList
  | ⟨.tooDeep _, span⟩ => span.Holds source ['(']
  | ⟨.typeMismatch leftType rightType, span⟩ => ∃ place whole left right a b stop start,
      Grammar.phrase source = .ok (Phrase.fill place whole) ∧ Meets whole left right ∧
        Denotes scope left.2 a ∧ Denotes scope right.2 b ∧ a.type = leftType ∧ b.type = rightType ∧
        TakesUp source (place ++ [left.1]) left.2 ⟨span.start, stop⟩ ∧
        TakesUp source (place ++ [right.1]) right.2 ⟨start, span.stop⟩

/-- How the error of a refused source points at the source. -/
structure Pinpoints (scope : Scope) (source : String) (e : ParseError) : Prop where
  /-- The span does not end before it starts. -/
  ordered : e.span.start ≤ e.span.stop
  /-- It lies in the source. -/
  inside : e.span.stop ≤ source.utf8ByteSize
  /-- No character is cut in two where it starts. -/
  starts : String.Pos.Raw.IsValid source ⟨e.span.start⟩
  /-- No character is cut in two where it ends. -/
  stops : String.Pos.Raw.IsValid source ⟨e.span.stop⟩
  /-- It holds what the error speaks of. -/
  exhibits : e.Exhibits scope source.toList
  /-- The report of the error points at the same place. -/
  reported : (Diagnostic.ofSource (.parse e) source).span? = some e.span

theorem span?_ofSource (h : e.span.start ≤ e.span.stop) :
    (Diagnostic.ofSource (.parse e) source).span? = some e.span := by
  show some (Underline.ofSpan e.span).span = some e.span
  simp only [Underline.ofSpan, Underline.span, Nat.add_sub_cancel' h]

theorem Pinpoints.of_holds {text : List Char} (h : e.span.Holds source.toList text)
    (hexhibits : e.Exhibits scope source.toList) : Pinpoints scope source e where
  ordered := h.start_le_stop
  inside := h.stop_boundary.isValid.le_utf8ByteSize
  starts := h.start_boundary.isValid
  stops := h.stop_boundary.isValid
  exhibits := hexhibits
  reported := span?_ofSource h.start_le_stop

theorem pinpoints_tooDeep (h : Nesting.check limit source.toList = .error e) :
    Pinpoints scope source e := by
  obtain ⟨position, hposition, rfl⟩ := Nesting.check_eq_error.mp h
  obtain ⟨front, back, hsource, hfront⟩ := Nesting.open_of_tooDeep hposition
  have hholds : Span.Holds source.toList ⟨position, position + 1⟩ ['('] := by
    refine ⟨front, back, hsource, ?_⟩
    rw [byteLength_append, hfront, Nat.zero_add]
    rfl
  exact .of_holds hholds hholds

theorem pinpoints_unexpected {far : Furthest} (h : Grammar.phrase source.toList = .error far) :
    Pinpoints scope source (.ofFurthest far) :=
  .of_holds (Grammar.isBoundary_furthest h).holds_nil (Grammar.isBoundary_furthest h).holds_nil

/-- A token whose place is the span stands there. -/
theorem holds_lexeme {lexeme : Lexeme} {c c' : Cursor} (hc : c.On source.toList)
    (h : lexeme.Located c c') : lexeme.span.Holds source.toList lexeme.text := by
  rw [h.span]
  exact hc.holds h.crosses

theorem pinpoints_part {place : List Phrase.Frame} {part : Phrase}
    (hphrase : Grammar.phrase source.toList = .ok (Phrase.fill place part))
    (h : Blames scope source.toList part e) : Pinpoints scope source e := by
  obtain ⟨c, c', hc, hlocated, -⟩ := located_part hphrase
  cases h with
  | @name lexeme =>
    have hholds := holds_lexeme hc hlocated
    exact .of_holds hholds (by simpa [Exhibits] using hholds)
  | @literal kind lexeme fault =>
    have hholds := holds_lexeme hc hlocated
    exact .of_holds hholds (by simpa [Exhibits] using hholds)
  | @method span callee args =>
    obtain ⟨-, c₁, c₂, c₃, hcallee, -⟩ := hlocated
    have hholds := holds_lexeme hc hcallee
    exact .of_holds hholds (by simpa [Exhibits] using hholds)
  | @capability span callee args =>
    obtain ⟨-, c₁, c₂, c₃, c₄, ⟨_, hat, -⟩, hcallee, -⟩ := hlocated
    have hholds := holds_lexeme (hc.crosses hat) hcallee
    exact .of_holds hholds (by simpa [Exhibits] using hholds)
  | misfit _ type =>
    obtain ⟨text, hcrosses⟩ := hlocated.crosses
    have hholds : part.span.Holds source.toList text := by
      rw [hlocated.span_eq]
      exact hc.holds hcrosses
    exact .of_holds hholds (by simpa [Exhibits, hholds.slice] using hholds)
  | @mismatch _ left right a b hmeets ha hb =>
    obtain ⟨hleft, hright⟩ := hmeets.fill
    obtain ⟨text, hholds⟩ := hmeets.holds hc hlocated
    have htakes : TakesUp source.toList (place ++ [left.1]) left.2 left.2.span :=
      takesUp_part (by rw [hphrase, Phrase.fill_append, ← hleft]; rfl)
    have htakes' : TakesUp source.toList (place ++ [right.1]) right.2 right.2.span :=
      takesUp_part (by rw [hphrase, Phrase.fill_append, ← hright]; rfl)
    exact .of_holds hholds ⟨place, part, left, right, a, b, left.2.span.stop, right.2.span.start,
      hphrase, hmeets, ha, hb, rfl, rfl, htakes, htakes'⟩

end ParseError

/-- Every error points exactly at what it speaks of. -/
theorem Expr.parse_error_pinpoints {scope : Scope} {limit : Nat} {source : String} {e : ParseError}
    (h : Expr.parse scope limit source = .error e) : e.Pinpoints scope source := by
  rcases Expr.parse_error h with hcheck | ⟨-, ⟨far, hphrase, rfl⟩ | ⟨p, hphrase, place, part, rfl, hblames⟩⟩
  · exact ParseError.pinpoints_tooDeep hcheck
  · exact ParseError.pinpoints_unexpected hphrase
  · exact ParseError.pinpoints_part hphrase hblames

/-- Parentheses belong to an operand, and positions count bytes: two characters in front of the operands
take up two bytes each, and one in the right operand does. -/
theorem Expr.accentedGuard_pinpoints :
    let source := "'é' == 'ß' && (arg0) == (\"ü\")"
    let e : ParseError := ⟨.typeMismatch .i32 .string, ⟨16, 32⟩⟩
    Expr.parse (Scope.ofArgs [.i32]) 2 source = .error e ∧
      e.Pinpoints (Scope.ofArgs [.i32]) source := by
  have hparse : Expr.parse (Scope.ofArgs [.i32]) 2 "'é' == 'ß' && (arg0) == (\"ü\")" =
      .error ⟨.typeMismatch .i32 .string, ⟨16, 32⟩⟩ := by decide +kernel
  exact ⟨hparse, Expr.parse_error_pinpoints hparse⟩

end GuardCode
