import GuardCode.Proofs.Lowering.Agreement
import GuardCode.Proofs.Reading.Blame
import GuardCode.Proofs.Reading.Scanned

/-! What the reading of a guard is prepared for and never meets. The rules leave no pair that the lowering
has no case for and leave out none that it asks for, and what they match as a literal can be read. -/
namespace GuardCode

/-! ## Messages -/

theorem Text.head?_append {s : String} {c : Char} (h : s.toList.head? = some c) (t : String) :
    (s ++ t).toList.head? = some c := by
  simp [h]

namespace LiteralFault

variable {fault : LiteralFault}

/-- About the spelling of a literal, which the rules have seen to, and not about its size. -/
def isOfSpelling : LiteralFault → Bool
  | badEscape | notOneCharacter | malformedFloat => true
  | doesNotFit _ | beyond64Bits | beyondSuffix _ => false

theorem head?_message (h : fault.isOfSpelling = false) :
    fault.message.toList.head? = some 'd' ∨ fault.message.toList.head? = some 'o' := by
  cases fault with
  | doesNotFit => exact .inl (Text.head?_append (Text.head?_append rfl _) _)
  | beyond64Bits => exact .inr rfl
  | beyondSuffix => exact .inr (Text.head?_append (Text.head?_append rfl _) _)
  | badEscape | notOneCharacter | malformedFloat => cases h

/-- The message of no other fault begins as that of a fault of spelling does. -/
theorem message_ne {text : String} {c : Char} (h : fault.isOfSpelling = false)
    (htext : text.toList.head? = some c) (hd : c ≠ 'd') (ho : c ≠ 'o') : fault.message ≠ text := by
  rintro rfl
  rcases head?_message h with hhead | hhead
  · exact hd (Option.some.inj (htext.symm.trans hhead))
  · exact ho (Option.some.inj (htext.symm.trans hhead))

end LiteralFault

/-! ## The defences of the lowering -/

namespace Lowering

variable {scope : Scope} {limit : Nat} {source : String}

/-- Only its size can be wrong with a literal in a text that is refused. -/
theorem fault_of_parse {text : String} {fault : LiteralFault} {span : Span}
    (h : Expr.parse scope limit source = .error ⟨.invalidLiteral text fault, span⟩) :
    fault.isOfSpelling = false := by
  rcases Expr.parse_error h with
    hcheck | ⟨-, ⟨far, -, hfar⟩ | ⟨p, hphrase, place, part, rfl, hblames⟩⟩
  · obtain ⟨position, -, hdeep⟩ := Nesting.check_eq_error.mp hcheck
    cases hdeep
  · cases hfar
  · have hregular := (Grammar.written_phrase hphrase).1.of_fill
    cases hblames with
    | literal hfault =>
      cases hregular with
      | literal htoken =>
        obtain ⟨-, rfl | ⟨type, rfl⟩⟩ := Reading.literal_error htoken hfault
        · rfl
        · rfl
    | misfit => rfl

/-- No answer that the lowering keeps ready for what cannot be is ever given. -/
structure Undisturbed (scope : Scope) (limit : Nat) (source : String) : Prop where
  /-- By way of its pairs a text is read as it is read, and refused with the same error. -/
  agrees : parse scope limit source = (Expr.parse scope limit source).mapError .refused
  /-- No pair is missing inside another. -/
  complete : ∀ span, parse scope limit source ≠ .error (.missingPair span)
  /-- Every pair has a case. -/
  handled : ∀ rule span, parse scope limit source ≠ .error (.unhandled rule span)
  /-- The climb finds an operand wherever it needs one, and operators between them. -/
  climbs : parse scope limit source ≠ .error .stuck
  /-- No literal is refused for its spelling. -/
  spelled : ∀ text fault span,
    Expr.parse scope limit source = .error ⟨.invalidLiteral text fault, span⟩ →
      fault.message ≠ "bad escape" ∧ fault.message ≠ "expected exactly one character" ∧
        fault.message ≠ "malformed float"

theorem ne_of_not_refused {setback : Setback} (h : ∀ e, setback ≠ .refused e) :
    parse scope limit source ≠ .error setback := by
  rw [parse_eq]
  cases Expr.parse scope limit source with
  | ok => nofun
  | error e =>
    rintro ⟨⟩
    exact h e rfl

theorem undisturbed (scope : Scope) (limit : Nat) (source : String) :
    Undisturbed scope limit source where
  agrees := parse_eq scope limit source
  complete _ := ne_of_not_refused fun _ => nofun
  handled _ _ := ne_of_not_refused fun _ => nofun
  climbs := ne_of_not_refused fun _ => nofun
  spelled text fault span h := by
    have hfault := fault_of_parse h
    refine ⟨?escape, ?character, ?float⟩
    case escape => exact LiteralFault.message_ne hfault rfl (by decide) (by decide)
    case character => exact LiteralFault.message_ne hfault rfl (by decide) (by decide)
    case float => exact LiteralFault.message_ne hfault rfl (by decide) (by decide)

end Lowering

/-! ## The texts of literals -/

namespace Grammar

/-- What the rules match as a string, a character or a float can be read as one. -/
structure ReadsBack (cs : List Char) (lexeme : Lexeme) : Prop where
  /-- Between its quotes every escape is one that is read. -/
  string : matched .string cs = .ok lexeme →
    ∃ units body, lexeme.text = '"' :: (units ++ ['"']) ∧ Text.unescape units = some body
  /-- A character literal holds exactly one. -/
  character : matched .character cs = .ok lexeme →
    ∃ unit c, lexeme.text = '\'' :: (unit ++ ['\'']) ∧ Text.unescape unit = some [c]
  float : matched .float cs = .ok lexeme → ∃ read, Reading.float lexeme.text = .ok read

theorem readsBack (cs : List Char) (lexeme : Lexeme) : ReadsBack cs lexeme where
  string h := by
    have htoken : IsToken .string lexeme.text := isToken_of_matched h
    exact htoken.unescapes_string
  character h := by
    have htoken : IsToken .character lexeme.text := isToken_of_matched h
    exact htoken.unescapes_character
  float h := by
    have htoken : IsToken .float lexeme.text := isToken_of_matched h
    exact Reading.float_of_isToken htoken

end Grammar

/-- Whatever is read in whatever scope, the defences are not needed: not those against pairs that the rules
do not leave, nor those against literals that they do not match. -/
theorem defences_unreached :
    (∀ scope limit source, Lowering.Undisturbed scope limit source) ∧
      ∀ cs lexeme, Grammar.ReadsBack cs lexeme :=
  ⟨Lowering.undisturbed, Grammar.readsBack⟩

/-- A string with escapes and a character of two bytes, such a character, a float with a fraction, a power of
ten and a suffix; and a text that is refused for the size of its literal. -/
theorem defences_unreached_literals :
    (∃ units body, "\"é\\\"\\n\"".toList = '"' :: (units ++ ['"']) ∧ Text.unescape units = some body) ∧
      (∃ unit c, "'ß'".toList = '\'' :: (unit ++ ['\'']) ∧ Text.unescape unit = some [c]) ∧
      (∃ read, Reading.float "-1.5e3f".toList = .ok read) ∧
      Expr.parse (Scope.ofArgs [.i16]) 0 "arg0 < 70000s" =
        .error ⟨.invalidLiteral "70000s" (.beyondSuffix .i16), ⟨7, 13⟩⟩ ∧
      (LiteralFault.beyondSuffix .i16).message ≠ "malformed float" := by
  have hstring : Grammar.matched .string "\"é\\\"\\n\" == x".toList =
      .ok ⟨⟨0, 8⟩, "\"é\\\"\\n\"".toList⟩ := by decide +kernel
  have hcharacter : Grammar.matched .character "'ß'".toList = .ok ⟨⟨0, 4⟩, "'ß'".toList⟩ := by
    decide +kernel
  have hfloat : Grammar.matched .float "-1.5e3f)".toList = .ok ⟨⟨0, 7⟩, "-1.5e3f".toList⟩ := by
    decide +kernel
  have hparse : Expr.parse (Scope.ofArgs [.i16]) 0 "arg0 < 70000s" =
      .error ⟨.invalidLiteral "70000s" (.beyondSuffix .i16), ⟨7, 13⟩⟩ := by decide +kernel
  obtain ⟨hparses, hreads⟩ := defences_unreached
  have hspelled := (hparses (Scope.ofArgs [.i16]) 0 "arg0 < 70000s").spelled _ _ _ hparse
  exact ⟨(hreads _ _).string hstring, (hreads _ _).character hcharacter, (hreads _ _).float hfloat,
    hparse, hspelled.2.2⟩

end GuardCode
