import GuardCode.Proofs.Grammar.Language
import GuardCode.Reading

/-! The texts that are refused as unexpected. Only a text that does not match the grammar is: the check
of the nesting and the reading of a phrase have faults of their own, and a text with no more parentheses
than the limit allows passes the check. -/
namespace GuardCode

namespace Nesting

/-- As many levels as there are parentheses always fit. -/
theorem fits_of_count {limit depth : Nat} {quotes : Quotes} {cs : List Char}
    (h : depth + cs.count '(' ≤ limit) : Fits limit depth quotes cs := by
  induction cs generalizing depth quotes with
  | nil => exact fits_nil
  | cons c cs ih =>
    have hcount : depth + cs.count '(' ≤ limit :=
      Nat.le_trans (Nat.add_le_add_left List.count_le_count_cons _) h
    intro position
    cases quotes with
    | escaped quote => exact ih hcount _
    | inside quote =>
      simp only [tooDeep?]
      split
      · exact ih hcount _
      · split <;> exact ih hcount _
    | outside =>
      simp only [tooDeep?]
      split
      · exact ih hcount _
      · split
        · next hopen =>
          rw [hopen, List.count_cons_self] at h
          rw [if_neg (by omega)]
          exact ih (by omega) _
        · split
          · exact ih (Nat.le_trans (Nat.add_le_add_right (Nat.sub_le _ _) _) hcount) _
          · exact ih hcount _

end Nesting

/-! ## Faults of the reading -/

/-- Whether the error is about the match with the grammar. -/
def blamesGrammar {α : Type} : Except ParseError α → Bool
  | .error ⟨.unexpected _, _⟩ => true
  | _ => false

theorem blamesGrammar_iff {α : Type} {x : Except ParseError α} :
    blamesGrammar x = true ↔ ∃ expected span, x = .error ⟨.unexpected expected, span⟩ := by
  constructor
  · intro h
    unfold blamesGrammar at h
    split at h
    · next expected span => exact ⟨expected, span, rfl⟩
    · cases h
  · rintro ⟨expected, span, rfl⟩
    rfl

/-- A step of the reading, which takes the match with the grammar for granted. -/
def BehindGrammar {α : Type} (x : Except ParseError α) : Prop := blamesGrammar x = false

namespace BehindGrammar

variable {α β : Type}

theorem ok (a : α) : BehindGrammar (.ok a) := rfl

theorem bind {x : Except ParseError α} {next : α → Except ParseError β} (hx : BehindGrammar x)
    (hnext : ∀ a, BehindGrammar (next a)) : BehindGrammar (x >>= next) := by
  cases x with
  | error e =>
    obtain ⟨fault, span⟩ := e
    cases fault with
    | unexpected => cases hx
    | _ => rfl
  | ok a => exact hnext a

end BehindGrammar

namespace Reading

variable {scope : Scope} {source : List Char}

theorem behind_coerce (n : Node) (type : Ty) : BehindGrammar (coerce source n type) := by
  unfold coerce
  split
  · exact .ok n
  · split
    · exact .ok n
    · exact .ok _
    · exact rfl

theorem behind_unify (left right : Node) : BehindGrammar (unify source left right) := by
  unfold unify
  split
  · exact (behind_coerce left _).bind fun _ => .ok _
  · exact (behind_coerce right _).bind fun _ => .ok _
  · exact .ok _

theorem behind_checkOperands (left right : Node) : BehindGrammar (checkOperands left right) := by
  unfold checkOperands
  split
  · exact .ok ()
  · exact rfl

theorem behind_binary (op : BinaryOp) (left right : Node) :
    BehindGrammar (binary source op left right) := by
  have hchecked : ∀ (check : Bool) (left right n : Node), BehindGrammar
      (if check then checkOperands left right >>= fun _ => .ok n else .ok n) := by
    intro check left right n
    split
    · exact (behind_checkOperands left right).bind fun _ => .ok n
    · exact .ok n
  simp only [binary]
  split
  · exact (BehindGrammar.ok (left, right)).bind fun _ => hchecked _ _ _ _
  · exact (behind_unify left right).bind fun _ => hchecked _ _ _ _

theorem behind_capabilityArgs (c : Capability) (nodes : List Node) :
    BehindGrammar (capabilityArgs source c nodes) := by
  unfold capabilityArgs
  split
  · refine (behind_unify _ _).bind fun operands => ?_
    simp only
    split
    · exact (behind_checkOperands _ _).bind fun _ => .ok _
    · exact .ok _
  · exact .ok _

theorem behind_nodes {ps : List Phrase} (h : ∀ p ∈ ps, BehindGrammar (node scope source p)) :
    BehindGrammar (nodes scope source ps) := by
  induction ps with
  | nil => exact .ok []
  | cons p ps ih =>
    obtain ⟨hp, hps⟩ := List.forall_mem_cons.mp h
    exact hp.bind fun _ => (ih hps).bind fun _ => .ok _

/-- Reading a phrase never blames the grammar. -/
theorem behind_node (p : Phrase) : BehindGrammar (node scope source p) := by
  induction p with
  | binary op left right ihl ihr =>
    exact ihl.bind fun l => ihr.bind fun r => behind_binary op l r
  | group span inner ih => exact ih.bind fun _ => .ok _
  | name lexeme =>
    simp only [node]
    split
    · exact .ok _
    · exact rfl
  | literal kind lexeme =>
    simp only [node]
    split
    · exact .ok _
    · exact rfl
  | method span callee args ih =>
    simp only [node]
    split
    · exact (behind_nodes ih).bind fun _ => .ok _
    · exact rfl
  | capability span callee args ih =>
    simp only [node]
    split
    · exact (behind_nodes ih).bind fun _ => (behind_capabilityArgs _ _).bind fun _ => .ok _
    · exact rfl

end Reading

namespace Expr

/-- Where the limit allows all the parentheses of a text, it is refused as unexpected exactly if it
has no reading in the grammar. -/
theorem unexpected_iff (scope : Scope) (limit : Nat) (source : String)
    (hlimit : source.toList.count '(' ≤ limit) :
    (∃ expected span, parse scope limit source = .error ⟨.unexpected expected, span⟩) ↔
      ¬Pattern.Reads .main source.toList [] := by
  have hcheck : Nesting.check limit source.toList = .ok () :=
    Nesting.check_eq_ok.mpr (Nesting.fits_of_count (by omega))
  rw [← Grammar.phrase_isOk_iff, ← blamesGrammar_iff]
  simp only [parse, hcheck]
  cases hphrase : Grammar.phrase source.toList with
  | error far =>
    refine iff_of_true rfl ?_
    rintro ⟨p, ⟨⟩⟩
  | ok p =>
    have hread : BehindGrammar (do return (← Reading.node scope source.toList p).expr) :=
      (Reading.behind_node p).bind fun _ => .ok _
    exact iff_of_false (Bool.eq_false_iff.mp hread) (not_not_intro ⟨p, rfl⟩)

/-- A power of ten stands behind digits, also where the same text is an operand. -/
theorem unexpected_power : let scope := Scope.ofArgs [.i32]
    blamesGrammar (parse scope 1 "(arg0<<-1.e5)||true") = true ∧
      blamesGrammar (parse scope 1 "(arg0<<-1.0e5)||true") = false ∧
      ¬Pattern.Reads .main "(arg0<<-1.e5)||true".toList [] ∧
      Pattern.Reads .main "(arg0<<-1.0e5)||true".toList [] := by
  intro scope
  have hrefused : blamesGrammar (parse scope 1 "(arg0<<-1.e5)||true") = true := by decide +kernel
  have hread : blamesGrammar (parse scope 1 "(arg0<<-1.0e5)||true") = false := by decide +kernel
  refine ⟨hrefused, hread, ?_, ?_⟩
  · exact (unexpected_iff scope 1 _ (by decide)).mp (blamesGrammar_iff.mp hrefused)
  · refine Classical.byContradiction fun hunread => ?_
    have hblamed := (unexpected_iff scope 1 _ (by decide)).mpr hunread
    rw [← blamesGrammar_iff, hread] at hblamed
    cases hblamed

end Expr

end GuardCode
