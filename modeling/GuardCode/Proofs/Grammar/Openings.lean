import GuardCode.Proofs.Grammar.Positions
import GuardCode.Proofs.Grammar.Soundness

/-! The check of nested parentheses over the text of a whole phrase. It skims over every token that is no
parenthesis, quoted text included, so that it counts the parentheses of the phrase and no others; where
it stops, it stops at the first of them that opens a level too many. -/
namespace GuardCode

namespace Nesting

/-! ## Text that does not count -/

/-- The check gets over the run, whatever follows it. Only where it stands to quotes may change. -/
def Skims (quotes : Quotes) (run : List Char) (quotes' : Quotes) : Prop :=
  ∀ limit depth position rest, tooDeep? limit (run ++ rest) position depth quotes =
    tooDeep? limit rest (position + byteLength run) depth quotes'

variable {quotes quotes' quotes'' : Quotes} {quote c : Char} {run more text cs rest : List Char}

theorem Skims.nil : Skims quotes [] quotes := fun _ _ _ _ => rfl

theorem Skims.append (h : Skims quotes run quotes') (h' : Skims quotes' more quotes'') :
    Skims quotes (run ++ more) quotes'' := by
  intro limit depth position rest
  rw [List.append_assoc, h, h', byteLength_append, Nat.add_assoc]

theorem skims_plain (hc : isPlain c) : Skims .outside [c] .outside := by
  intro limit depth position rest
  simp only [isPlain, Bool.not_eq_true', List.contains_eq_mem, List.mem_cons, List.not_mem_nil,
    or_false, decide_eq_false_iff_not, not_or] at hc
  simp [tooDeep?, byteLength, hc.1, hc.2.1, hc.2.2.1, hc.2.2.2]

theorem skims_quote (hquote : quote = '"' ∨ quote = '\'') :
    Skims .outside [quote] (.inside quote) := by
  intro limit depth position rest
  simp [tooDeep?, byteLength, hquote]

theorem skims_unquote (hquote : quote ≠ '\\') : Skims (.inside quote) [quote] .outside := by
  intro limit depth position rest
  simp [tooDeep?, byteLength, hquote]

theorem skims_escape : Skims (.inside quote) ['\\', c] (.inside quote) := by
  intro limit depth position rest
  simp [tooDeep?, byteLength, Nat.add_assoc]

theorem skims_inside (hescape : c ≠ '\\') (hquote : c ≠ quote) :
    Skims (.inside quote) [c] (.inside quote) := by
  intro limit depth position rest
  simp [tooDeep?, byteLength, hescape, hquote]

theorem skims_all_plain (h : run.all isPlain) : Skims .outside run .outside := by
  induction run with
  | nil => exact .nil
  | cons c run ih =>
    obtain ⟨hc, hrun⟩ := (Bool.and_eq_true _ _).mp h
    exact (skims_plain hc).append (ih hrun)

theorem skims_blanks (h : run.all Token.isSpace) : Skims .outside run .outside :=
  skims_all_plain (List.all_eq_true.mpr fun c hc => isPlain_space c (List.all_eq_true.mp h c hc))

theorem Passes.skims (h : Passes text []) : Skims .outside text .outside := by
  obtain ⟨run, rfl, hrun⟩ := h
  rw [List.append_nil]
  exact skims_all_plain hrun

theorem skims_quotedUnit (h : Token.quotedUnit quote cs = some rest) :
    ∃ run, cs = run ++ rest ∧ Skims (.inside quote) run (.inside quote) := by
  unfold Token.quotedUnit at h
  split at h
  · cases h
  · next c cs =>
    split at h
    · cases h
      exact ⟨['\\', c], rfl, skims_escape⟩
    · cases h
  · next c cs _ =>
    split at h
    · cases h
    · next hc =>
      cases h
      exact ⟨[c], rfl, skims_inside (fun heq => hc (.inr heq)) fun heq => hc (.inl heq)⟩

theorem skims_quotedUnits (quote : Char) (cs : List Char) :
    ∃ run, cs = run ++ Token.quotedUnits quote cs ∧ Skims (.inside quote) run (.inside quote) := by
  fun_induction Token.quotedUnits quote cs with
  | case1 => exact ⟨[], rfl, .nil⟩
  | case2 c cs hc ih =>
    obtain ⟨run, heq, hrun⟩ := ih
    exact ⟨['\\', c] ++ run, congrArg (['\\', c] ++ ·) heq, skims_escape.append hrun⟩
  | case3 => exact ⟨[], rfl, .nil⟩
  | case4 => exact ⟨[], rfl, .nil⟩
  | case5 c cs _ hc ih =>
    obtain ⟨run, heq, hrun⟩ := ih
    have hplain := skims_inside (fun heq => hc (.inr heq)) fun heq => hc (.inl heq)
    exact ⟨[c] ++ run, congrArg ([c] ++ ·) heq, hplain.append hrun⟩

theorem skims_character (h : Token.character text = some []) : Skims .outside text .outside := by
  unfold Token.character at h
  split at h
  · obtain ⟨after, hunit, hword⟩ := Option.bind_eq_some_iff.mp h
    obtain ⟨run, rfl, hrun⟩ := skims_quotedUnit hunit
    obtain rfl : after = ['\''] := Token.eq_of_word hword
    exact (skims_quote (.inr rfl)).append (hrun.append (skims_unquote (by decide)))
  · cases h

theorem skims_string (h : Token.string text = some []) : Skims .outside text .outside := by
  unfold Token.string at h
  split at h
  · next body =>
    obtain ⟨run, heq, hrun⟩ := skims_quotedUnits '"' body
    rw [Token.eq_of_word h, List.append_nil] at heq
    rw [heq]
    exact (skims_quote (.inl rfl)).append (hrun.append (skims_unquote (by decide)))
  · cases h

theorem skims_literal {kind : LiteralKind} (h : Grammar.IsToken kind text) :
    Skims .outside text .outside := by
  cases kind with
  | null => exact (passes_null h).skims
  | boolean => exact (passes_boolean h).skims
  | float => exact (passes_float h).skims
  | integer => exact (passes_integer h).skims
  | character => exact skims_character h
  | string => exact skims_string h

theorem skims_name {n : List Char} (h : Token.isName n) : Skims .outside n .outside :=
  skims_all_plain (List.all_eq_true.mpr fun c hc =>
    isPlain_nameChar c (List.all_eq_true.mp (Token.all_isNameChar_of_isName h) c hc))

theorem skims_symbol (op : BinaryOp) : Skims .outside op.symbol.toList .outside :=
  skims_all_plain (by cases op <;> decide)

/-- Over a parenthesis the check does not get without counting it. -/
theorem Skims.ne_open (h : Skims .outside text .outside) : text ≠ ['('] := by
  rintro rfl
  have hrun := h 0 0 0 []
  cases hrun

/-! ## Parentheses with their levels -/

/-- From one depth to another across tokens, with the levels that their parentheses open, in order. -/
inductive Steps : Nat → List (List Char) → List Nat → Nat → Prop where
  | done {depth : Nat} : Steps depth [] [] depth
  | skim {depth stop : Nat} {token : List Char} {tokens : List (List Char)} {levels : List Nat}
      (htoken : Skims .outside token .outside) (h : Steps depth tokens levels stop) :
      Steps depth (token :: tokens) levels stop
  | opening {depth stop : Nat} {tokens : List (List Char)} {levels : List Nat}
      (h : Steps (depth + 1) tokens levels stop) :
      Steps depth (['('] :: tokens) ((depth + 1) :: levels) stop
  | closing {depth stop : Nat} {tokens : List (List Char)} {levels : List Nat}
      (h : Steps depth tokens levels stop) : Steps (depth + 1) ([')'] :: tokens) levels stop

variable {depth middle stop limit : Nat} {tokens tokens' : List (List Char)} {levels levels' : List Nat}

theorem Steps.append (h : Steps depth tokens levels middle) (h' : Steps middle tokens' levels' stop) :
    Steps depth (tokens ++ tokens') (levels ++ levels') stop := by
  induction h with
  | done => exact h'
  | skim htoken _ ih => exact .skim htoken (ih h')
  | opening _ ih => exact .opening (ih h')
  | closing _ ih => exact .closing (ih h')

/-- In a text of tokens, a parenthesis that opens a level beyond the limit stands behind `front`, and
none that does stands before it. -/
def Exceeds (limit : Nat) (tokens : List (List Char)) (levels : List Nat) (cs front : List Char) :
    Prop :=
  ∃ before after lower deeper back, tokens = before ++ ['('] :: after ∧
    levels = lower ++ (limit + 1) :: deeper ∧ limit + 1 ∉ lower ∧
    before.count ['('] = lower.length ∧ cs = front ++ '(' :: back ∧
    Written before front [] ∧ Written after back []

/-- What the check answers on a text of tokens: nothing where no level is beyond the limit, and else where
the first parenthesis stands that opens one. -/
def Answers (limit : Nat) (tokens : List (List Char)) (levels : List Nat) (cs : List Char)
    (position : Nat) (answer : Option Nat) : Prop :=
  answer = none ∧ limit + 1 ∉ levels ∨
    ∃ front, Exceeds limit tokens levels cs front ∧ answer = some (position + byteLength front)

/-- One more token in front, which opens no level beyond the limit. -/
theorem Answers.behind {token blanks : List Char} {opened : List Nat} {position : Nat}
    {answer : Option Nat}
    (h : Answers limit tokens levels cs (position + byteLength blanks + byteLength token) answer)
    (hblanks : blanks.all Token.isSpace) (hcount : [token].count ['('] = opened.length)
    (hopened : limit + 1 ∉ opened) :
    Answers limit (token :: tokens) (opened ++ levels) (blanks ++ (token ++ cs)) position answer := by
  rcases h with ⟨hnone, hlevels⟩ | ⟨front, hexceeds, hanswer⟩
  · exact .inl ⟨hnone, by simp [hopened, hlevels]⟩
  · refine .inr ⟨blanks ++ (token ++ front), ?_, ?_⟩
    · obtain ⟨before, after, lower, deeper, back, rfl, rfl, hlower, hbefore, rfl, hfront, hback⟩ :=
        hexceeds
      refine ⟨token :: before, after, opened ++ lower, deeper, back, rfl, by simp,
        by simp [hopened, hlower], ?_, by simp, .token hblanks hfront, hback⟩
      have hcons : token :: before = [token] ++ before := rfl
      rw [hcons, List.count_append, hcount, hbefore, List.length_append]
    · rw [hanswer, byteLength_append, byteLength_append]
      simp only [Nat.add_assoc]

/-- The check goes through the parentheses of a text of tokens and stops at the first that opens a level
beyond the limit. -/
theorem Steps.answers (h : Steps depth tokens levels stop) (hdepth : depth ≤ limit)
    (hwritten : Written tokens cs []) (position : Nat) :
    Answers limit tokens levels cs position (tooDeep? limit cs position depth .outside) := by
  induction h generalizing cs position with
  | done =>
    cases hwritten with
    | done hblanks =>
      rw [skims_blanks hblanks]
      exact .inl ⟨rfl, by simp⟩
  | @skim depth stop token tokens levels htoken _ ih =>
    cases hwritten with
    | token hblanks hwritten =>
      have hcount : [token].count ['('] = ([] : List Nat).length := by simp [htoken.ne_open]
      rw [skims_blanks hblanks, htoken]
      exact (ih hdepth hwritten _).behind hblanks hcount (by simp)
  | @opening depth stop tokens levels _ ih =>
    cases hwritten with
    | @token blanks _ cs _ _ hblanks hwritten =>
      rw [skims_blanks hblanks]
      by_cases hlimit : limit < depth + 1
      · obtain rfl : limit = depth := by omega
        have hfront : Written [] blanks [] := by simpa using Written.done hblanks []
        refine .inr ⟨blanks, ⟨[], tokens, [], levels, cs, rfl, rfl, by simp, rfl, rfl, hfront,
          hwritten⟩, ?_⟩
        simp [tooDeep?]
      · have hstep : ∀ position, tooDeep? limit (['('] ++ cs) position depth .outside =
            tooDeep? limit cs (position + byteLength ['(']) (depth + 1) .outside := by
          simp [tooDeep?, hlimit, byteLength]
        have hlevel : limit + 1 ∉ [depth + 1] := by
          simp
          omega
        rw [hstep]
        exact (ih (by omega) hwritten _).behind hblanks rfl hlevel
  | @closing depth stop tokens levels _ ih =>
    cases hwritten with
    | @token blanks _ cs _ _ hblanks hwritten =>
      have hstep : ∀ position, tooDeep? limit ([')'] ++ cs) position (depth + 1) .outside =
          tooDeep? limit cs (position + byteLength [')']) depth .outside := by
        simp [tooDeep?, byteLength]
      have hcount : [[')']].count ['('] = ([] : List Nat).length := by decide
      rw [skims_blanks hblanks, hstep]
      exact (ih (by omega) hwritten _).behind hblanks hcount (by simp)

end Nesting

namespace Phrase

open Nesting (Steps)

mutual

/-- The levels that the parentheses of a phrase open, in the order of the text, with `depth` levels
around the phrase. -/
def opens (depth : Nat) : Phrase → List Nat
  | binary _ left right => left.opens depth ++ right.opens depth
  | group _ inner => (depth + 1) :: inner.opens (depth + 1)
  | name _ | literal _ _ => []
  | method _ _ args | capability _ _ args => (depth + 1) :: opensAll (depth + 1) args

def opensAll (depth : Nat) : List Phrase → List Nat
  | [] => []
  | p :: ps => p.opens depth ++ opensAll depth ps

end

theorem steps_more {args : List Phrase} {depth : Nat}
    (h : ∀ a ∈ args, ∀ depth, Steps depth a.tokens (a.opens depth) depth) :
    Steps depth (moreTokens args) (opensAll depth args) depth := by
  induction args with
  | nil => exact .done
  | cons p ps ih =>
    obtain ⟨hp, hps⟩ := List.forall_mem_cons.mp h
    exact .skim (Nesting.skims_plain (by decide)) ((hp depth).append (ih hps))

theorem steps_arguments {args : List Phrase}
    (h : ∀ a ∈ args, ∀ depth, Steps depth a.tokens (a.opens depth) depth) (depth : Nat) :
    Steps depth (argumentTokens args) (opensAll depth args) depth := by
  cases args with
  | nil => exact .done
  | cons p ps =>
    obtain ⟨hp, hps⟩ := List.forall_mem_cons.mp h
    exact (hp depth).append (steps_more hps)

/-- The parentheses among the tokens of a phrase open the levels that it has. -/
theorem Regular.steps {p : Phrase} (h : p.Regular Grammar.IsToken) (depth : Nat) :
    Steps depth p.tokens (p.opens depth) depth := by
  induction h generalizing depth with
  | binary _ _ _ _ ihl ihr => exact (ihl depth).append (.skim (Nesting.skims_symbol _) (ihr depth))
  | group _ ih =>
    have hinner := (ih (depth + 1)).append (.closing .done)
    rw [List.append_nil] at hinner
    exact .opening hinner
  | name hname => exact .skim (Nesting.skims_name hname) .done
  | literal hliteral => exact .skim (Nesting.skims_literal hliteral) .done
  | method hname _ ih =>
    have hargs := (steps_arguments ih (depth + 1)).append (.closing .done)
    rw [List.append_nil] at hargs
    exact .skim (Nesting.skims_name hname) (.opening hargs)
  | capability hname _ ih =>
    have hargs := (steps_arguments ih (depth + 1)).append (.closing .done)
    rw [List.append_nil] at hargs
    exact .skim (Nesting.skims_plain (by decide)) (.skim (Nesting.skims_name hname) (.opening hargs))

end Phrase

end GuardCode
