import GuardCode.Proofs.Grammar.Written

/-! Parts of a phrase at their places. A part in parentheses of its own can take the place of the part:
the phrase stays regular, its tokens are the same but for the two parentheses, and it differs from the
one before in parentheses only. -/
namespace GuardCode.Phrase

/-- What is around a part, one level up. -/
inductive Frame where
  | left (op : BinaryOp) (other : Phrase)
  | right (op : BinaryOp) (other : Phrase)
  | inner (span : Span)
  | method (span : Span) (callee : Lexeme) (before after : List Phrase)
  | capability (span : Span) (callee : Lexeme) (before after : List Phrase)

def Frame.fill : Frame → Phrase → Phrase
  | left op other, p => binary op p other
  | right op other, p => binary op other p
  | inner span, p => group span p
  | method span callee before after, p => .method span callee (before ++ p :: after)
  | capability span callee before after, p => .capability span callee (before ++ p :: after)

/-- The phrase with a part at the place that the frames lead to, the outermost first. -/
def fill (place : List Frame) (p : Phrase) : Phrase := place.foldr Frame.fill p

@[simp] theorem fill_nil (p : Phrase) : fill [] p = p := rfl

@[simp] theorem fill_cons (frame : Frame) (place : List Frame) (p : Phrase) :
    fill (frame :: place) p = frame.fill (fill place p) := rfl

theorem fill_append (place more : List Frame) (p : Phrase) :
    fill (place ++ more) p = fill place (fill more p) := by
  simp [fill, List.foldr_append]

/-- Two parts that take each other's type, each with the frame around it: the operands of an operator
other than `&&` and `||`, and the arguments of a capability where there are two. -/
inductive Meets : Phrase → Frame × Phrase → Frame × Phrase → Prop where
  | operands {op : BinaryOp} (left right : Phrase) (h : op.isLogical = false) :
      Meets (binary op left right) (.left op right, left) (.right op left, right)
  | arguments (span : Span) (callee : Lexeme) (first second : Phrase) :
      Meets (.capability span callee [first, second])
        (.capability span callee [] [second], first) (.capability span callee [first] [], second)

theorem Meets.fill {whole : Phrase} {left right : Frame × Phrase} (h : Meets whole left right) :
    left.1.fill left.2 = whole ∧ right.1.fill right.2 = whole := by
  cases h with
  | operands => exact ⟨rfl, rfl⟩
  | arguments => exact ⟨rfl, rfl⟩

section Regular

variable {literals : LiteralKind → List Char → Prop} {p p' : Phrase}
  {place : List Frame}

theorem Regular.of_frame {frame : Frame} (h : Regular literals (frame.fill p)) : Regular literals p := by
  cases frame with
  | left =>
    cases h with
    | binary hleft => exact hleft
  | right =>
    cases h with
    | binary _ hright => exact hright
  | inner =>
    cases h with
    | group h => exact h
  | method =>
    cases h with
    | method _ hargs => exact hargs p (by simp)
  | capability =>
    cases h with
    | capability _ hargs => exact hargs p (by simp)

theorem Regular.of_fill (h : Regular literals (fill place p)) : Regular literals p := by
  induction place with
  | nil => exact h
  | cons frame place ih => exact ih (Regular.of_frame h)

/-- Another part can stand where it needs no parentheses that the one before did not need. -/
theorem Regular.frame {frame : Frame} (h : Regular literals (frame.fill p)) (hp : Regular literals p')
    (hparens : ∀ op onRight, p.needsParens op onRight = false → p'.needsParens op onRight = false) :
    Regular literals (frame.fill p') := by
  have hargs : ∀ {before after : List Phrase},
      (∀ a ∈ before ++ p :: after, Regular literals a) →
        ∀ a ∈ before ++ p' :: after, Regular literals a := by
    intro before after hall a ha
    rcases List.mem_append.mp ha with ha | ha
    · exact hall a (List.mem_append_left _ ha)
    · rcases List.mem_cons.mp ha with rfl | ha
      · exact hp
      · exact hall a (List.mem_append_right _ (List.mem_cons_of_mem _ ha))
  cases frame with
  | left =>
    cases h with
    | binary _ hright hl hr => exact .binary hp hright (hparens _ _ hl) hr
  | right =>
    cases h with
    | binary hleft _ hl hr => exact .binary hleft hp hl (hparens _ _ hr)
  | inner => exact .group hp
  | method =>
    cases h with
    | method hname hall => exact .method hname (hargs hall)
  | capability =>
    cases h with
    | capability hname hall => exact .capability hname (hargs hall)

theorem needsParens_frame (frame : Frame) (p p' : Phrase) (op : BinaryOp) (onRight : Bool) :
    (frame.fill p').needsParens op onRight = (frame.fill p).needsParens op onRight := by
  cases frame <;> rfl

theorem Regular.fill (h : Regular literals (fill place p)) (hp : Regular literals p')
    (hparens : ∀ op onRight, p.needsParens op onRight = false → p'.needsParens op onRight = false) :
    Regular literals (Phrase.fill place p') ∧ ∀ op onRight,
      (Phrase.fill place p).needsParens op onRight = false →
        (Phrase.fill place p').needsParens op onRight = false := by
  induction place with
  | nil => exact ⟨hp, hparens⟩
  | cons frame place ih =>
    obtain ⟨hfilled, hfilledParens⟩ := ih (Regular.of_frame h)
    refine ⟨Regular.frame h hfilled hfilledParens, fun op onRight hframe => ?_⟩
    rw [fill_cons, needsParens_frame]
    exact hframe

theorem Regular.enclose (h : Regular literals (Phrase.fill place p)) (span : Span) :
    Regular literals (Phrase.fill place (.group span p)) :=
  (h.fill (.group h.of_fill) fun _ _ _ => rfl).1

end Regular

/-! Tokens. -/

theorem argumentTokens_at (before after : List Phrase) : ∃ pre post, ∀ p : Phrase,
    argumentTokens (before ++ p :: after) = pre ++ (p.tokens ++ post) := by
  cases before with
  | nil => exact ⟨[], moreTokens after, fun _ => rfl⟩
  | cons first before =>
    refine ⟨first.tokens ++ (before.flatMap behindComma ++ [[',']]), moreTokens after, fun p => ?_⟩
    simp [argumentTokens, moreTokens_eq, behindComma]

theorem tokens_frame (frame : Frame) : ∃ pre post, ∀ p : Phrase,
    (frame.fill p).tokens = pre ++ (p.tokens ++ post) := by
  cases frame with
  | left op other => exact ⟨[], op.symbol.toList :: other.tokens, fun _ => rfl⟩
  | right op other =>
    refine ⟨other.tokens ++ [op.symbol.toList], [], fun p => ?_⟩
    simp [Frame.fill, tokens]
  | inner span => exact ⟨[['(']], [[')']], fun _ => rfl⟩
  | method span callee before after =>
    obtain ⟨pre, post, htokens⟩ := argumentTokens_at before after
    refine ⟨callee.text :: ['('] :: pre, post ++ [[')']], fun p => ?_⟩
    simp [Frame.fill, tokens, htokens]
  | capability span callee before after =>
    obtain ⟨pre, post, htokens⟩ := argumentTokens_at before after
    refine ⟨['@'] :: callee.text :: ['('] :: pre, post ++ [[')']], fun p => ?_⟩
    simp [Frame.fill, tokens, htokens]

/-- The tokens of a part stand together, and those around it stay what they are. -/
theorem tokens_fill (place : List Frame) : ∃ pre post, ∀ p : Phrase,
    (fill place p).tokens = pre ++ (p.tokens ++ post) := by
  induction place with
  | nil => exact ⟨[], [], by simp⟩
  | cons frame place ih =>
    obtain ⟨pre, post, htokens⟩ := ih
    obtain ⟨pre', post', hframe⟩ := tokens_frame frame
    refine ⟨pre' ++ pre, post ++ post', fun p => ?_⟩
    rw [fill_cons, hframe, htokens]
    simp

/-- Where a part stands in a text, parentheses around it give the text of the enclosed part. -/
theorem written_enclose {place : List Frame} {p : Phrase} {source : List Char}
    (h : Written (fill place p).tokens source []) (span : Span) :
    ∃ front part back, source = front ++ (part ++ back) ∧ Written p.tokens part [] ∧
      Written (fill place (.group span p)).tokens (front ++ '(' :: (part ++ ')' :: back)) [] := by
  obtain ⟨pre, post, htokens⟩ := tokens_fill place
  rw [htokens] at h ⊢
  obtain ⟨mid, hpre, h⟩ := h.split
  obtain ⟨back, hp, hpost⟩ := h.split
  obtain ⟨front, rfl, hfront⟩ := hpre.text
  obtain ⟨part, rfl, hpart⟩ := hp.text
  refine ⟨front, part, back, rfl, by simpa using hpart [], ?_⟩
  have hclose : Written ([[')']] ++ post) (')' :: back) [] :=
    (Written.single [')'] back).append hpost
  have hinner : Written (p.tokens ++ ([[')']] ++ post)) (part ++ ')' :: back) [] :=
    (hpart _).append hclose
  have hopen := (Written.single ['('] (part ++ ')' :: back)).append hinner
  simpa [tokens] using (hfront _).append hopen

/-! Phrases without their parentheses. -/

mutual

/-- A phrase without its places and its parentheses. -/
def core : Phrase → Phrase
  | binary op left right => binary op left.core right.core
  | group _ inner => inner.core
  | name lexeme => name lexeme.bare
  | literal kind lexeme => literal kind lexeme.bare
  | method _ callee args => method ⟨0, 0⟩ callee.bare (coreAll args)
  | capability _ callee args => capability ⟨0, 0⟩ callee.bare (coreAll args)

def coreAll : List Phrase → List Phrase
  | [] => []
  | p :: ps => p.core :: coreAll ps

end

theorem coreAll_eq_map (ps : List Phrase) : coreAll ps = ps.map core := by
  induction ps with
  | nil => rfl
  | cons p ps ih => simp [coreAll, ih]

@[simp] theorem core_bare (p : Phrase) : p.bare.core = p.core := by
  induction p with
  | binary op left right ihl ihr => simp [bare, core, ihl, ihr]
  | group span inner ih => simp [bare, core, ih]
  | name lexeme => rfl
  | literal kind lexeme => rfl
  | method span callee args ih =>
    simpa [bare, core, bareAll_eq_map, coreAll_eq_map, Lexeme.bare] using ih
  | capability span callee args ih =>
    simpa [bare, core, bareAll_eq_map, coreAll_eq_map, Lexeme.bare] using ih

theorem core_fill {p p' : Phrase} (h : p'.core = p.core) (place : List Frame) :
    (fill place p').core = (fill place p).core := by
  induction place with
  | nil => exact h
  | cons frame place ih =>
    cases frame <;> simp [Frame.fill, core, coreAll_eq_map, ih]

end GuardCode.Phrase
