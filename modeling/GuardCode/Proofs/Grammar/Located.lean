import GuardCode.Proofs.Grammar.Places
import GuardCode.Proofs.Grammar.Positions
import GuardCode.Proofs.Grammar.Soundness

/-! Where the parts of a phrase stand. Every part of a phrase that is found in a source, down to the
single token, begins and ends where the phrase says, parentheses of its own included. -/
namespace GuardCode

/-! ## Tokens between cursors -/

theorem Written.join {tokens more : List (List Char)} {text text' : List Char}
    (h : Written tokens text []) (h' : Written more text' []) :
    Written (tokens ++ more) (text ++ text') [] := by
  obtain ⟨part, heq, hpart⟩ := h.text
  obtain rfl : text = part := by simpa using heq
  exact (hpart text').append h'

/-- The text is made of the tokens, with blanks between them only: it starts with the first token and
ends with the last one. -/
structure Tight (tokens : List (List Char)) (text : List Char) : Prop where
  written : Written tokens text []
  starts : ∀ token ∈ tokens.head?, token <+: text
  ends : ∀ token ∈ tokens.getLast?, token <:+ text

namespace Cursor

variable {tokens more : List (List Char)} {c c' c'' : Cursor} {text : List Char}

/-- The tokens stand between the cursors, and blanks anywhere. -/
def Covers (c : Cursor) (tokens : List (List Char)) (c' : Cursor) : Prop :=
  ∃ text, c.Crosses text c' ∧ Written tokens text []

/-- No blank stands before the first token. -/
def Starts (c : Cursor) (tokens : List (List Char)) (c' : Cursor) : Prop :=
  ∃ text, c.Crosses text c' ∧ Written tokens text [] ∧ ∀ token ∈ tokens.head?, token <+: text

/-- No blank stands behind the last token. -/
def Stops (c : Cursor) (tokens : List (List Char)) (c' : Cursor) : Prop :=
  ∃ text, c.Crosses text c' ∧ Written tokens text [] ∧ ∀ token ∈ tokens.getLast?, token <:+ text

theorem Crosses.unique {text' : List Char} (h : c.Crosses text c') (h' : c.Crosses text' c') :
    text = text' :=
  List.append_cancel_right (h.rest.symm.trans h'.rest)

theorem written_single (word : List Char) : Written [word] word [] := by
  simpa using Written.single word []

theorem Crosses.starts (h : c.Crosses text c') : c.Starts [text] c' :=
  ⟨text, h, written_single text, by simp⟩

theorem Crosses.stops (h : c.Crosses text c') : c.Stops [text] c' :=
  ⟨text, h, written_single text, by simp⟩

theorem Starts.covers (h : c.Starts tokens c') : c.Covers tokens c' := by
  obtain ⟨text, hcrosses, hwritten, -⟩ := h
  exact ⟨text, hcrosses, hwritten⟩

theorem Stops.covers (h : c.Stops tokens c') : c.Covers tokens c' := by
  obtain ⟨text, hcrosses, hwritten, -⟩ := h
  exact ⟨text, hcrosses, hwritten⟩

theorem Covers.refl (c : Cursor) : c.Covers [] c := ⟨[], .refl c, .refl []⟩

theorem Covers.trans (h : c.Covers tokens c') (h' : c'.Covers more c'') :
    c.Covers (tokens ++ more) c'' := by
  obtain ⟨text, hcrosses, hwritten⟩ := h
  obtain ⟨text', hcrosses', hwritten'⟩ := h'
  exact ⟨text ++ text', hcrosses.trans hcrosses', hwritten.join hwritten'⟩

theorem Starts.trans {token : List Char} (h : c.Starts (token :: tokens) c')
    (h' : c'.Covers more c'') : c.Starts (token :: tokens ++ more) c'' := by
  obtain ⟨text, hcrosses, hwritten, hstarts⟩ := h
  obtain ⟨text', hcrosses', hwritten'⟩ := h'
  refine ⟨text ++ text', hcrosses.trans hcrosses', hwritten.join hwritten', ?_⟩
  rintro first ⟨⟩
  exact (hstarts token rfl).trans (List.prefix_append _ _)

theorem Covers.stops (h : c.Covers tokens c') (h' : c'.Stops more c'') (hmore : more ≠ []) :
    c.Stops (tokens ++ more) c'' := by
  obtain ⟨text, hcrosses, hwritten⟩ := h
  obtain ⟨text', hcrosses', hwritten', hends⟩ := h'
  refine ⟨text ++ text', hcrosses.trans hcrosses', hwritten.join hwritten', ?_⟩
  intro last hlast
  rw [List.getLast?_append, List.getLast?_eq_some_getLast hmore] at hlast
  rw [List.getLast?_eq_some_getLast hmore] at hends
  exact (hends last hlast).trans (List.suffix_append _ _)

theorem Starts.tight (h : c.Starts tokens c') (h' : c.Stops tokens c') :
    ∃ text, c.Crosses text c' ∧ Tight tokens text := by
  obtain ⟨text, hcrosses, hwritten, hstarts⟩ := h
  obtain ⟨text', hcrosses', -, hends⟩ := h'
  obtain rfl := hcrosses.unique hcrosses'
  exact ⟨text, hcrosses, hwritten, hstarts, hends⟩

end Cursor

/-! ## Located phrases -/

/-- The token stands between the cursors, which is the place that is noted with it. -/
structure Lexeme.Located (lexeme : Lexeme) (c c' : Cursor) : Prop where
  crosses : c.Crosses lexeme.text c'
  span : lexeme.span = ⟨c.position, c'.position⟩

namespace Phrase

/-- The place of a phrase; that of an operator reaches from its left operand to its right one. -/
def span : Phrase → Span
  | binary _ left right => left.span.combine right.span
  | group span _ | method span _ _ | capability span _ _ => span
  | name lexeme | literal _ lexeme => lexeme.span

mutual

/-- The phrase stands between the cursors, and so do its parts with the places noted in it. -/
def Located : Phrase → Cursor → Cursor → Prop
  | binary op left right, c, c' => ∃ c₁ c₂,
      left.Located c c₁ ∧ c₁.Covers [op.symbol.toList] c₂ ∧ right.Located c₂ c'
  | group span inner, c, c' => span = ⟨c.position, c'.position⟩ ∧ ∃ c₁ c₂,
      c.Starts [['(']] c₁ ∧ inner.Located c₁ c₂ ∧ c₂.Stops [[')']] c'
  | name lexeme, c, c' | literal _ lexeme, c, c' => lexeme.Located c c'
  | method span callee args, c, c' => span = ⟨c.position, c'.position⟩ ∧ ∃ c₁ c₂ c₃,
      callee.Located c c₁ ∧ c₁.Covers [['(']] c₂ ∧ LocatedBehind [] args c₂ c₃ ∧
        c₃.Stops [[')']] c'
  | capability span callee args, c, c' => span = ⟨c.position, c'.position⟩ ∧ ∃ c₁ c₂ c₃ c₄,
      c.Starts [['@']] c₁ ∧ callee.Located c₁ c₂ ∧ c₂.Covers [['(']] c₃ ∧
        LocatedBehind [] args c₃ c₄ ∧ c₄.Stops [[')']] c'

/-- The same of arguments, the first behind the tokens `lead` and the others behind commas. -/
def LocatedBehind (lead : List (List Char)) : List Phrase → Cursor → Cursor → Prop
  | [], c, c' => c.Covers [] c'
  | p :: ps, c, c' => ∃ c₁ c₂,
      c.Covers lead c₁ ∧ p.Located c₁ c₂ ∧ LocatedBehind [[',']] ps c₂ c'

end

/-- The tokens of arguments, the first behind the tokens `lead`. -/
def tokensBehind (lead : List (List Char)) : List Phrase → List (List Char)
  | [] => []
  | p :: ps => lead ++ (p.tokens ++ tokensBehind [[',']] ps)

theorem tokensBehind_comma (ps : List Phrase) : tokensBehind [[',']] ps = moreTokens ps := by
  induction ps with
  | nil => rfl
  | cons p ps ih => simp [tokensBehind, moreTokens, ih]

theorem tokensBehind_nil (ps : List Phrase) : tokensBehind [] ps = argumentTokens ps := by
  cases ps with
  | nil => rfl
  | cons p ps => simp [tokensBehind, argumentTokens, tokensBehind_comma]

variable {p q : Phrase} {c c' c₁ c₂ : Cursor} {lead : List (List Char)}

theorem tokens_ne_nil (p : Phrase) : p.tokens ≠ [] := by
  cases p <;> simp [tokens]

theorem Located.span_eq (h : p.Located c c') : p.span = ⟨c.position, c'.position⟩ := by
  induction p generalizing c c' with
  | binary op left right ihl ihr =>
    obtain ⟨c₁, c₂, hleft, -, hright⟩ := h
    rw [Phrase.span, ihl hleft, ihr hright]
    rfl
  | group span inner => exact h.1
  | name lexeme => exact Lexeme.Located.span h
  | literal kind lexeme => exact Lexeme.Located.span h
  | method span callee args => exact h.1
  | capability span callee args => exact h.1

theorem covers_behind {args : List Phrase}
    (hargs : ∀ a ∈ args, ∀ {c c'}, a.Located c c' → c.Covers a.tokens c')
    (h : LocatedBehind lead args c c') : c.Covers (tokensBehind lead args) c' := by
  induction args generalizing lead c with
  | nil => exact h
  | cons p ps ih =>
    obtain ⟨hp, hps⟩ := List.forall_mem_cons.mp hargs
    obtain ⟨c₁, c₂, hlead, hfirst, hmore⟩ := h
    exact hlead.trans ((hp hfirst).trans (ih hps hmore))

/-- A located phrase is made of its tokens from its first character to its last one. -/
theorem Located.reaches (h : p.Located c c') : c.Starts p.tokens c' ∧ c.Stops p.tokens c' := by
  induction p generalizing c c' with
  | binary op left right ihl ihr =>
    obtain ⟨c₁, c₂, hleft, hop, hright⟩ := h
    obtain ⟨token, more, htokens⟩ := List.exists_cons_of_ne_nil left.tokens_ne_nil
    have hstarts := (ihl hleft).1
    have hbehind := hop.trans (ihr hright).1.covers
    refine ⟨?_, hstarts.covers.stops (hop.stops (ihr hright).2 right.tokens_ne_nil) (by simp)⟩
    rw [htokens] at hstarts
    rw [tokens, htokens]
    exact hstarts.trans hbehind
  | group span inner ih =>
    obtain ⟨-, c₁, c₂, hopen, hinner, hclose⟩ := h
    have hbehind := (ih hinner).1.covers.stops hclose (by simp)
    exact ⟨hopen.trans hbehind.covers, hopen.covers.stops hbehind (by simp)⟩
  | name lexeme => exact ⟨(Lexeme.Located.crosses h).starts, (Lexeme.Located.crosses h).stops⟩
  | literal kind lexeme => exact ⟨(Lexeme.Located.crosses h).starts, (Lexeme.Located.crosses h).stops⟩
  | method span callee args ih =>
    obtain ⟨-, c₁, c₂, c₃, hcallee, hopen, hargs, hclose⟩ := h
    have hall := covers_behind (fun a ha {_ _} hlocated => (ih a ha hlocated).1.covers) hargs
    rw [tokensBehind_nil] at hall
    have hstarts := hcallee.crosses.starts
    have hbehind := hopen.stops (hall.stops hclose (by simp)) (by simp)
    exact ⟨hstarts.trans hbehind.covers, hstarts.covers.stops hbehind (by simp)⟩
  | capability span callee args ih =>
    obtain ⟨-, c₁, c₂, c₃, c₄, hat, hcallee, hopen, hargs, hclose⟩ := h
    have hall := covers_behind (fun a ha {_ _} hlocated => (ih a ha hlocated).1.covers) hargs
    rw [tokensBehind_nil] at hall
    have hcovers := hcallee.crosses.starts.covers.trans hopen
    have hbehind := hcovers.stops (hall.stops hclose (by simp)) (by simp)
    exact ⟨hat.trans hbehind.covers, hat.covers.stops hbehind (by simp)⟩

/-! ## Parts at their places -/

/-- A part stands at a place of what is between the cursors: the tokens before it are the same whatever
stands at the place, and so are those behind it. -/
def StandsAt (tokensWith : Phrase → List (List Char)) (p : Phrase) (c c' : Cursor) : Prop :=
  ∃ pre post c₁ c₂, (∀ q, tokensWith q = pre ++ (q.tokens ++ post)) ∧ c.Covers pre c₁ ∧
    p.Located c₁ c₂ ∧ c₂.Covers post c'

variable {tokensWith tokensWith' : Phrase → List (List Char)} {front back : List (List Char)}

theorem Located.standsAt (h : p.Located c c') : StandsAt tokens p c c' :=
  ⟨[], [], c, c', by simp, .refl c, h, .refl c'⟩

theorem StandsAt.around (h : StandsAt tokensWith p c₁ c₂) (hfront : c.Covers front c₁)
    (hback : c₂.Covers back c')
    (htokens : ∀ q, tokensWith' q = front ++ (tokensWith q ++ back)) :
    StandsAt tokensWith' p c c' := by
  obtain ⟨pre, post, c₃, c₄, hsame, hpre, hp, hpost⟩ := h
  refine ⟨front ++ pre, post ++ back, c₃, c₄, fun q => ?_, hfront.trans hpre, hp, hpost.trans hback⟩
  rw [htokens, hsame]
  simp

theorem standsAt_behind {before after : List Phrase}
    (h : LocatedBehind lead (before ++ p :: after) c c') :
    StandsAt (fun q => tokensBehind lead (before ++ q :: after)) p c c' := by
  induction before generalizing lead c with
  | nil =>
    obtain ⟨c₁, c₂, hlead, hp, hmore⟩ := h
    have hafter := covers_behind (fun a _ {_ _} hlocated => (Located.reaches hlocated).1.covers) hmore
    exact hp.standsAt.around hlead hafter fun q => rfl
  | cons first before ih =>
    obtain ⟨c₁, c₂, hlead, hfirst, hmore⟩ := h
    refine (ih hmore).around (hlead.trans hfirst.reaches.1.covers) (.refl c') fun q => ?_
    simp [tokensBehind]

theorem standsAt_frame {frame : Frame} (h : (frame.fill p).Located c c') :
    StandsAt (fun q => (frame.fill q).tokens) p c c' := by
  cases frame with
  | left op other =>
    obtain ⟨c₁, c₂, hp, hop, hother⟩ := h
    exact hp.standsAt.around (.refl c) (hop.trans hother.reaches.1.covers) fun q => rfl
  | right op other =>
    obtain ⟨c₁, c₂, hother, hop, hp⟩ := h
    refine hp.standsAt.around (hother.reaches.1.covers.trans hop) (.refl c') fun q => ?_
    simp [Frame.fill, tokens]
  | inner span =>
    obtain ⟨-, c₁, c₂, hopen, hp, hclose⟩ := h
    exact hp.standsAt.around hopen.covers hclose.covers fun q => rfl
  | method span callee before after =>
    obtain ⟨-, c₁, c₂, c₃, hcallee, hopen, hargs, hclose⟩ := h
    refine (standsAt_behind hargs).around (hcallee.crosses.starts.covers.trans hopen) hclose.covers
      fun q => ?_
    simp [Frame.fill, tokens, tokensBehind_nil]
  | capability span callee before after =>
    obtain ⟨-, c₁, c₂, c₃, c₄, hat, hcallee, hopen, hargs, hclose⟩ := h
    refine (standsAt_behind hargs).around
      (hat.covers.trans (hcallee.crosses.starts.covers.trans hopen)) hclose.covers fun q => ?_
    simp [Frame.fill, tokens, tokensBehind_nil]

theorem standsAt_fill {place : List Frame} (h : (fill place p).Located c c') :
    StandsAt (fun q => (fill place q).tokens) p c c' := by
  induction place generalizing c c' with
  | nil => exact h.standsAt
  | cons frame place ih =>
    obtain ⟨pre, post, c₁, c₂, hframe, hpre, hinner, hpost⟩ := standsAt_frame h
    exact (ih hinner).around hpre hpost fun q => hframe (fill place q)

/-! ## Chains -/

theorem Located.extend {op : BinaryOp} {operand : Phrase} (h : p.Located c c₁)
    (hop : c₁.Covers [op.symbol.toList] c₂) (hoperand : operand.Located c₂ c') :
    (p.extend op operand).Located c c' := by
  induction p generalizing c with
  | binary last left right ihl ihr =>
    simp only [Phrase.extend]
    split
    · obtain ⟨c₃, c₄, hleft, hlast, hright⟩ := h
      exact ⟨c₃, c₄, hleft, hlast, ihr hright⟩
    · exact ⟨c₁, c₂, h, hop, hoperand⟩
  | _ => exact ⟨c₁, c₂, h, hop, hoperand⟩

/-- Parts one behind the other, each behind tokens of its own, and blanks at the end. -/
def Strung {α : Type} (lead : α → List (List Char)) (part : α → Phrase) :
    List α → Cursor → Cursor → Prop
  | [], c, c' => c.Covers [] c'
  | a :: as, c, c' => ∃ c₁ c₂,
      c.Covers (lead a) c₁ ∧ (part a).Located c₁ c₂ ∧ Strung lead part as c₂ c'

theorem Strung.behind {α : Type} {lead : α → List (List Char)} {part : α → Phrase} {as : List α}
    (h : Strung lead part as c₁ c') (hblanks : c.Covers [] c₁) : Strung lead part as c c' := by
  cases as with
  | nil => exact hblanks.trans h
  | cons a as =>
    obtain ⟨c₂, c₃, hlead, hpart, hmore⟩ := h
    exact ⟨c₂, c₃, hblanks.trans hlead, hpart, hmore⟩

theorem Strung.locatedBehind {ps : List Phrase} (h : Strung (fun _ => [[',']]) id ps c c') :
    LocatedBehind [[',']] ps c c' := by
  induction ps generalizing c with
  | nil => exact h
  | cons p ps ih =>
    obtain ⟨c₁, c₂, hlead, hp, hmore⟩ := h
    exact ⟨c₁, c₂, hlead, hp, ih hmore⟩

theorem Located.ofChain {rest : List (BinaryOp × Phrase)} (h : p.Located c c₁)
    (hrest : Strung (fun item => [item.1.symbol.toList]) (·.2) rest c₁ c') :
    ∃ c₂, (ofChain p rest).Located c c₂ ∧ c₂.Covers [] c' := by
  induction rest generalizing p c₁ with
  | nil => exact ⟨c₁, h, hrest⟩
  | cons item rest ih =>
    obtain ⟨c₂, c₃, hop, hoperand, hmore⟩ := hrest
    exact ih (h.extend hop hoperand) hmore

end Phrase

/-! ## What matching finds is located -/

namespace Grammar

open Matcher Phrase

variable {nested : Matcher Phrase} {c c' : Cursor} {p : Phrase}

theorem lexeme_token {scan : List Char → Option (List Char)} {lexeme : Lexeme}
    (hscan : LeavesEnd scan) (h : Finds (token scan) c lexeme c') : lexeme.Located c c' := by
  obtain ⟨far, h⟩ := h
  simp only [token] at h
  split at h
  · next rest hrest =>
    obtain ⟨text, heq⟩ := hscan c.rest rest hrest
    cases h
    have htext : (c.lexeme (c.advance rest)).text = text := by
      simp [Cursor.lexeme, Cursor.advance, heq]
    exact ⟨htext ▸ Cursor.crosses_advance heq, rfl⟩
  · cases h

theorem crosses_symbol {symbol : String} {lexeme : Lexeme}
    (h : Finds (Matcher.symbol symbol) c lexeme c') : c.Crosses symbol.toList c' := by
  have hcrosses := (lexeme_token (leavesEnd_word _) h).crosses
  have htext : lexeme.text = symbol.toList :=
    List.append_cancel_right (hcrosses.rest.symm.trans (finds_symbol h))
  rwa [htext] at hcrosses

theorem covers_skip {u : Unit} (h : Finds skip c u c') : c.Covers [] c' := by
  obtain ⟨far, h⟩ := h
  cases h
  exact ⟨_, c.crosses_skip, by simpa using Written.done List.all_takeWhile []⟩

theorem lexeme_name {lexeme : Lexeme} (h : Finds name c lexeme c') : lexeme.Located c c' :=
  lexeme_token leavesEnd_name (finds_rule h)

/-- What the matcher finds is located, with blanks behind it at most. -/
def Locates (m : Matcher Phrase) : Prop :=
  ∀ c p c', Finds m c p c' → ∃ c₁, p.Located c c₁ ∧ c₁.Covers [] c'

section Sequences

variable {α : Type} {m : Matcher α} {lead : α → List (List Char)} {part : α → Phrase} {as : List α}

theorem strung_repeated (hm : ∀ {c a c'}, Finds m c a c' → ∃ c₁ c₂, c.Covers (lead a) c₁ ∧
      (part a).Located c₁ c₂ ∧ c₂.Covers [] c') {bound : Nat}
    (h : Finds (repeated m bound) c as c') : Strung lead part as c c' := by
  induction bound generalizing c as with
  | zero =>
    obtain ⟨rfl, rfl⟩ := finds_pure h
    exact .refl _
  | succ bound ih =>
    rcases finds_orElse h with hstep | ⟨-, hstop⟩
    · obtain ⟨_, c₁, hblank, hstep⟩ := finds_bind hstep
      obtain ⟨first, c₂, hfirst, hstep⟩ := finds_bind hstep
      obtain ⟨others, c₃, hothers, hpure⟩ := finds_bind hstep
      obtain ⟨rfl, rfl⟩ := finds_pure hpure
      obtain ⟨c₄, c₅, hlead, hpart, hblank'⟩ := hm hfirst
      exact ⟨c₄, c₅, (covers_skip hblank).trans hlead, hpart, (ih hothers).behind hblank'⟩
    · obtain ⟨rfl, rfl⟩ := finds_pure hstop
      exact .refl _

theorem strung_followers (hm : ∀ {c a c'}, Finds m c a c' → ∃ c₁ c₂, c.Covers (lead a) c₁ ∧
      (part a).Located c₁ c₂ ∧ c₂.Covers [] c')
    (h : Finds (followers m) c as c') : Strung lead part as c c' := by
  obtain ⟨_, c₁, hblank, hrest⟩ := finds_bind h
  refine Strung.behind ?_ (covers_skip hblank)
  rcases finds_orElse hrest with hstep | ⟨-, hstop⟩
  · obtain ⟨first, c₂, hfirst, hstep⟩ := finds_bind hstep
    obtain ⟨others, c₃, ⟨far, hothers⟩, hpure⟩ := finds_bind hstep
    obtain ⟨rfl, rfl⟩ := finds_pure hpure
    obtain ⟨c₄, c₅, hlead, hpart, hblank'⟩ := hm hfirst
    exact ⟨c₄, c₅, hlead, hpart, (strung_repeated hm ⟨far, hothers⟩).behind hblank'⟩
  · obtain ⟨rfl, rfl⟩ := finds_pure hstop
    exact .refl _

end Sequences

theorem located_grouped (hnested : Locates nested) (h : Finds (grouped nested) c p c') :
    p.Located c c' := by
  obtain ⟨start, c₀, hstart, h⟩ := finds_bind (finds_rule h)
  obtain ⟨_, c₁, hopen, h⟩ := finds_bind h
  obtain ⟨_, c₂, hblank, h⟩ := finds_bind h
  obtain ⟨inner, c₃, hinner, h⟩ := finds_bind h
  obtain ⟨_, c₄, hblank', h⟩ := finds_bind h
  obtain ⟨_, c₅, hclose, h⟩ := finds_bind h
  obtain ⟨stop, c₆, hstop, h⟩ := finds_bind h
  obtain ⟨rfl, rfl⟩ := finds_pure h
  obtain rfl := finds_position_eq hstart
  obtain rfl := finds_position_eq hstop
  obtain rfl := finds_position hstart
  obtain rfl := finds_position hstop
  obtain ⟨c₆, hlocated, hblank''⟩ := hnested c₂ inner c₃ hinner
  have hend := (hblank''.trans (covers_skip hblank')).stops (crosses_symbol hclose).stops (by simp)
  exact ⟨rfl, c₂, c₆, (crosses_symbol hopen).starts.trans (covers_skip hblank), hlocated, hend⟩

theorem locatedBehind_arguments (hnested : Locates nested) {args : List Phrase}
    (h : Finds (arguments nested) c args c') : LocatedBehind [] args c c' := by
  obtain ⟨first, c₁, hfirst, h⟩ := finds_bind h
  obtain ⟨others, c₂, hothers, h⟩ := finds_bind h
  obtain ⟨rfl, rfl⟩ := finds_pure h
  obtain ⟨c₃, hlocated, hblank⟩ := hnested c first c₁ hfirst
  have hmore : ∀ {c p c'}, Finds (do let _ ← symbol ","; skip; nested) c p c' →
      ∃ c₁ c₂, c.Covers [[',']] c₁ ∧ p.Located c₁ c₂ ∧ c₂.Covers [] c' := by
    intro c p c' h
    obtain ⟨_, c₁, hcomma, h⟩ := finds_bind h
    obtain ⟨_, c₂, hblank, h⟩ := finds_bind h
    obtain ⟨c₃, hlocated, hblank'⟩ := hnested c₂ p c' h
    exact ⟨c₂, c₃, (crosses_symbol hcomma).starts.covers.trans (covers_skip hblank), hlocated,
      hblank'⟩
  have hstrung : Strung (fun _ => [[',']]) id others c₁ c' := strung_followers hmore hothers
  exact ⟨c, c₃, .refl c, hlocated, (hstrung.behind hblank).locatedBehind⟩

/-- Arguments with their parentheses. -/
theorem locatedBehind_argumentList (hnested : Locates nested) {args : List Phrase}
    (h : Finds (argumentList nested) c args c') : ∃ c₁ c₂,
      c.Covers [['(']] c₁ ∧ LocatedBehind [] args c₁ c₂ ∧ c₂.Stops [[')']] c' := by
  obtain ⟨_, c₁, hopen, h⟩ := finds_bind h
  obtain ⟨_, c₂, hblank, h⟩ := finds_bind h
  obtain ⟨found?, c₃, hargs, h⟩ := finds_bind h
  obtain ⟨_, c₄, hblank', h⟩ := finds_bind h
  obtain ⟨_, c₅, hclose, h⟩ := finds_bind h
  obtain ⟨rfl, rfl⟩ := finds_pure h
  refine ⟨c₂, c₃, (crosses_symbol hopen).starts.covers.trans (covers_skip hblank), ?_,
    (covers_skip hblank').stops (crosses_symbol hclose).stops (by simp)⟩
  rcases finds_orElse hargs with hsome | ⟨-, hnone⟩
  · obtain ⟨args, hfound, rfl⟩ := finds_map hsome
    exact locatedBehind_arguments hnested hfound
  · obtain ⟨rfl, rfl⟩ := finds_pure hnone
    exact .refl _

theorem located_methodCall (hnested : Locates nested) (h : Finds (methodCall nested) c p c') :
    p.Located c c' := by
  obtain ⟨start, c₀, hstart, h⟩ := finds_bind (finds_rule h)
  obtain ⟨callee, c₁, hname, h⟩ := finds_bind h
  obtain ⟨_, c₂, hblank, h⟩ := finds_bind h
  obtain ⟨args, c₃, hargs, h⟩ := finds_bind h
  obtain ⟨stop, c₄, hstop, h⟩ := finds_bind h
  obtain ⟨rfl, rfl⟩ := finds_pure h
  obtain rfl := finds_position_eq hstart
  obtain rfl := finds_position_eq hstop
  obtain rfl := finds_position hstart
  obtain rfl := finds_position hstop
  obtain ⟨c₄, c₅, hopen, hall, hclose⟩ := locatedBehind_argumentList hnested hargs
  exact ⟨rfl, c₁, c₄, c₅, lexeme_name hname, (covers_skip hblank).trans hopen, hall, hclose⟩

theorem located_capabilityCall (hnested : Locates nested)
    (h : Finds (capabilityCall nested) c p c') : p.Located c c' := by
  obtain ⟨start, c₀, hstart, h⟩ := finds_bind (finds_rule h)
  obtain ⟨_, c₁, hat, h⟩ := finds_bind h
  obtain ⟨_, c₂, hblank, h⟩ := finds_bind h
  obtain ⟨callee, c₃, hname, h⟩ := finds_bind h
  obtain ⟨_, c₄, hblank', h⟩ := finds_bind h
  obtain ⟨args, c₅, hargs, h⟩ := finds_bind h
  obtain ⟨stop, c₆, hstop, h⟩ := finds_bind h
  obtain ⟨rfl, rfl⟩ := finds_pure h
  obtain rfl := finds_position_eq hstart
  obtain rfl := finds_position_eq hstop
  obtain rfl := finds_position hstart
  obtain rfl := finds_position hstop
  obtain ⟨c₆, c₇, hopen, hall, hclose⟩ := locatedBehind_argumentList hnested hargs
  exact ⟨rfl, c₂, c₃, c₆, c₇, (crosses_symbol hat).starts.trans (covers_skip hblank),
    lexeme_name hname, (covers_skip hblank').trans hopen, hall, hclose⟩

theorem located_primary (hnested : Locates nested) (h : Finds (primary nested) c p c') :
    p.Located c c' := by
  obtain ⟨m, hm, h⟩ := finds_choice h
  simp only [List.mem_cons, List.not_mem_nil, or_false] at hm
  rcases hm with rfl | rfl | rfl | rfl | rfl
  · exact located_grouped hnested h
  · exact located_capabilityCall hnested h
  · exact located_methodCall hnested h
  · obtain ⟨m, hm, h⟩ := finds_choice h
    obtain ⟨kind, -, rfl⟩ := List.mem_map.mp hm
    obtain ⟨lexeme, htoken, rfl⟩ := finds_map (finds_rule h)
    exact lexeme_token (leavesEnd_literal kind) htoken
  · obtain ⟨lexeme, hname, rfl⟩ := finds_map h
    exact lexeme_name hname

theorem locates_expressionOver (hnested : Locates nested) : Locates (expressionOver nested) := by
  intro c p c' h
  obtain ⟨first, c₁, hfirst, h⟩ := finds_bind (finds_rule h)
  obtain ⟨others, c₂, hothers, h⟩ := finds_bind h
  obtain ⟨rfl, rfl⟩ := finds_pure h
  have hmore : ∀ {c item c'},
      Finds (do let op ← operator; skip; let operand ← primary nested; return (op, operand))
        c item c' → ∃ c₁ c₂, c.Covers [item.1.symbol.toList] c₁ ∧ item.2.Located c₁ c₂ ∧
          c₂.Covers [] c' := by
    intro c item c' h
    obtain ⟨op, c₁, hop, h⟩ := finds_bind h
    obtain ⟨_, c₂, hblank, h⟩ := finds_bind h
    obtain ⟨operand, c₃, hoperand, h⟩ := finds_bind h
    obtain ⟨rfl, rfl⟩ := finds_pure h
    obtain ⟨lexeme, hsymbol⟩ := finds_operator hop
    exact ⟨c₂, c', (crosses_symbol hsymbol).starts.covers.trans (covers_skip hblank),
      located_primary hnested hoperand, .refl c'⟩
  exact (located_primary hnested hfirst).ofChain (strung_followers hmore hothers)

theorem locates_expression (depth : Nat) : Locates (expression depth) := by
  induction depth with
  | zero =>
    rintro c p c' ⟨far, h⟩
    cases h
  | succ depth ih => exact locates_expressionOver ih

/-- The phrase of a whole text is located in it, with blanks around it at most. -/
theorem located_phrase {source : List Char} (h : phrase source = .ok p) :
    ∃ c c' stop, Cursor.Covers ⟨source, 0⟩ [] c ∧ p.Located c c' ∧ c'.Covers [] stop ∧
      stop.rest = [] := by
  obtain ⟨stop, hmain⟩ := finds_phrase h
  obtain ⟨_, c₁, hblank, hmain⟩ := finds_bind (finds_rule hmain)
  obtain ⟨q, c₂, hexpr, hmain⟩ := finds_bind hmain
  obtain ⟨_, c₃, hblank', hmain⟩ := finds_bind hmain
  obtain ⟨_, c₄, hend, hmain⟩ := finds_bind hmain
  obtain ⟨rfl, rfl⟩ := finds_pure hmain
  obtain ⟨c', hlocated, hblank''⟩ := locates_expression _ c₁ p c₂ hexpr
  refine ⟨c₁, c', c₃, covers_skip hblank, hlocated, hblank''.trans (covers_skip hblank'), ?_⟩
  obtain ⟨far, hend⟩ := finds_rule hend
  simp only at hend
  split at hend
  · next hempty => simpa using hempty
  · cases hend

/-- A part of the phrase that a source spells takes up a span: the source is the text of the part in
the span, from the first character of its first token to the last one of its last token, with the tokens
that come before the place in front of it and those that come behind the place after it. -/
def TakesUp (source : List Char) (place : List Frame) (part : Phrase) (span : Span) : Prop :=
  ∃ pre post front text back, (∀ q, (fill place q).tokens = pre ++ (q.tokens ++ post)) ∧
    source = front ++ (text ++ back) ∧ span = ⟨byteLength front, byteLength (front ++ text)⟩ ∧
    Written pre front [] ∧ Tight part.tokens text ∧ Written post back []

/-- Between which cursors a part stands at its place. -/
theorem located_part {source : List Char} {place : List Frame}
    (h : phrase source = .ok (fill place p)) : ∃ c c', c.On source ∧ p.Located c c' ∧
      TakesUp source place p ⟨c.position, c'.position⟩ := by
  obtain ⟨c₁, c₂, stop, hbefore, hlocated, hbehind, hstop⟩ := located_phrase h
  have hplace : StandsAt (fun q => (fill place q).tokens) p _ _ :=
    (standsAt_fill hlocated).around hbefore hbehind fun q => by simp
  obtain ⟨pre, post, c, c', htokens, ⟨front, hfront, hpre⟩, hp, ⟨back, hback, hpost⟩⟩ := hplace
  obtain ⟨text, htext, htight⟩ := hp.reaches.1.tight hp.reaches.2
  have hrest : c'.rest = back := by rw [hback.rest, hstop, List.append_nil]
  refine ⟨c, c', ⟨front, hfront⟩, hp, pre, post, front, text, back, htokens, ?_, ?_, hpre, htight,
    hpost⟩
  · rw [← hrest, ← htext.rest]
    exact hfront.rest
  · rw [byteLength_append, htext.position, hfront.position, Nat.zero_add]

/-- Every part of a phrase takes up the span that is noted with it. -/
theorem takesUp_part {source : List Char} {place : List Frame}
    (h : phrase source = .ok (fill place p)) : TakesUp source place p p.span := by
  obtain ⟨c, c', -, hlocated, htakes⟩ := located_part h
  rwa [hlocated.span_eq]

end Grammar

end GuardCode
