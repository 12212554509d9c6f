import GuardCode.Proofs.Grammar.Language

/-! A text spells one phrase at most: wherever the tokens of a regular phrase stand in order, with
whatever blanks between them, that phrase is found. -/
namespace GuardCode

/-! ## Written tokens -/

namespace Written

variable {token : List Char} {tokens : List (List Char)} {cs rest : List Char}

theorem trimmed_eq (h : Written [] cs rest) : trimmed cs = trimmed rest := by
  cases h with
  | done hblanks => exact List.dropWhile_append_of_pos (by simpa using hblanks)

theorem head (h : Written (token :: tokens) cs rest) (hsolid : Grammar.Solid token) :
    ∃ mid, trimmed cs = token ++ mid ∧ Written tokens mid rest := by
  cases h with
  | @token blanks _ mid _ _ hblanks h =>
    refine ⟨mid, ?_, h⟩
    rw [trimmed, List.dropWhile_append_of_pos (by simpa using hblanks)]
    exact hsolid.append mid

theorem last (h : Written [token] cs rest) (hsolid : Grammar.Solid token) :
    ∃ mid, trimmed cs = token ++ mid ∧ trimmed mid = trimmed rest := by
  obtain ⟨mid, heq, hmid⟩ := h.head hsolid
  exact ⟨mid, heq, hmid.trimmed_eq⟩

theorem shortens (h : Written (token :: tokens) cs rest) (hsolid : Grammar.Solid token) :
    rest.length < (trimmed cs).length := by
  obtain ⟨mid, heq, hmid⟩ := h.head hsolid
  obtain ⟨c, text, rfl, -⟩ := hsolid
  have hle := hmid.suffix.length_le
  rw [heq, List.cons_append, List.length_cons, List.length_append]
  omega

end Written

namespace Matcher

variable {α β γ : Type} {m : Matcher α} {cs rest : List Char}

theorem Takes.bind_yields {text mid : List Char} {found : α → Prop} {then? : β → Prop}
    {next : α → Matcher β} (h : Takes m text mid found)
    (hnext : ∀ a, found a → Yields (next a) mid rest then?) :
    Yields (m >>= next) (text ++ mid) rest then? := by
  intro position far
  obtain ⟨a, after, ha, hrun⟩ := h position
  rw [bind_of_some (hrun far)]
  exact hnext a ha after _

theorem Yields.symbol_bind {symbol : String} {c : Char} {then? : β → Prop} {next : Matcher β}
    (hsymbol : symbol.toList = [c]) (h : Yields next cs rest then?) :
    Yields (Matcher.symbol symbol >>= fun _ => next) (c :: cs) rest then? := by
  rw [← List.singleton_append, ← hsymbol]
  exact (takes_token (Token.word_append symbol.toList cs)).bind_yields fun _ _ => h

theorem Yields.position_bind {then? : β → Prop} {next : Nat → Matcher β}
    (h : ∀ n, Yields (next n) cs rest then?) : Yields (position >>= next) cs rest then? :=
  fun position => h position position

/-! ## Repetition -/

section Repetition

variable {body : β → List (List Char)} {view : α → γ} {image : β → γ}
  {follows : List Char → Prop} {items : List β}

/-- What an item needs to be found where others or the rest follow. -/
structure Recurs (m : Matcher α) (body : β → List (List Char)) (view : α → γ) (image : β → γ)
    (follows : List Char → Prop) (item : β) : Prop where
  opens : ∀ cs rest, Written (body item) cs rest → follows (trimmed cs)
  shortens : ∀ cs rest, Written (body item) cs rest → rest.length < (trimmed cs).length
  yields : ∀ cs rest, Written (body item) cs rest → follows (trimmed rest) →
    Yields m (trimmed cs) rest fun a => view a = image item

theorem follows_items (h : ∀ item ∈ items, Recurs m body view image follows item)
    (hwritten : Written (items.flatMap body) cs rest) (hrest : follows (trimmed rest)) :
    follows (trimmed cs) := by
  cases items with
  | nil =>
    rw [hwritten.trimmed_eq]
    exact hrest
  | cons item items =>
    rw [List.flatMap_cons] at hwritten
    obtain ⟨mid, hitem, -⟩ := hwritten.split
    exact (h item List.mem_cons_self).opens cs mid hitem

theorem yields_repeated (h : ∀ item ∈ items, Recurs m body view image follows item)
    (hwritten : Written (items.flatMap body) cs rest) (hrest : follows (trimmed rest))
    (hstop : Refuses m (trimmed rest)) {start : List Char} {attempts : Nat}
    (hstart : trimmed start = trimmed cs) (hattempts : (trimmed cs).length < attempts) :
    Yields (repeated m attempts) start rest fun as => as.map view = items.map image := by
  obtain ⟨attempts, rfl⟩ :=
    Nat.exists_eq_succ_of_ne_zero (Nat.ne_of_gt (Nat.zero_lt_of_lt hattempts))
  induction items generalizing cs start attempts with
  | nil =>
    have heq := hstart.trans hwritten.trimmed_eq
    have hrefuses : Refuses m (start.dropWhile Token.isSpace) := by
      show Refuses m (trimmed start)
      rwa [heq]
    refine hrefuses.bind.skip_bind.orElse_yields ((yields_pure ?_ start).trans heq)
    rfl
  | cons item items ih =>
    rw [List.flatMap_cons] at hwritten
    obtain ⟨mid, hitem, hothers⟩ := hwritten.split
    obtain ⟨hrecurs, hrecursAll⟩ := List.forall_mem_cons.mp h
    have hshort := hrecurs.shortens cs mid hitem
    have hlength := length_trimmed_le mid
    refine (Yields.skip_bind ?_).orElse
    rw [hstart]
    refine (hrecurs.yields cs mid hitem (follows_items hrecursAll hothers hrest)).bind ?_
    intro a ha start' hstart'
    obtain ⟨attempts, rfl⟩ : ∃ n, attempts = n + 1 := ⟨attempts - 1, by omega⟩
    refine (ih hrecursAll hothers hstart' attempts (by omega)).map fun as has => ?_
    rw [List.map_cons, List.map_cons, ha, has]

theorem yields_followers (h : ∀ item ∈ items, Recurs m body view image follows item)
    (hwritten : Written (items.flatMap body) cs rest) (hrest : follows (trimmed rest))
    (hstop : Refuses m (trimmed rest)) {start : List Char} (hstart : trimmed start = trimmed cs) :
    Yields (followers m) start rest fun as => as.map view = items.map image := by
  refine Yields.skip_bind ?_
  rw [hstart]
  cases items with
  | nil =>
    rw [hwritten.trimmed_eq]
    refine hstop.bind.orElse_yields ((yields_pure ?_ _).trans (trimmed_trimmed rest))
    rfl
  | cons item items =>
    rw [List.flatMap_cons] at hwritten
    obtain ⟨mid, hitem, hothers⟩ := hwritten.split
    obtain ⟨hrecurs, hrecursAll⟩ := List.forall_mem_cons.mp h
    refine Yields.orElse ?_
    refine (hrecurs.yields cs mid hitem (follows_items hrecursAll hothers hrest)).bind ?_
    intro a ha start' hstart'
    have hlength := length_trimmed_le start'
    rw [hstart'] at hlength
    have hmore : Yields (fun c far => repeated m (c.rest.length + 1) c far) start' rest
        fun as => as.map view = items.map image :=
      yields_repeated hrecursAll hothers hrest hstop hstart' (Nat.lt_succ_of_le hlength)
    refine hmore.map fun as has => ?_
    rw [List.map_cons, List.map_cons, ha, has]

end Repetition

end Matcher

/-! ## The rules -/

namespace Grammar

open Matcher

variable {nested : Matcher Phrase} {p : Phrase} {cs rest : List Char}

/-- Wherever the tokens of a phrase are written and something allowed follows, the matcher finds the
phrase. -/
def Recovers (m : Matcher Phrase) (follows : List Char → Prop) (p : Phrase) : Prop :=
  ∀ cs rest, Written p.tokens cs rest → follows (trimmed rest) →
    Yields m (trimmed cs) rest fun q => q.bare = p.bare

theorem solid_singleton {c : Char} (h : Token.isSpace c = false) : Solid [c] := ⟨c, [], rfl, h⟩

theorem solid_symbol (op : BinaryOp) : Solid op.symbol.toList := by
  obtain ⟨c, w, hsymbol, hc, -⟩ := symbol_head op
  exact ⟨c, w, hsymbol, hc⟩

theorem solid_of_isToken {kind : LiteralKind} {text : List Char} (h : IsToken kind text) :
    Solid text := by
  have hreads := Pattern.reads_literal.mpr ⟨kind, h⟩
  obtain ⟨c, tail, rfl, hc⟩ := Pattern.begins_literal text [] hreads
  exact ⟨c, _, rfl, hc.solid⟩

/-- What a closing parenthesis leaves. -/
theorem close_of_written {mid : List Char} (h : Written [[')']] mid rest) :
    ∃ after, trimmed mid = ')' :: after ∧ trimmed after = trimmed rest :=
  h.last (solid_singleton (by decide))

theorem recovers_grouped (span : Span) (h : Recovers nested Stops p) :
    Recovers (grouped nested) (fun _ => True) (.group span p) := by
  intro cs rest hwritten _
  obtain ⟨mid, hopen, hmid⟩ := hwritten.head (solid_singleton (by decide))
  obtain ⟨after, hinner, hclose⟩ := hmid.split
  obtain ⟨stop, hafter, hstop⟩ := close_of_written hclose
  have hstops : Stops (trimmed after) := by
    rw [hafter]
    exact stops_close stop
  rw [hopen]
  refine (Yields.position_bind fun _ => Yields.symbol_bind rfl (Yields.skip_bind ?_)).rule
  refine (h mid after hinner hstops).bind fun q hq start hstart => Yields.skip_bind ?_
  rw [hstart, hafter]
  refine Yields.symbol_bind rfl (Yields.position_bind fun _ => (yields_pure ?_ stop).trans hstop)
  simp [Phrase.bare, hq]

/-! Arguments. -/

theorem recurs_argument (h : Recovers nested Stops p) :
    Recurs (do let _ ← symbol ","; skip; nested) Phrase.behindComma Phrase.bare Phrase.bare Stops
      p where
  opens := fun cs rest hwritten => by
    obtain ⟨mid, hcomma, -⟩ := hwritten.head (solid_singleton (by decide))
    rw [hcomma]
    exact stops_comma mid
  shortens := fun cs rest hwritten => hwritten.shortens (solid_singleton (by decide))
  yields := fun cs rest hwritten hstops => by
    obtain ⟨mid, hcomma, hmid⟩ := hwritten.head (solid_singleton (by decide))
    rw [hcomma]
    exact Yields.symbol_bind rfl (Yields.skip_bind (h mid rest hmid hstops))

theorem yields_arguments {ps : List Phrase} (h : ∀ a ∈ p :: ps, Recovers nested Stops a)
    (hwritten : Written (Phrase.argumentTokens (p :: ps)) cs rest)
    (hclose : (trimmed rest).head? = some ')') :
    Yields (arguments nested) (trimmed cs) rest
      fun qs => qs.map Phrase.bare = (p :: ps).map Phrase.bare := by
  rw [Phrase.argumentTokens, Phrase.moreTokens_eq] at hwritten
  obtain ⟨mid, hfirst, hmore⟩ := hwritten.split
  obtain ⟨hp, hps⟩ := List.forall_mem_cons.mp h
  have hrecurs : ∀ a ∈ ps, Recurs (do let _ ← symbol ","; skip; nested) Phrase.behindComma
      Phrase.bare Phrase.bare Stops a := fun a ha => recurs_argument (hps a ha)
  have hstops : Stops (trimmed rest) := by
    intro c hc
    cases hclose.symm.trans hc
    exact .inl rfl
  have hrefuses : Refuses (do let _ ← symbol ","; skip; nested) (trimmed rest) :=
    (refuses_symbol (c := ',') rfl (by simp [hclose])).bind
  refine (hp cs mid hfirst (follows_items hrecurs hmore hstops)).bind ?_
  intro q hq start hstart
  refine (yields_followers hrecurs hmore hstops hrefuses hstart).map fun qs hqs => ?_
  rw [List.map_cons, List.map_cons, hq, hqs]

theorem yields_argumentList {args : List Phrase} (h : ∀ a ∈ args, Recovers nested Stops a)
    (hempty : ∀ rest, Refuses nested (')' :: rest))
    (hwritten : Written (['('] :: (Phrase.argumentTokens args ++ [[')']])) cs rest) :
    Yields (argumentList nested) (trimmed cs) rest
      fun qs => qs.map Phrase.bare = args.map Phrase.bare := by
  obtain ⟨mid, hopen, hmid⟩ := hwritten.head (solid_singleton (by decide))
  obtain ⟨after, hargs, hclose⟩ := hmid.split
  obtain ⟨stop, hafter, hstop⟩ := close_of_written hclose
  have hoptional : Yields (optional (arguments nested)) (trimmed mid) after fun found? =>
      (found?.getD []).map Phrase.bare = args.map Phrase.bare := by
    cases args with
    | nil =>
      have heq := hargs.trimmed_eq.trans hafter
      have hnone : Refuses (arguments nested) (trimmed mid) := by
        rw [heq]
        exact (hempty stop).bind
      refine hnone.map.orElse_yields ((yields_pure ?_ _).trans ?_)
      · rfl
      · rw [trimmed_trimmed, hargs.trimmed_eq]
    | cons p ps =>
      have hfound := yields_arguments h hargs (by rw [hafter]; rfl)
      exact Yields.orElse (hfound.map fun qs hqs => hqs)
  rw [hopen]
  refine Yields.symbol_bind rfl (Yields.skip_bind ?_)
  refine hoptional.bind fun found? hfound start hstart => Yields.skip_bind ?_
  rw [hstart, hafter]
  refine Yields.symbol_bind rfl ((yields_pure ?_ stop).trans hstop)
  exact hfound

theorem ends_of_argumentTokens {args : List Phrase} {mid : List Char}
    (h : Written (['('] :: (Phrase.argumentTokens args ++ [[')']])) mid rest) : Token.Ends mid := by
  obtain ⟨after, hopen, -⟩ := h.head (solid_singleton (by decide))
  refine ends_of_trimmed ?_
  rw [hopen]
  exact ends_open after

/-- A callee and its arguments are found, whatever call is made of them. -/
theorem yields_call {callee : Lexeme} {args : List Phrase}
    {make : Nat → Lexeme → List Phrase → Phrase}
    (hname : Token.isName callee.text) (h : ∀ a ∈ args, Recovers nested Stops a)
    (hempty : ∀ rest, Refuses nested (')' :: rest))
    (hmake : ∀ stop lexeme qs, lexeme.text = callee.text →
      qs.map Phrase.bare = args.map Phrase.bare → (make stop lexeme qs).bare = p.bare)
    (hwritten : Written (callee.text :: ['('] :: (Phrase.argumentTokens args ++ [[')']])) cs rest) :
    Yields
      (do
        let callee ← name
        skip
        let args ← argumentList nested
        return make (← position) callee args)
      (trimmed cs) rest fun q => q.bare = p.bare := by
  obtain ⟨mid, hcallee, hargs⟩ := hwritten.head (solid_of_isName hname)
  rw [hcallee]
  refine (takes_name hname (ends_of_argumentTokens hargs)).bind_yields fun lexeme hlexeme => ?_
  refine Yields.skip_bind ((yields_argumentList h hempty hargs).bind ?_)
  intro qs hqs start hstart
  refine Yields.position_bind fun stop => (yields_pure ?_ start).trans hstart
  exact hmake stop lexeme qs hlexeme hqs

theorem recovers_methodCall (span : Span) {callee : Lexeme} {args : List Phrase}
    (hname : Token.isName callee.text) (h : ∀ a ∈ args, Recovers nested Stops a)
    (hempty : ∀ rest, Refuses nested (')' :: rest)) :
    Recovers (methodCall nested) (fun _ => True) (.method span callee args) := by
  intro cs rest hwritten _
  refine (Yields.position_bind fun _ => yields_call hname h hempty ?_ hwritten).rule
  intro stop lexeme qs hlexeme hqs
  simp [Phrase.bare, Lexeme.bare, hlexeme, Phrase.bareAll_eq_map, hqs]

theorem recovers_capabilityCall (span : Span) {callee : Lexeme} {args : List Phrase}
    (hname : Token.isName callee.text) (h : ∀ a ∈ args, Recovers nested Stops a)
    (hempty : ∀ rest, Refuses nested (')' :: rest)) :
    Recovers (capabilityCall nested) (fun _ => True) (.capability span callee args) := by
  intro cs rest hwritten _
  obtain ⟨mid, hat, hmid⟩ := hwritten.head (solid_singleton (by decide))
  rw [hat, List.singleton_append]
  refine (Yields.position_bind fun _ => Yields.symbol_bind rfl (Yields.skip_bind ?_)).rule
  refine yields_call hname h hempty ?_ hmid
  intro stop lexeme qs hlexeme hqs
  simp [Phrase.bare, Lexeme.bare, hlexeme, Phrase.bareAll_eq_map, hqs]

/-! Names and literals. -/

theorem recovers_name {lexeme : Lexeme} (hname : Token.isName lexeme.text)
    (hkeyword : lexeme.text ∉ Token.keywords) :
    Recovers (primary nested) Delimits (.name lexeme) := by
  intro cs rest hwritten hfollows
  obtain ⟨mid, hfound, hmid⟩ := hwritten.last (solid_of_isName hname)
  rw [← hmid] at hfollows
  rw [hfound]
  exact (takes_plainName hname hkeyword (closes_of_delimits hfollows)).yields.trans hmid

theorem recovers_literal {kind : LiteralKind} {lexeme : Lexeme} (h : IsToken kind lexeme.text) :
    Recovers (primary nested) Delimits (.literal kind lexeme) := by
  intro cs rest hwritten hfollows
  obtain ⟨mid, hfound, hmid⟩ := hwritten.last (solid_of_isToken h)
  rw [← hmid] at hfollows
  have hend : ∀ c ∈ " \t\r\n|^&=!<>+-*/%),".toList,
      Token.isNameChar c = false ∧ c ∉ ['"', '\'', '\\'] := Token.forall_of_all (by decide)
  have hscan := h.scan fun c hc => hend c (head_of_delimits hfollows hc)
  rw [hfound]
  exact (takes_scanned hscan (closes_of_delimits hfollows)).yields.trans hmid

/-! Expressions. -/

theorem opens_of_isName {text : List Char} (h : Token.isName text) :
    ∃ c w, text = c :: w ∧ Pattern.Opens c := by
  cases text with
  | nil => cases h
  | cons c w =>
    obtain ⟨hc, -⟩ := (Bool.and_eq_true _ _).mp h
    exact ⟨c, w, rfl, .inr (Token.isNameChar_of_isNameStart hc)⟩

/-- The first token of an operand begins like one. -/
theorem opens_tokens (hp : p.Regular IsToken) (hoperand : p.isOperand) :
    ∃ c w tokens, p.tokens = (c :: w) :: tokens ∧ Pattern.Opens c := by
  cases hp with
  | binary => cases hoperand
  | group => exact ⟨'(', [], _, rfl, .inl (by decide)⟩
  | name hname _ =>
    obtain ⟨c, w, heq, hc⟩ := opens_of_isName hname
    exact ⟨c, w, [], by rw [Phrase.tokens, heq], hc⟩
  | literal h =>
    obtain ⟨c, w, heq, hc⟩ := Pattern.begins_literal _ [] (Pattern.reads_literal.mpr ⟨_, h⟩)
    exact ⟨c, w, [], by rw [Phrase.tokens, heq, List.append_nil], hc⟩
  | method hname _ =>
    obtain ⟨c, w, heq, hc⟩ := opens_of_isName hname
    exact ⟨c, w, _, by rw [Phrase.tokens, heq], hc⟩
  | capability => exact ⟨'@', [], _, rfl, .inl (by decide)⟩

/-- What follows an operator makes no longer operator of it. -/
theorem not_prolongs_of_written (hp : p.Regular IsToken) (hoperand : p.isOperand)
    (h : Written p.tokens cs rest) : ∀ c, cs.head? = some c → ¬Prolongs c := by
  obtain ⟨c, w, tokens, htokens, hc⟩ := opens_tokens hp hoperand
  rw [htokens] at h
  obtain ⟨mid, heq, -⟩ := h.head ⟨c, w, rfl, hc.solid⟩
  refine not_prolongs_of_trimmed ?_
  rw [heq]
  rintro d ⟨⟩
  exact hc.not_prolongs

theorem recurs_operand {item : BinaryOp × Phrase} (hp : item.2.Regular IsToken)
    (hoperand : item.2.isOperand) (h : Recovers (primary nested) Delimits item.2) :
    Recurs (do let op ← operator; skip; let operand ← primary nested; return (op, operand))
      Phrase.behindOperator (fun found => (found.1, found.2.bare)) (fun item => (item.1, item.2.bare))
      Delimits item where
  opens := fun cs rest hwritten => by
    obtain ⟨mid, hsymbol, -⟩ := hwritten.head (solid_symbol item.1)
    obtain ⟨c, w, heq, -, hc⟩ := symbol_delimits item.1
    rw [hsymbol, heq]
    rintro d ⟨⟩
    exact hc
  shortens := fun cs rest hwritten => hwritten.shortens (solid_symbol item.1)
  yields := fun cs rest hwritten hfollows => by
    obtain ⟨mid, hsymbol, hmid⟩ := hwritten.head (solid_symbol item.1)
    have hop : Takes operator item.1.symbol.toList mid fun op => op = item.1 :=
      takes_operator item.1 (not_prolongs_of_written hp hoperand hmid)
    rw [hsymbol]
    refine hop.bind_yields fun op hop => Yields.skip_bind ?_
    refine (h mid rest hmid hfollows).map fun q hq => ?_
    rw [hop, hq]

/-- A chain of operands is found when every operand is. -/
theorem recovers_expression (hp : p.Regular IsToken)
    (h : ∀ x ∈ p.operands, ∀ depth, x.levels ≤ depth →
      Recovers (primary (expression depth)) Delimits x)
    {depth : Nat} (hdepth : p.levels < depth) : Recovers (expression depth) Stops p := by
  obtain ⟨depth, rfl⟩ := Nat.exists_eq_succ_of_ne_zero (Nat.ne_of_gt (Nat.zero_lt_of_lt hdepth))
  have hlevels : p.first.levels ≤ depth ∧ ∀ item ∈ p.others, item.2.levels ≤ depth := by
    rw [← Phrase.levels_ofChain_le, Phrase.ofChain_others hp.arranged]
    omega
  have hrecurs : ∀ item ∈ p.others, Recurs
      (do let op ← operator; skip; let operand ← primary (expression depth); return (op, operand))
      Phrase.behindOperator (fun found => (found.1, found.2.bare))
      (fun item => (item.1, item.2.bare)) Delimits item := by
    intro item hitem
    have hmem : item.2 ∈ p.operands := List.mem_cons_of_mem _ (List.mem_map_of_mem hitem)
    exact recurs_operand (regular_operands hp _ hmem) (Phrase.isOperand_of_mem hmem)
      (h _ hmem depth (hlevels.2 item hitem))
  intro cs rest hwritten hstops
  rw [Phrase.tokens_eq_chain] at hwritten
  obtain ⟨mid, hfirst, hothers⟩ := hwritten.split
  have hfollows := follows_items hrecurs hothers hstops.delimits
  refine ((h p.first List.mem_cons_self depth hlevels.1 cs mid hfirst hfollows).bind ?_).rule
  intro q hq start hstart
  have hmore := yields_followers hrecurs hothers hstops.delimits (refuses_operator hstops).bind hstart
  refine hmore.map fun items hitems => ?_
  rw [Phrase.bare_ofChain, hq, hitems, ← Phrase.bare_ofChain, Phrase.ofChain_others hp.arranged]

theorem recovers_args {args : List Phrase} (hargs : ∀ a ∈ args, a.Regular IsToken)
    (h : ∀ a ∈ args, ∀ x ∈ a.operands, ∀ depth, x.levels ≤ depth →
      Recovers (primary (expression depth)) Delimits x)
    {depth : Nat} (hdepth : Phrase.levelsAll args + 1 ≤ depth) :
    ∀ a ∈ args, Recovers (expression depth) Stops a := by
  intro a ha
  have hle := Phrase.levelsAll_le.mp (Nat.le_refl (Phrase.levelsAll args)) a ha
  exact recovers_expression (hargs a ha) (h a ha) (by omega)

theorem recovers_operands (hp : p.Regular IsToken) : ∀ x ∈ p.operands, ∀ depth,
    x.levels ≤ depth → Recovers (primary (expression depth)) Delimits x := by
  induction hp with
  | binary _ _ _ _ ihl ihr =>
    intro x hx
    exact (Phrase.mem_operands_binary.mp hx).elim (ihl x) (ihr x)
  | @group span inner h ih =>
    rw [Phrase.operands_of_isOperand rfl, List.forall_mem_singleton]
    intro depth hdepth cs rest hwritten _
    have hinner : Recovers (expression depth) Stops inner :=
      recovers_expression h ih (Nat.lt_of_succ_le hdepth)
    exact (recovers_grouped span hinner cs rest hwritten trivial).orElse
  | name hname hkeyword =>
    rw [Phrase.operands_of_isOperand rfl, List.forall_mem_singleton]
    exact fun depth _ => recovers_name hname hkeyword
  | literal h =>
    rw [Phrase.operands_of_isOperand rfl, List.forall_mem_singleton]
    exact fun depth _ => recovers_literal h
  | @method span callee args hname hargs ih =>
    rw [Phrase.operands_of_isOperand rfl, List.forall_mem_singleton]
    intro depth hdepth cs rest hwritten _
    have hcall := recovers_methodCall span hname (recovers_args hargs ih hdepth)
      (refuses_expression_close depth) cs rest hwritten trivial
    obtain ⟨mid, hcallee, -⟩ := hwritten.head (solid_of_isName hname)
    have hhead : ∀ c, Token.isNameStart c = false → (trimmed cs).head? ≠ some c := by
      intro c hc
      rw [hcallee]
      exact Token.head_ne_of_isName hname hc mid
    exact (refuses_grouped (hhead '(' (by decide))).orElse_yields
      ((refuses_capabilityCall (hhead '@' (by decide))).orElse_yields hcall.orElse)
  | @capability span callee args hname hargs ih =>
    rw [Phrase.operands_of_isOperand rfl, List.forall_mem_singleton]
    intro depth hdepth cs rest hwritten _
    have hcall := recovers_capabilityCall span hname (recovers_args hargs ih hdepth)
      (refuses_expression_close depth) cs rest hwritten trivial
    obtain ⟨mid, hat, -⟩ := hwritten.head (solid_singleton (by decide))
    refine Refuses.orElse_yields (refuses_grouped ?_) hcall.orElse
    rw [hat]
    simp

/-- A text made of the tokens of a regular phrase spells that phrase. -/
theorem phrase_of_written {source : List Char} (hp : p.Regular IsToken)
    (h : Written p.tokens source []) : ∃ q, phrase source = .ok q ∧ q.bare = p.bare := by
  have hdepth : p.levels < depthOf source :=
    Nat.lt_succ_of_le (Nat.le_trans p.levels_le_tokens (h.count_le '('))
  have hexpr := recovers_expression hp (recovers_operands hp) hdepth source [] h stops_nil
  have hmain : Yields (main (depthOf source)) source [] fun q => q.bare = p.bare := by
    refine (Yields.skip_bind (hexpr.bind fun q hq start hstart => Yields.skip_bind ?_)).rule
    rw [hstart]
    exact fun position far => ⟨q, _, rfl, rfl, hq⟩
  obtain ⟨q, c', hrun, -, hq⟩ := hmain 0 {}
  exact ⟨q, phrase_of_run hrun, hq⟩

/-- A text spells one phrase only, apart from its places. -/
theorem bare_eq_of_written {source : List Char} {q : Phrase} (hp : p.Regular IsToken)
    (hq : q.Regular IsToken) (h : Written p.tokens source []) (h' : Written q.tokens source []) :
    p.bare = q.bare := by
  obtain ⟨found, hfound, hbare⟩ := phrase_of_written hp h
  obtain ⟨found', hfound', hbare'⟩ := phrase_of_written hq h'
  cases hfound.symm.trans hfound'
  exact hbare.symm.trans hbare'

end Grammar

end GuardCode
