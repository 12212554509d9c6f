import GuardCode.Proofs.Grammar.Matching
import GuardCode.Proofs.Grammar.Scanning
import GuardCode.Proofs.Grammar.Written
import GuardCode.Proofs.Nesting

/-! What every match of the grammar is like: the phrase is regular, its tokens are those of the text
that was matched, and it nests exactly as deep as the parentheses of the text. -/
namespace GuardCode.Grammar

open Matcher Nesting

/-- A phrase found between two rests of the input. -/
structure Accounts (start : List Char) (p : Phrase) (stop : List Char) : Prop where
  regular : p.Regular IsToken
  written : Written p.tokens start stop
  fits : ∀ {limit depth : Nat}, depth ≤ limit →
    (Fits limit depth .outside start ↔
      Fits limit depth .outside stop ∧ depth + p.levels ≤ limit)

/-- The same of the arguments of a call with their parentheses. -/
structure AccountsAll (start : List Char) (args : List Phrase) (stop : List Char) : Prop where
  regular : ∀ a ∈ args, a.Regular IsToken
  written : Written (['('] :: (Phrase.argumentTokens args ++ [[')']])) start stop
  fits : ∀ {limit depth : Nat}, depth ≤ limit →
    (Fits limit depth .outside start ↔
      Fits limit depth .outside stop ∧ depth + (Phrase.levelsAll args + 1) ≤ limit)

variable {nested : Matcher Phrase} {c c' : Cursor} {p : Phrase}

theorem fits_skip {limit depth : Nat} (cs : List Char) :
    Fits limit depth .outside (cs.dropWhile Token.isSpace) ↔ Fits limit depth .outside cs :=
  (passes_dropWhile isPlain_space cs).fits.symm

theorem written_skip {u : Unit} (h : Finds skip c u c') : Written [] c.rest c'.rest := by
  rw [finds_skip h]
  exact Written.skipped c.rest

theorem finds_symbol {symbol : String} {lexeme : Lexeme}
    (h : Finds (Matcher.symbol symbol) c lexeme c') : c.rest = symbol.toList ++ c'.rest :=
  Token.eq_of_word (finds_token h).1

theorem written_symbol {symbol : String} {lexeme : Lexeme}
    (h : Finds (Matcher.symbol symbol) c lexeme c') :
    Written [symbol.toList] c.rest c'.rest := by
  rw [finds_symbol h]
  exact Written.single _ _

theorem finds_name {lexeme : Lexeme} (h : Finds name c lexeme c') :
    c.rest = lexeme.text ++ c'.rest ∧ Token.isName lexeme.text ∧ Token.Ends c'.rest := by
  obtain ⟨hscan, htext⟩ := finds_token (finds_rule h)
  obtain ⟨n, heq, hname, hends⟩ := Token.of_name hscan
  have hn : lexeme.text = n := by simp [htext, heq]
  rw [hn]
  exact ⟨heq, hname, hends⟩

theorem written_name {lexeme : Lexeme} (h : Finds name c lexeme c') :
    Written [lexeme.text] c.rest c'.rest := by
  rw [(finds_name h).1]
  exact Written.single _ _

theorem fits_name {lexeme : Lexeme} (h : Finds name c lexeme c') {limit depth : Nat} :
    Fits limit depth .outside c.rest ↔ Fits limit depth .outside c'.rest :=
  (passes_name (finds_token (finds_rule h)).1).fits

/-- What is repeated is written one behind the other. -/
theorem written_repeated {α : Type} {m : Matcher α} {body : α → List (List Char)}
    (hm : ∀ {c a c'}, Finds m c a c' → Written (body a) c.rest c'.rest) {bound : Nat} {as : List α}
    (h : Finds (repeated m bound) c as c') : Written (as.flatMap body) c.rest c'.rest := by
  induction bound generalizing c as with
  | zero =>
    obtain ⟨rfl, rfl⟩ := finds_pure h
    exact Written.refl _
  | succ bound ih =>
    rcases finds_orElse h with hstep | ⟨-, hstop⟩
    · obtain ⟨_, c₁, hblank, hstep⟩ := finds_bind hstep
      obtain ⟨first, c₂, hfirst, hstep⟩ := finds_bind hstep
      obtain ⟨others, c₃, hothers, hpure⟩ := finds_bind hstep
      obtain ⟨rfl, rfl⟩ := finds_pure hpure
      exact (written_skip hblank).append ((hm hfirst).append (ih hothers))
    · obtain ⟨rfl, rfl⟩ := finds_pure hstop
      exact Written.refl _

theorem written_followers {α : Type} {m : Matcher α} {body : α → List (List Char)}
    (hm : ∀ {c a c'}, Finds m c a c' → Written (body a) c.rest c'.rest) {as : List α}
    (h : Finds (followers m) c as c') : Written (as.flatMap body) c.rest c'.rest := by
  obtain ⟨_, c₁, hblank, hrest⟩ := finds_bind h
  refine (written_skip hblank).append ?_
  rcases finds_orElse hrest with hstep | ⟨-, hstop⟩
  · obtain ⟨first, c₂, hfirst, hstep⟩ := finds_bind hstep
    obtain ⟨others, c₃, ⟨far, hothers⟩, hpure⟩ := finds_bind hstep
    obtain ⟨rfl, rfl⟩ := finds_pure hpure
    exact (hm hfirst).append (written_repeated hm ⟨far, hothers⟩)
  · obtain ⟨rfl, rfl⟩ := finds_pure hstop
    exact Written.refl _

/-! Operands. -/

theorem accounts_plain (hregular : p.Regular IsToken)
    (hwritten : Written p.tokens c.rest c'.rest) (hlevels : p.levels = 0)
    (hfits : ∀ {limit depth : Nat},
      Fits limit depth .outside c.rest ↔ Fits limit depth .outside c'.rest) :
    Accounts c.rest p c'.rest where
  regular := hregular
  written := hwritten
  fits := by
    intro limit depth hdepth
    rw [hfits, hlevels]
    exact ⟨fun h => ⟨h, hdepth⟩, And.left⟩

theorem fits_literalScan {kind : LiteralKind} {cs rest : List Char}
    (h : literalScan kind cs = some rest) {limit depth : Nat} :
    Fits limit depth .outside cs ↔ Fits limit depth .outside rest := by
  cases kind with
  | null => exact (passes_null h).fits
  | boolean => exact (passes_boolean h).fits
  | float => exact (passes_float h).fits
  | integer => exact (passes_integer h).fits
  | character => exact fits_character h
  | string => exact fits_string h

theorem accounts_literal (h : Finds literal c p c') :
    Accounts c.rest p c'.rest ∧ p.isOperand := by
  have hone : ∀ kind, Finds (literalOf kind) c p c' →
      Accounts c.rest p c'.rest ∧ p.isOperand := by
    intro kind hkind
    obtain ⟨lexeme, htoken, rfl⟩ := finds_map (finds_rule hkind)
    obtain ⟨hscan, htext⟩ := finds_token htoken
    obtain ⟨text, heq, hisToken⟩ := isToken_of_scan hscan
    obtain rfl : lexeme.text = text := by simp [htext, heq]
    refine ⟨accounts_plain (.literal hisToken) ?_ rfl (fits_literalScan hscan), rfl⟩
    rw [heq]
    exact Written.single _ _
  obtain ⟨m, hm, hfinds⟩ := finds_choice h
  obtain ⟨kind, -, rfl⟩ := List.mem_map.mp hm
  exact hone kind hfinds

/-- A name that is found where no literal is, is no keyword. -/
theorem accounts_name (hmiss : Misses literal c) (h : Finds (Phrase.name <$> name) c p c') :
    Accounts c.rest p c'.rest ∧ p.isOperand := by
  obtain ⟨lexeme, hname, rfl⟩ := finds_map h
  obtain ⟨heq, hisName, hends⟩ := finds_name hname
  have hall := Token.all_isNameChar_of_isName hisName
  have hscan : ∀ kind, literalScan kind c.rest = none := fun kind =>
    misses_token (misses_map (misses_rule (misses_choice hmiss _ (by
      refine List.mem_map_of_mem ?_
      cases kind <;> decide))))
  have hnull := hscan .null
  have hboolean := hscan .boolean
  simp only [literalScan, heq, Token.null_append hall hends,
    Token.boolean_append hall hends] at hnull hboolean
  refine ⟨accounts_plain (.name hisName ?_) (written_name hname) rfl (fits_name hname), rfl⟩
  simp only [Token.keywords, List.mem_cons, List.not_mem_nil, or_false, not_or]
  refine ⟨fun h => ?_, fun h => ?_, fun h => ?_⟩
  · simp [h] at hnull
  · simp [h] at hboolean
  · simp [h] at hboolean

/-! Parentheses. -/

/-- Parentheses around something that nests `n` levels deep, blanks inside them apart. -/
theorem fits_enclosed {start after stop : List Char} {n : Nat}
    (hinner : ∀ {limit depth : Nat}, depth ≤ limit →
      (Fits limit depth .outside (start.dropWhile Token.isSpace) ↔
        Fits limit depth .outside after ∧ depth + n ≤ limit))
    (hclose : after.dropWhile Token.isSpace = ')' :: stop) {limit depth : Nat} :
    Fits limit depth .outside ('(' :: start) ↔
      Fits limit depth .outside stop ∧ depth + (n + 1) ≤ limit := by
  rw [fits_open]
  by_cases hdepth : depth + 1 ≤ limit
  · rw [← fits_skip start, hinner hdepth, ← fits_skip after, hclose, fits_close]
    constructor
    · rintro ⟨-, hstop, hn⟩
      exact ⟨hstop, by omega⟩
    · rintro ⟨hstop, hn⟩
      exact ⟨hdepth, hstop, by omega⟩
  · constructor
    · rintro ⟨hle, -⟩
      exact absurd hle hdepth
    · rintro ⟨-, hn⟩
      omega

theorem accounts_grouped (hnested : ∀ {c p c'}, Finds nested c p c' → Accounts c.rest p c'.rest)
    (h : Finds (grouped nested) c p c') : Accounts c.rest p c'.rest ∧ p.isOperand := by
  obtain ⟨_, c₀, hstart, h⟩ := finds_bind (finds_rule h)
  obtain ⟨_, c₁, hopen, h⟩ := finds_bind h
  obtain ⟨_, c₂, hblank, h⟩ := finds_bind h
  obtain ⟨inner, c₃, hinner, h⟩ := finds_bind h
  obtain ⟨_, c₄, hblank', h⟩ := finds_bind h
  obtain ⟨_, c₅, hclose, h⟩ := finds_bind h
  obtain ⟨_, c₆, hstop, h⟩ := finds_bind h
  obtain ⟨rfl, rfl⟩ := finds_pure h
  obtain rfl := finds_position hstart
  obtain rfl := finds_position hstop
  have hfound := hnested hinner
  have hwritten := hfound.written
  rw [finds_skip hblank] at hfound
  have hend : c₃.rest.dropWhile Token.isSpace = ')' :: c'.rest := by
    rw [← finds_skip hblank']
    exact finds_symbol hclose
  have hbegin : c₀.rest = '(' :: c₁.rest := finds_symbol hopen
  refine ⟨⟨.group hfound.regular, ?_, fun _ => ?_⟩, rfl⟩
  · exact (written_symbol hopen).append ((written_skip hblank).append
      (hwritten.append ((written_skip hblank').append (written_symbol hclose))))
  · rw [hbegin]
    exact fits_enclosed hfound.fits hend

theorem finds_arguments (hnested : ∀ {c p c'}, Finds nested c p c' → Accounts c.rest p c'.rest)
    {args : List Phrase} (h : Finds (arguments nested) c args c') :
    (∀ a ∈ args, a.Regular IsToken) ∧ Written (Phrase.argumentTokens args) c.rest c'.rest ∧
      ∀ {limit depth : Nat}, depth ≤ limit →
        (Fits limit depth .outside c.rest ↔
          Fits limit depth .outside c'.rest ∧ depth + Phrase.levelsAll args ≤ limit) := by
  obtain ⟨first, c₁, hfirst, h⟩ := finds_bind h
  obtain ⟨others, c₂, hothers, h⟩ := finds_bind h
  obtain ⟨rfl, rfl⟩ := finds_pure h
  have hfound := hnested hfirst
  -- one more argument: a comma, blanks and an expression
  have hmore : ∀ {c p c'}, Finds (do let _ ← symbol ","; skip; nested) c p c' →
      p.Regular IsToken ∧ Written p.behindComma c.rest c'.rest ∧
        ∀ {limit depth : Nat}, depth ≤ limit → (Fits limit depth .outside c.rest ↔
          Fits limit depth .outside c'.rest ∧ depth + p.levels ≤ limit) := by
    intro c p c' h
    obtain ⟨_, c₁, hcomma, h⟩ := finds_bind h
    obtain ⟨_, c₂, hblank, h⟩ := finds_bind h
    have hfound := hnested h
    have hbegin : c.rest = ',' :: c₁.rest := finds_symbol hcomma
    refine ⟨hfound.regular, ?_, fun hdepth => ?_⟩
    · exact (written_symbol hcomma).append ((written_skip hblank).append hfound.written)
    · rw [hbegin, fits_cons_plain (by decide), ← fits_skip c₁.rest, ← finds_skip hblank]
      exact hfound.fits hdepth
  refine ⟨?_, ?_, ?_⟩
  · have hall := (finds_followers (fun _ => True) (fun a => a.Regular IsToken)
      (fun _ => Iff.rfl) (fun h => by simp [(hmore h).1]) hothers).mp trivial
    exact List.forall_mem_cons.mpr ⟨hfound.regular, hall.2⟩
  · rw [Phrase.argumentTokens, Phrase.moreTokens_eq]
    exact hfound.written.append (written_followers (fun h => (hmore h).2.1) hothers)
  · intro limit depth hdepth
    have hall := finds_followers (Fits limit depth .outside) (fun a => depth + a.levels ≤ limit)
      fits_skip (fun h => (hmore h).2.2 hdepth) hothers
    rw [hfound.fits hdepth, hall, Phrase.add_levelsAll_le hdepth, List.forall_mem_cons, and_assoc,
      and_comm (b := depth + first.levels ≤ limit)]

theorem accounts_argumentList
    (hnested : ∀ {c p c'}, Finds nested c p c' → Accounts c.rest p c'.rest) {args : List Phrase}
    (h : Finds (argumentList nested) c args c') : AccountsAll c.rest args c'.rest := by
  obtain ⟨_, c₁, hopen, h⟩ := finds_bind h
  obtain ⟨_, c₂, hblank, h⟩ := finds_bind h
  obtain ⟨found?, c₃, hargs, h⟩ := finds_bind h
  obtain ⟨_, c₄, hblank', h⟩ := finds_bind h
  obtain ⟨_, c₅, hclose, h⟩ := finds_bind h
  obtain ⟨rfl, rfl⟩ := finds_pure h
  have hinner : (∀ a ∈ found?.getD [], a.Regular IsToken) ∧
      Written (Phrase.argumentTokens (found?.getD [])) c₂.rest c₃.rest ∧
      ∀ {limit depth : Nat}, depth ≤ limit → (Fits limit depth .outside c₂.rest ↔
        Fits limit depth .outside c₃.rest ∧
          depth + Phrase.levelsAll (found?.getD []) ≤ limit) := by
    rcases finds_orElse hargs with hsome | ⟨-, hnone⟩
    · obtain ⟨args, hfound, rfl⟩ := finds_map hsome
      exact finds_arguments hnested hfound
    · obtain ⟨rfl, rfl⟩ := finds_pure hnone
      exact ⟨nofun, Written.refl _, fun hdepth => ⟨fun h => ⟨h, hdepth⟩, And.left⟩⟩
  obtain ⟨hregular, hwritten, hfits⟩ := hinner
  have hend : c₃.rest.dropWhile Token.isSpace = ')' :: c'.rest := by
    rw [← finds_skip hblank']
    exact finds_symbol hclose
  have hbegin : c.rest = '(' :: c₁.rest := finds_symbol hopen
  rw [finds_skip hblank] at hfits
  refine ⟨hregular, ?_, fun _ => ?_⟩
  · exact (written_symbol hopen).append ((written_skip hblank).append
      (hwritten.append ((written_skip hblank').append (written_symbol hclose))))
  · rw [hbegin]
    exact fits_enclosed hfits hend

theorem accounts_methodCall (hnested : ∀ {c p c'}, Finds nested c p c' → Accounts c.rest p c'.rest)
    (h : Finds (methodCall nested) c p c') : Accounts c.rest p c'.rest ∧ p.isOperand := by
  obtain ⟨_, c₀, hstart, h⟩ := finds_bind (finds_rule h)
  obtain ⟨callee, c₁, hname, h⟩ := finds_bind h
  obtain ⟨_, c₂, hblank, h⟩ := finds_bind h
  obtain ⟨args, c₃, hargs, h⟩ := finds_bind h
  obtain ⟨_, c₄, hstop, h⟩ := finds_bind h
  obtain ⟨rfl, rfl⟩ := finds_pure h
  obtain rfl := finds_position hstart
  obtain rfl := finds_position hstop
  have hall := accounts_argumentList hnested hargs
  refine ⟨⟨.method (finds_name hname).2.1 hall.regular, ?_, fun hdepth => ?_⟩, rfl⟩
  · exact (written_name hname).append ((written_skip hblank).append hall.written)
  · rw [fits_name hname, ← fits_skip c₁.rest, ← finds_skip hblank]
    exact hall.fits hdepth

theorem accounts_capabilityCall
    (hnested : ∀ {c p c'}, Finds nested c p c' → Accounts c.rest p c'.rest)
    (h : Finds (capabilityCall nested) c p c') : Accounts c.rest p c'.rest ∧ p.isOperand := by
  obtain ⟨_, c₀, hstart, h⟩ := finds_bind (finds_rule h)
  obtain ⟨_, c₁, hat, h⟩ := finds_bind h
  obtain ⟨_, c₂, hblank, h⟩ := finds_bind h
  obtain ⟨callee, c₃, hname, h⟩ := finds_bind h
  obtain ⟨_, c₄, hblank', h⟩ := finds_bind h
  obtain ⟨args, c₅, hargs, h⟩ := finds_bind h
  obtain ⟨_, c₆, hstop, h⟩ := finds_bind h
  obtain ⟨rfl, rfl⟩ := finds_pure h
  obtain rfl := finds_position hstart
  obtain rfl := finds_position hstop
  have hall := accounts_argumentList hnested hargs
  have hbegin : c₀.rest = '@' :: c₁.rest := finds_symbol hat
  refine ⟨⟨.capability (finds_name hname).2.1 hall.regular, ?_, fun hdepth => ?_⟩, rfl⟩
  · exact (written_symbol hat).append ((written_skip hblank).append
      ((written_name hname).append ((written_skip hblank').append hall.written)))
  · rw [hbegin, fits_cons_plain (by decide), ← fits_skip c₁.rest, ← finds_skip hblank,
      fits_name hname, ← fits_skip c₃.rest, ← finds_skip hblank']
    exact hall.fits hdepth

/-! Expressions. -/

theorem accounts_primary (hnested : ∀ {c p c'}, Finds nested c p c' → Accounts c.rest p c'.rest)
    (h : Finds (primary nested) c p c') : Accounts c.rest p c'.rest ∧ p.isOperand := by
  rcases finds_orElse h with h | ⟨-, h⟩
  · exact accounts_grouped hnested h
  rcases finds_orElse h with h | ⟨-, h⟩
  · exact accounts_capabilityCall hnested h
  rcases finds_orElse h with h | ⟨-, h⟩
  · exact accounts_methodCall hnested h
  rcases finds_orElse h with h | ⟨hmiss, h⟩
  · exact accounts_literal h
  · obtain ⟨m, hm, h⟩ := finds_choice h
    obtain rfl := List.mem_singleton.mp hm
    exact accounts_name hmiss h

theorem finds_operator {op : BinaryOp} (h : Finds operator c op c') :
    ∃ lexeme, Finds (symbol op.symbol) c lexeme c' := by
  obtain ⟨m, hm, h⟩ := finds_choice h
  obtain ⟨op', -, rfl⟩ := List.mem_map.mp hm
  obtain ⟨lexeme, htoken, rfl⟩ := finds_map (finds_rule h)
  exact ⟨lexeme, htoken⟩

theorem fits_operator {op : BinaryOp} (h : Finds operator c op c') {limit depth : Nat} :
    Fits limit depth .outside c.rest ↔ Fits limit depth .outside c'.rest := by
  obtain ⟨lexeme, htoken⟩ := finds_operator h
  have hplain : op.symbol.toList.all isPlain := by cases op <;> decide
  exact (passes_word hplain (finds_token htoken).1).fits

theorem accounts_expressionOver
    (hnested : ∀ {c p c'}, Finds nested c p c' → Accounts c.rest p c'.rest)
    (h : Finds (expressionOver nested) c p c') : Accounts c.rest p c'.rest := by
  obtain ⟨first, c₁, hfirst, h⟩ := finds_bind (finds_rule h)
  obtain ⟨others, c₂, hothers, h⟩ := finds_bind h
  obtain ⟨rfl, rfl⟩ := finds_pure h
  obtain ⟨hfound, -⟩ := accounts_primary hnested hfirst
  -- one more operand behind its operator
  have hmore : ∀ {c item c'},
      Finds (do let op ← operator; skip; let operand ← primary nested; return (op, operand))
        c item c' → (item.2.Regular IsToken ∧ item.2.isOperand) ∧
          Written (Phrase.behindOperator item) c.rest c'.rest ∧
          ∀ {limit depth : Nat}, depth ≤ limit → (Fits limit depth .outside c.rest ↔
            Fits limit depth .outside c'.rest ∧ depth + item.2.levels ≤ limit) := by
    intro c item c' h
    obtain ⟨op, c₁, hop, h⟩ := finds_bind h
    obtain ⟨_, c₂, hblank, h⟩ := finds_bind h
    obtain ⟨operand, c₃, hoperand, h⟩ := finds_bind h
    obtain ⟨rfl, rfl⟩ := finds_pure h
    obtain ⟨hfound, hisOperand⟩ := accounts_primary hnested hoperand
    obtain ⟨lexeme, hsymbol⟩ := finds_operator hop
    refine ⟨⟨hfound.regular, hisOperand⟩, ?_, fun hdepth => ?_⟩
    · exact (written_symbol hsymbol).append ((written_skip hblank).append hfound.written)
    · rw [fits_operator hop, ← fits_skip c₁.rest, ← finds_skip hblank]
      exact hfound.fits hdepth
  refine ⟨?_, ?_, ?_⟩
  · have hall := (finds_followers (fun _ => True)
      (fun item => item.2.Regular IsToken ∧ item.2.isOperand)
      (fun _ => Iff.rfl) (fun h => by simp [(hmore h).1]) hothers).mp trivial
    exact hfound.regular.ofChain hall.2
  · rw [Phrase.tokens_ofChain]
    exact hfound.written.append (written_followers (fun h => (hmore h).2.1) hothers)
  · intro limit depth hdepth
    have hall := finds_followers (Fits limit depth .outside)
      (fun item => depth + item.2.levels ≤ limit) fits_skip
      (fun h => (hmore h).2.2 hdepth) hothers
    rw [hfound.fits hdepth, hall, Phrase.add_levels_ofChain_le hdepth, and_assoc,
      and_comm (b := depth + first.levels ≤ limit)]

theorem accounts_expression (depth : Nat) (h : Finds (expression depth) c p c') :
    Accounts c.rest p c'.rest := by
  induction depth generalizing c p c' with
  | zero =>
    obtain ⟨far, h⟩ := h
    cases h
  | succ depth ih => exact accounts_expressionOver ih h

theorem finds_phrase {source : List Char} (h : phrase source = .ok p) :
    ∃ c', Finds (main (depthOf source)) ⟨source, 0⟩ p c' := by
  simp only [phrase, runAt] at h
  split at h
  · next found far hrun =>
    cases h
    exact ⟨found.2, _, by rw [hrun]⟩
  · cases h

/-- A whole text is the phrase with blanks around it. -/
theorem accounts_source {source : List Char} (h : phrase source = .ok p) :
    ∃ rest, Accounts (source.dropWhile Token.isSpace) p rest ∧
      rest.dropWhile Token.isSpace = [] := by
  obtain ⟨c', hmain⟩ := finds_phrase h
  obtain ⟨_, c₁, hblank, hmain⟩ := finds_bind (finds_rule hmain)
  obtain ⟨q, c₂, hexpr, hmain⟩ := finds_bind hmain
  obtain ⟨_, c₃, hblank', hmain⟩ := finds_bind hmain
  obtain ⟨_, c₄, hend, hmain⟩ := finds_bind hmain
  obtain ⟨rfl, rfl⟩ := finds_pure hmain
  have hfound := accounts_expression _ hexpr
  have hempty : c₃.rest = [] := by
    obtain ⟨far, hend⟩ := finds_rule hend
    simp only at hend
    split at hend
    · next hempty => simpa using hempty
    · cases hend
  rw [finds_skip hblank] at hfound
  exact ⟨c₂.rest, hfound, by rw [← finds_skip hblank', hempty]⟩

/-- The phrase of a whole text is regular, and nests as deep as the parentheses of the text. -/
theorem accounts_phrase {source : List Char} (h : phrase source = .ok p) :
    p.Regular (fun _ _ => True) ∧
      ∀ {limit : Nat}, check limit source = .ok () ↔ p.levels ≤ limit := by
  obtain ⟨rest, hfound, hrest⟩ := accounts_source h
  refine ⟨hfound.regular.mono fun _ _ _ => trivial, fun {limit} => ?_⟩
  rw [check_eq_ok, ← fits_skip source, hfound.fits (Nat.zero_le limit), ← fits_skip rest, hrest,
    Nat.zero_add]
  exact ⟨And.right, fun h => ⟨fits_nil, h⟩⟩

/-- The literals of a phrase are literals, and its tokens are what the text is made of. -/
theorem written_phrase {source : List Char} (h : phrase source = .ok p) :
    p.Regular IsToken ∧ Written p.tokens source [] := by
  obtain ⟨rest, hfound, hrest⟩ := accounts_source h
  have hstop := Written.skipped rest
  rw [hrest] at hstop
  refine ⟨hfound.regular, ?_⟩
  simpa using (Written.skipped source).append (hfound.written.append hstop)

end GuardCode.Grammar
