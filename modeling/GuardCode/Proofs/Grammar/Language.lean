import GuardCode.Proofs.Grammar.Accepting
import GuardCode.Proofs.Grammar.Completeness
import GuardCode.Proofs.Grammar.Scanning
import GuardCode.Proofs.Grammar.Soundness

/-! The grammar of guard text is matched without loss: rule by rule, the matchers accept exactly what
the patterns can read. Where several options begin alike, what may follow the part tells which of them
can be meant. -/
namespace GuardCode

/-! ## Where patterns begin -/

namespace Pattern

variable {p q : Pattern} {kind : Char → Prop} {cs rest : List Char}

/-- Every reading takes a character of the kind, and perhaps more. -/
def Begins (p : Pattern) (kind : Char → Prop) : Prop :=
  ∀ cs rest, Reads p cs rest → ∃ c text, cs = c :: (text ++ rest) ∧ kind c

theorem Begins.mono {kind' : Char → Prop} (h : Begins p kind) (himp : ∀ c, kind c → kind' c) :
    Begins p kind' := by
  intro cs rest hreads
  obtain ⟨c, text, heq, hc⟩ := h cs rest hreads
  exact ⟨c, text, heq, himp c hc⟩

theorem begins_text {word : String} {c : Char} {w : List Char} (hword : word.toList = c :: w)
    (hc : kind c) : Begins (text word) kind := by
  intro cs rest hreads
  rw [reads_text, hword] at hreads
  exact ⟨c, w, hreads, hc⟩

theorem begins_one {kind : Char → Bool} : Begins (one kind) fun c => kind c = true := by
  intro cs rest hreads
  obtain ⟨c, hc, rfl⟩ := reads_one.mp hreads
  exact ⟨c, [], rfl, hc⟩

theorem Begins.next (h : Begins p kind) (q : Pattern) : Begins (next p q) kind := by
  intro cs rest hreads
  obtain ⟨mid, hp, hq⟩ := reads_next.mp hreads
  obtain ⟨c, text, rfl, hc⟩ := h cs mid hp
  obtain ⟨more, rfl⟩ := hq.suffix
  exact ⟨c, text ++ more, by rw [List.append_assoc], hc⟩

theorem begins_oneOf {ps : List Pattern} (h : ∀ p ∈ ps, Begins p kind) :
    Begins (oneOf ps) kind := by
  intro cs rest hreads
  obtain ⟨p, hp, hreads⟩ := reads_oneOf.mp hreads
  exact h p hp cs rest hreads

theorem begins_signed (q : Pattern) :
    Begins (next (opt (anyOf "-")) (next digits q)) fun c => c = '-' ∨ c.isDigit = true := by
  have hdigits : Begins (Pattern.next digits q) fun c => c.isDigit = true :=
    (begins_one.next _).next q
  intro cs rest hreads
  obtain ⟨mid, hopt, hnumber⟩ := reads_next.mp hreads
  rcases reads_opt.mp hopt with hsign | rfl
  · obtain ⟨c, hc, rfl⟩ := reads_anyOf.mp hsign
    obtain ⟨text, rfl⟩ := hnumber.suffix
    exact ⟨c, text, rfl, .inl (by simpa using hc)⟩
  · obtain ⟨c, text, heq, hc⟩ := hdigits mid rest hnumber
    exact ⟨c, text, heq, .inr hc⟩

/-- What begins with a fixed character. -/
theorem Reads.after_text {word : String} (h : Reads (.next (.text word) q) cs rest) (c : Char)
    (hword : word.toList = [c]) : ∃ text, cs = c :: (text ++ rest) := by
  obtain ⟨mid, htext, hq⟩ := reads_next.mp h
  obtain ⟨more, rfl⟩ := hq.suffix
  rw [reads_text, hword] at htext
  exact ⟨more, htext⟩

/-- The characters at which an operand begins. -/
def Opens (c : Char) : Prop := c ∈ ['(', '@', '-', '\'', '"'] ∨ Token.isNameChar c = true

theorem Opens.solid {c : Char} (h : Opens c) : Token.isSpace c = false := by
  rcases h with h | h
  · have hall : ∀ d ∈ ['(', '@', '-', '\'', '"'], Token.isSpace d = false :=
      Token.forall_of_all (by decide)
    exact hall c h
  · exact Token.not_space_of_isNameChar h

theorem Opens.not_prolongs {c : Char} (h : Opens c) : ¬Grammar.Prolongs c := by
  intro hprolongs
  have hall : ∀ d ∈ ['|', '&', '=', '<', '>'],
      d ∉ ['(', '@', '-', '\'', '"'] ∧ Token.isNameChar d = false := Token.forall_of_all (by decide)
  obtain ⟨hnot, hname⟩ := hall c hprolongs
  rcases h with h | h
  · exact hnot h
  · simp [hname] at h

theorem begins_name : Begins name fun c => Token.isNameStart c = true := begins_one.next _

theorem begins_literal : Begins literal Opens := by
  have hdigit : ∀ c, c = '-' ∨ c.isDigit = true → Opens c := by
    rintro c (rfl | hc)
    · exact .inl (by decide)
    · exact .inr (Token.isNameChar_of_isDigit hc)
  refine begins_oneOf ?_
  simp only [List.mem_cons, List.not_mem_nil, or_false, forall_eq_or_imp, forall_eq]
  refine ⟨?_, ?_, ?_, ?_, ?_, ?_⟩
  · exact (begins_text (c := 'n') rfl (.inr (by decide))).next _
  · refine (begins_oneOf ?_).next _
    simp only [List.mem_cons, List.not_mem_nil, or_false, forall_eq_or_imp, forall_eq]
    exact ⟨begins_text (c := 't') rfl (.inr (by decide)),
      begins_text (c := 'f') rfl (.inr (by decide))⟩
  · exact (begins_signed _).mono hdigit
  · exact (begins_signed _).mono hdigit
  · exact (begins_text (c := '\'') rfl (.inl (by decide))).next _
  · exact (begins_text (c := '"') rfl (.inl (by decide))).next _

theorem begins_primary : Begins primary Opens := by
  have hname : Begins name Opens :=
    begins_name.mono fun c hc => .inr (Token.isNameChar_of_isNameStart hc)
  refine begins_oneOf ?_
  simp only [List.mem_cons, List.not_mem_nil, or_false, forall_eq_or_imp, forall_eq]
  refine ⟨?_, ?_, ?_, begins_literal, hname⟩
  · exact (begins_text (c := '(') rfl (.inl (by decide))).next _
  · exact (begins_text (c := '@') rfl (.inl (by decide))).next _
  · exact hname.next _

/-! ## Literals and operators -/

theorem reads_literal {cs rest : List Char} :
    Reads literal cs rest ↔ ∃ kind, Grammar.literalScan kind cs = some rest := by
  simp only [literalScan_iff, literal, reads_oneOf]
  constructor
  · rintro ⟨p, hp, h⟩
    simp only [List.mem_cons, List.not_mem_nil, or_false] at hp
    rcases hp with rfl | rfl | rfl | rfl | rfl | rfl
    · exact ⟨.null, h⟩
    · exact ⟨.boolean, h⟩
    · exact ⟨.float, h⟩
    · exact ⟨.integer, h⟩
    · exact ⟨.character, h⟩
    · exact ⟨.string, h⟩
  · rintro ⟨kind, h⟩
    refine ⟨_, ?_, h⟩
    cases kind <;> simp [ofLiteral]

theorem reads_operator {cs rest : List Char} :
    Reads operator cs rest ↔ ∃ op : BinaryOp, cs = op.symbol.toList ++ rest := by
  simp only [operator, reads_oneOf, List.mem_map]
  constructor
  · rintro ⟨p, ⟨w, hw, rfl⟩, h⟩
    have hop : ∀ w ∈ ["||", "&&", "|", "^", "&", "==", "!=", "<<", ">>", "<=", ">=", "<", ">", "+",
        "-", "*", "/", "%"], ∃ op ∈ Grammar.operators, op.symbol = w := by decide
    obtain ⟨op, -, rfl⟩ := hop w hw
    exact ⟨op, reads_text.mp h⟩
  · rintro ⟨op, rfl⟩
    exact ⟨_, ⟨op.symbol, by cases op <;> decide, rfl⟩, .text _ _⟩

theorem spelled_of_integer (h : Reads integer cs rest) :
    ∃ text, cs = text ++ rest ∧ Grammar.Spelled .integer text := by
  obtain ⟨unsigned, hminus, h⟩ := reads_next.mp h
  obtain ⟨mid, hdigits, h⟩ := reads_next.mp h
  obtain ⟨last, hlast, h⟩ := reads_next.mp h
  obtain ⟨rfl, -⟩ := reads_nameEnd.mp h
  obtain ⟨digits, hne, hall, rfl⟩ := reads_digits.mp hdigits
  have hfront : ∃ sign, (sign = [] ∨ sign = ['-']) ∧ cs = sign ++ (digits ++ mid) := by
    rcases reads_opt.mp hminus with hminus | heq
    · obtain ⟨c, hc, rfl⟩ := reads_anyOf.mp hminus
      obtain rfl : c = '-' := by simpa using hc
      exact ⟨['-'], .inr rfl, rfl⟩
    · exact ⟨[], .inl rfl, heq.symm⟩
  have hback : ∃ suffix ∈ Token.suffixes, mid = suffix ++ rest := by
    rcases reads_opt.mp hlast with hlast | rfl
    · obtain ⟨c, hc, rfl⟩ := reads_anyOf.mp hlast
      exact ⟨[c], by simpa [Token.suffixes] using hc, rfl⟩
    · exact ⟨[], by simp [Token.suffixes], rfl⟩
  obtain ⟨sign, hsign, rfl⟩ := hfront
  obtain ⟨suffix, hsuffix, rfl⟩ := hback
  exact ⟨sign ++ (digits ++ suffix), by simp, .integer hsign hne hall hsuffix⟩

end Pattern

namespace Grammar

open Matcher Pattern

variable {nested : Matcher Phrase} {bound : Nat} {cs rest : List Char}

/-- What can follow an operand: an operator, or the end of its expression. -/
def Delimits (cs : List Char) : Prop :=
  ∀ c, cs.head? = some c → c ∈ "|^&=!<>+-*/%),".toList

theorem Stops.delimits (h : Stops cs) : Delimits cs := by
  intro c hc
  rcases h c hc with rfl | rfl <;> decide

theorem symbol_delimits (op : BinaryOp) : ∃ c w, op.symbol.toList = c :: w ∧
    Token.isSpace c = false ∧ c ∈ "|^&=!<>+-*/%),".toList := by
  cases op <;> exact ⟨_, _, rfl, by decide, by decide⟩

/-- Behind an operand stands a blank, an operator or the end of its expression. -/
theorem head_of_delimits (h : Delimits (trimmed rest)) {c : Char} (hc : rest.head? = some c) :
    c ∈ " \t\r\n|^&=!<>+-*/%),".toList := by
  rcases head_trimmed hc with hspace | htrim
  · simp only [Token.isSpace, Bool.or_eq_true, beq_iff_eq, or_assoc] at hspace
    rcases hspace with rfl | rfl | rfl | rfl <;> decide
  · exact List.mem_append_right " \t\r\n".toList (h c htrim)

theorem closes_of_delimits (h : Delimits (trimmed rest)) : Closes rest := by
  have hhead : ∀ c ∈ " \t\r\n|^&=!<>+-*/%),".toList, Token.isNameChar c = false ∧ c ≠ '.' :=
    Token.forall_of_all (by decide)
  have hopen : ∀ c ∈ "|^&=!<>+-*/%),".toList, c ≠ '(' := Token.forall_of_all (by decide)
  exact ⟨fun c hc => (hhead c (head_of_delimits h hc)).1,
    fun hc => (hhead _ (head_of_delimits h hc)).2 rfl, fun hc => hopen _ (h _ hc) rfl⟩

/-- What is scanned as a literal is taken as that literal. -/
theorem takes_scanned {kind : LiteralKind} {text : List Char}
    (hscan : literalScan kind (text ++ rest) = some rest) (hrest : Closes rest) :
    Takes (primary nested) text rest fun p => p.bare = .literal kind ⟨⟨0, 0⟩, text⟩ := by
  have hreads := (literalScan_iff kind).mp hscan
  cases kind with
  | null =>
    obtain ⟨mid, hword, hend⟩ := reads_next.mp hreads
    obtain ⟨rfl, -⟩ := reads_nameEnd.mp hend
    obtain rfl := List.append_cancel_right (reads_text.mp hword)
    exact takes_spelled .null hrest
  | boolean =>
    obtain ⟨mid, hword, hend⟩ := reads_next.mp hreads
    obtain ⟨rfl, -⟩ := reads_nameEnd.mp hend
    obtain ⟨p, hp, hword⟩ := reads_oneOf.mp hword
    simp only [List.mem_cons, List.not_mem_nil, or_false] at hp
    rcases hp with rfl | rfl
    · obtain rfl := List.append_cancel_right (reads_text.mp hword)
      exact takes_spelled .true hrest
    · obtain rfl := List.append_cancel_right (reads_text.mp hword)
      exact takes_spelled .false hrest
  | float =>
    obtain ⟨c, tail, heq, hc⟩ := begins_signed _ _ rest hreads
    obtain rfl : text = c :: tail := List.append_cancel_right heq
    have hother : c ∉ ['(', '@', 'n', 't', 'f'] ∧ Token.isNameStart c = false := by
      rcases hc with rfl | hc
      · decide
      · refine ⟨fun hmem => ?_, Token.isNameStart_of_isDigit hc⟩
        have hall : ∀ d ∈ ['(', '@', 'n', 't', 'f'], d.isDigit = false :=
          Token.forall_of_all (by decide)
        simp [hall c hmem] at hc
    have hkeyword := keyword_of_head (c := c) (by
      intro hmem
      exact hother.1 (List.mem_cons_of_mem _ (List.mem_cons_of_mem _ hmem))) (tail ++ rest)
    refine takes_primary_of_head (fun hmem => hother.1 (List.mem_append_left _ hmem)) hother.2
      (takes_literal_of ?_ hscan)
    simp [literalScan, hkeyword]
  | integer =>
    obtain ⟨spelled, heq, hspelled⟩ := spelled_of_integer hreads
    obtain rfl : text = spelled := List.append_cancel_right heq
    exact takes_spelled hspelled hrest
  | character =>
    obtain ⟨tail, heq⟩ := Reads.after_text hreads '\'' rfl
    obtain rfl : text = '\'' :: tail := List.append_cancel_right heq
    have hkeyword := keyword_of_head (c := '\'') (by decide) (tail ++ rest)
    have hnumber := number_of_head (c := '\'') (by decide) (by decide) (tail ++ rest)
    refine takes_primary_of_head (by decide) (by decide) (takes_literal_of ?_ hscan)
    simp [literalScan, hkeyword, hnumber]
  | string =>
    obtain ⟨tail, heq⟩ := Reads.after_text hreads '"' rfl
    obtain rfl : text = '"' :: tail := List.append_cancel_right heq
    have hkeyword := keyword_of_head (c := '"') (by decide) (tail ++ rest)
    have hnumber := number_of_head (c := '"') (by decide) (by decide) (tail ++ rest)
    refine takes_primary_of_head (by decide) (by decide) (takes_literal_of ?_ hscan)
    simp [literalScan, hkeyword, hnumber, Token.character]

theorem leaves_literal {kind : LiteralKind} (hscan : literalScan kind cs = some rest)
    (hrest : Closes rest) : Leaves (primary nested) cs rest := by
  obtain ⟨text, rfl, -⟩ := isToken_of_scan hscan
  exact (takes_scanned hscan hrest).leaves

/-- A name is taken, a keyword as a literal. -/
theorem leaves_name {text : List Char} (hname : Token.isName text) (hrest : Closes rest) :
    Leaves (primary nested) (text ++ rest) rest := by
  by_cases hkeyword : text ∈ Token.keywords
  · simp only [Token.keywords, List.mem_cons, List.not_mem_nil, or_false] at hkeyword
    rcases hkeyword with rfl | rfl | rfl
    · exact (takes_spelled .null hrest).leaves
    · exact (takes_spelled .true hrest).leaves
    · exact (takes_spelled .false hrest).leaves
  · exact (takes_plainName hname hkeyword hrest).leaves

/-! ## The rules -/

theorem accepts_symbol {word : String} {c : Char} {w : List Char} (hword : word.toList = c :: w)
    (hc : Token.isSpace c = false) :
    Accepts (symbol word) (.text word) bound fun _ => True := by
  refine accepts_token (fun _ _ => word_iff.mp) fun cs rest hreads _ => ?_
  refine ⟨?_, word_iff.mpr hreads⟩
  rw [reads_text, hword] at hreads
  exact trimmed_of_head (by rw [hreads]; rfl) hc

theorem ends_of_trimmed (h : Token.Ends (trimmed rest)) : Token.Ends rest := by
  intro c hc
  rcases head_trimmed hc with hspace | htrim
  · cases hname : Token.isNameChar c with
    | false => rfl
    | true => simp [Token.not_space_of_isNameChar hname] at hspace
  · exact h c htrim

theorem accepts_name : Accepts name .name bound Token.Ends := by
  refine (accepts_token (fun _ _ h => (name_iff.mp h).1) fun cs rest hreads hends => ?_).rule
  constructor
  · obtain ⟨c, text, rfl, hc⟩ := begins_name cs rest hreads
    exact trimmed_of_head rfl (Token.not_space_of_isNameChar (Token.isNameChar_of_isNameStart hc))
  · exact name_iff.mpr ⟨hreads, ends_of_trimmed hends⟩

theorem not_prolongs_of_trimmed (h : ∀ c, (trimmed rest).head? = some c → ¬Prolongs c) :
    ∀ c, rest.head? = some c → ¬Prolongs c := by
  intro c hc hprolongs
  have hall : ∀ d ∈ ['|', '&', '=', '<', '>'], Token.isSpace d = false :=
    Token.forall_of_all (by decide)
  rcases head_trimmed hc with hspace | htrim
  · simp [hall c hprolongs] at hspace
  · exact h c htrim hprolongs

theorem accepts_operator :
    Accepts operator .operator bound fun cs => ∀ c, cs.head? = some c → ¬Prolongs c where
  sound := fun c found c' hfinds => by
    obtain ⟨m, hm, hfinds⟩ := finds_choice hfinds
    obtain ⟨op, -, rfl⟩ := List.mem_map.mp hm
    obtain ⟨lexeme, htoken, -⟩ := finds_map (finds_rule hfinds)
    exact reads_operator.mpr ⟨op, finds_symbol htoken⟩
  complete := fun cs rest _ hreads hfollows => by
    obtain ⟨op, rfl⟩ := reads_operator.mp hreads
    obtain ⟨c, w, hsymbol, hc, -⟩ := symbol_head op
    have hsolid : trimmed (op.symbol.toList ++ rest) = op.symbol.toList ++ rest :=
      trimmed_of_head (by rw [hsymbol]; rfl) hc
    rw [hsolid]
    exact (takes_operator op (not_prolongs_of_trimmed hfollows)).leaves

theorem count_of_open (h : Reads (.text "(") cs rest) (hless : cs.count '(' < bound + 1) :
    rest.count '(' < bound := by
  obtain rfl := reads_text.mp h
  simpa using hless

theorem accepts_grouped (h : Accepts nested .expression bound Stops) :
    Accepts (grouped nested) .grouped (bound + 1) fun _ => True := by
  have hclose : ∀ start inner, Accepts
      (do let _ ← symbol ")"; return Phrase.group ⟨start, ← position⟩ inner) (.text ")") bound
      fun _ => True :=
    fun start inner => (accepts_symbol rfl (by decide)).bind_still fun _ =>
      still_position fun _ => still_pure _
  have hopens : ∀ cs rest, Reads (.text ")") cs rest → True → Stops (trimmed cs) := by
    intro cs rest hreads _
    obtain rfl := reads_text.mp hreads
    exact stops_close rest
  refine Accepts.rule (Accepts.position_bind fun start => ?_)
  refine (accepts_symbol rfl (by decide)).spaced (fun _ => ?_) (fun _ _ => count_of_open)
    fun _ _ _ _ => trivial
  exact h.spaced (hclose start) (fun _ _ => Reads.count_lt) hopens

theorem accepts_arguments (h : Accepts nested .expression bound Stops) :
    Accepts (arguments nested) .arguments bound fun cs => cs.head? = some ')' := by
  have hmore : Repeats (do let _ ← symbol ","; skip; nested) (Pattern.spaced (.text ",") .expression)
      bound Stops fun cs => cs.head? = some ')' := by
    refine ⟨?_, ?_, ?_, ?_, ?_⟩
    · exact (accepts_symbol rfl (by decide)).spaced (fun _ => h) (fun _ _ => Reads.count_lt)
        fun _ _ _ _ => trivial
    · intro cs rest hreads
      obtain ⟨text, rfl⟩ := Reads.after_text hreads ',' rfl
      exact stops_comma _
    · intro cs hcs c hc
      cases hcs.symm.trans hc
      exact .inl rfl
    · intro cs hcs
      exact (refuses_symbol (c := ',') rfl (by simp [hcs])).bind
    · intro cs rest hreads
      obtain ⟨text, rfl⟩ := Reads.after_text hreads ',' rfl
      rw [trimmed_of_head rfl (by decide), List.length_cons, List.length_append]
      omega
  exact h.chain hmore

theorem accepts_argumentList (h : Accepts nested .expression bound Stops)
    (hempty : ∀ rest, Refuses nested (')' :: rest)) :
    Accepts (argumentList nested) .argumentList (bound + 1) fun _ => True := by
  have hargs : Accepts (optional (arguments nested)) (.opt .arguments) bound
      fun cs => cs.head? = some ')' := by
    refine (accepts_arguments h).optional fun cs hcs => ?_
    obtain ⟨tail, rfl⟩ := List.head?_eq_some_iff.mp hcs
    exact (hempty tail).bind
  refine (accepts_symbol rfl (by decide)).spaced (fun _ => ?_) (fun _ _ => count_of_open)
    fun _ _ _ _ => trivial
  refine hargs.spaced (fun found? => ?_) (fun _ _ => Reads.count_lt) ?_
  · exact (accepts_symbol rfl (by decide)).bind_still fun _ => still_pure _
  · intro cs rest hreads _
    obtain rfl := reads_text.mp hreads
    rw [trimmed_of_head rfl (by decide)]
    rfl

theorem ends_of_argumentList (hreads : Reads .argumentList cs rest) : Token.Ends (trimmed cs) := by
  obtain ⟨text, rfl⟩ := Reads.after_text hreads '(' rfl
  exact ends_open _

theorem accepts_methodCall (h : Accepts nested .expression bound Stops)
    (hempty : ∀ rest, Refuses nested (')' :: rest)) :
    Accepts (methodCall nested) .methodCall (bound + 1) fun _ => True := by
  refine Accepts.rule (Accepts.position_bind fun start => ?_)
  refine accepts_name.spaced (fun callee => ?_) (fun _ _ => Reads.count_lt)
    fun _ _ hreads _ => ends_of_argumentList hreads
  exact (accepts_argumentList h hempty).bind_still fun _ => still_position fun _ => still_pure _

theorem accepts_capabilityCall (h : Accepts nested .expression bound Stops)
    (hempty : ∀ rest, Refuses nested (')' :: rest)) :
    Accepts (capabilityCall nested) .capabilityCall (bound + 1) fun _ => True := by
  refine Accepts.rule (Accepts.position_bind fun start => ?_)
  refine (accepts_symbol rfl (by decide)).spaced (fun _ => ?_) (fun _ _ => Reads.count_lt)
    fun _ _ _ _ => trivial
  refine accepts_name.spaced (fun callee => ?_) (fun _ _ => Reads.count_lt)
    fun _ _ hreads _ => ends_of_argumentList hreads
  exact (accepts_argumentList h hempty).bind_still fun _ => still_position fun _ => still_pure _

theorem sound_literal {c c' : Cursor} {p : Phrase} (hfinds : Finds literal c p c') :
    Reads .literal c.rest c'.rest := by
  obtain ⟨m, hm, hfinds⟩ := finds_choice hfinds
  obtain ⟨kind, -, rfl⟩ := List.mem_map.mp hm
  obtain ⟨lexeme, htoken, -⟩ := finds_map (finds_rule hfinds)
  exact reads_literal.mpr ⟨kind, (finds_token htoken).1⟩

theorem accepts_primary (h : Accepts nested .expression bound Stops)
    (hempty : ∀ rest, Refuses nested (')' :: rest)) :
    Accepts (primary nested) .primary (bound + 1) Delimits := by
  have hgrouped := accepts_grouped h
  have hcapability := accepts_capabilityCall h hempty
  have hmethod := accepts_methodCall h hempty
  constructor
  · intro c p c' hfinds
    obtain ⟨m, hm, hfinds⟩ := finds_choice hfinds
    rw [Pattern.primary, reads_oneOf]
    simp only [List.mem_cons, List.not_mem_nil, or_false, exists_eq_or_imp, exists_eq_left] at hm ⊢
    rcases hm with rfl | rfl | rfl | rfl | rfl
    · exact .inl (hgrouped.sound c p c' hfinds)
    · exact .inr (.inl (hcapability.sound c p c' hfinds))
    · exact .inr (.inr (.inl (hmethod.sound c p c' hfinds)))
    · exact .inr (.inr (.inr (.inl (sound_literal hfinds))))
    · obtain ⟨lexeme, hname, -⟩ := finds_map hfinds
      have hsound : Accepts name .name bound Token.Ends := accepts_name
      exact .inr (.inr (.inr (.inr (hsound.sound c lexeme c' hname))))
  · intro cs rest hcount hreads hfollows
    have hclose := closes_of_delimits hfollows
    obtain ⟨d, more, heq, hd⟩ := begins_primary cs rest hreads
    have hsolid : trimmed cs = cs := trimmed_of_head (by rw [heq]; rfl) hd.solid
    rw [Pattern.primary, reads_oneOf] at hreads
    simp only [List.mem_cons, List.not_mem_nil, or_false, exists_eq_or_imp, exists_eq_left] at hreads
    rcases hreads with hreads | hreads | hreads | hreads | hreads
    · exact (hgrouped.complete cs rest hcount hreads trivial).orElse
    · have hleaves := hcapability.complete cs rest hcount hreads trivial
      obtain ⟨text, rfl⟩ := Reads.after_text hreads '@' rfl
      rw [hsolid] at hleaves ⊢
      exact (refuses_grouped (by simp)).orElse_yields hleaves.orElse
    · have hleaves := hmethod.complete cs rest hcount hreads trivial
      obtain ⟨c, text, rfl, hc⟩ := begins_name.next _ cs rest hreads
      have hne : ∀ e, Token.isNameStart e = false → (c :: (text ++ rest)).head? ≠ some e := by
        rintro e he heq
        cases heq
        simp [hc] at he
      rw [hsolid] at hleaves ⊢
      exact (refuses_grouped (hne '(' (by decide))).orElse_yields
        ((refuses_capabilityCall (hne '@' (by decide))).orElse_yields hleaves.orElse)
    · obtain ⟨kind, hscan⟩ := reads_literal.mp hreads
      rw [hsolid]
      exact leaves_literal hscan hclose
    · obtain ⟨n, hname, rfl⟩ := reads_name.mp hreads
      rw [hsolid]
      exact leaves_name hname hclose

theorem accepts_expressionOver (h : Accepts nested .expression bound Stops)
    (hempty : ∀ rest, Refuses nested (')' :: rest)) :
    Accepts (expressionOver nested) .expression (bound + 1) Stops := by
  have hprimary := accepts_primary h hempty
  have hmore : Repeats
      (do let op ← operator; skip; let operand ← primary nested; return (op, operand))
      (Pattern.spaced .operator .primary) (bound + 1) Delimits Stops := by
    have hbegins : ∀ cs rest, Reads (Pattern.spaced .operator .primary) cs rest →
        Delimits (trimmed cs) ∧ rest.length < (trimmed cs).length := by
      intro cs rest hreads
      obtain ⟨mid, hop, hbehind⟩ := reads_next.mp hreads
      obtain ⟨op, rfl⟩ := reads_operator.mp hop
      obtain ⟨c, w, hsymbol, hspace, hc⟩ := symbol_delimits op
      have hlength := hbehind.suffix.length_le
      rw [hsymbol, List.cons_append, trimmed_of_head rfl hspace]
      refine ⟨?_, ?_⟩
      · rintro d ⟨⟩
        exact hc
      · rw [List.length_cons, List.length_append]
        omega
    refine ⟨?_, ?_, ?_, ?_, ?_⟩
    · refine accepts_operator.spaced (fun op => hprimary.bind_still fun _ => still_pure _)
        (fun _ _ => Reads.count_lt) ?_
      intro cs rest hreads _
      obtain ⟨c, text, rfl, hc⟩ := begins_primary cs rest hreads
      rw [trimmed_of_head rfl hc.solid]
      rintro d ⟨⟩
      exact hc.not_prolongs
    · exact fun cs rest hreads => (hbegins cs rest hreads).1
    · exact fun cs => Stops.delimits
    · exact fun cs hcs => (refuses_operator hcs).bind
    · exact fun cs rest hreads => (hbegins cs rest hreads).2
  have hchain := hprimary.chain (f := Phrase.ofChain) hmore
  refine Accepts.rule ⟨fun c p c' hfinds => .expression (hchain.sound c p c' hfinds), ?_⟩
  exact fun cs rest hcount hreads => hchain.complete cs rest hcount (reads_expression.mp hreads)

theorem accepts_expression (depth : Nat) : Accepts (expression depth) .expression depth Stops := by
  induction depth with
  | zero =>
    refine ⟨?_, fun cs rest hcount => absurd hcount (Nat.not_lt_zero _)⟩
    rintro c p c' ⟨far, hfinds⟩
    cases hfinds
  | succ depth ih => exact accepts_expressionOver ih (refuses_expression_close depth)

theorem accepts_endOfInput : Accepts endOfInput .endOfInput bound fun _ => True := by
  refine Accepts.rule ⟨?_, ?_⟩
  · rintro c u c' ⟨far, hfinds⟩
    simp only at hfinds
    split at hfinds
    · next hempty =>
      cases hfinds
      exact reads_endOfInput.mpr (by simpa using hempty)
    · cases hfinds
  · intro cs rest _ hreads _ position far
    obtain ⟨rfl, rfl⟩ := reads_endOfInput.mp hreads
    exact ⟨(), _, rfl, rfl, trivial⟩

/-- A whole text is matched exactly if it has a reading. -/
theorem phrase_isOk_iff (source : List Char) :
    (∃ p, phrase source = .ok p) ↔ Reads .main source [] := by
  have hbehind : Accepts (do let p ← expression (depthOf source); skip; endOfInput; return p)
      (Pattern.spaced .expression .endOfInput) (depthOf source) fun _ => True := by
    refine (accepts_expression _).spaced (fun p => ?_) (fun _ _ => Reads.count_lt) ?_
    · exact accepts_endOfInput.bind_still fun _ => still_pure p
    · intro cs rest hreads _
      obtain ⟨rfl, -⟩ := reads_endOfInput.mp hreads
      exact stops_nil
  constructor
  · rintro ⟨p, hp⟩
    obtain ⟨c', hfinds⟩ := finds_phrase hp
    obtain ⟨_, c₁, hskip, hfinds⟩ := finds_bind (finds_rule hfinds)
    have hreads := hbehind.sound c₁ p c' hfinds
    obtain ⟨_, _, _, _, hend⟩ := reads_spaced.mp hreads
    rw [(reads_endOfInput.mp hend).2] at hreads
    exact .next (reads_empty.mpr rfl) (.next (reads_of_skip hskip) hreads)
  · intro hmain
    obtain ⟨after, before, hempty, hblanks, hreads⟩ := reads_spaced.mp hmain
    obtain rfl := reads_empty.mp hempty
    have hcount : before.count '(' < depthOf after := hblanks.count_lt (Nat.lt_succ_self _)
    have hleaves := hbehind.complete before [] hcount hreads trivial
    rw [← hblanks.trimmed_eq] at hleaves
    obtain ⟨p, c', hrun, -⟩ := (Yields.skip_bind hleaves).rule (r := .main) 0 {}
    exact ⟨p, phrase_of_run hrun⟩

end Grammar

end GuardCode
