import GuardCode.Grammar.Matcher
import GuardCode.Proofs.Grammar.Tokens

/-! What matchers do, apart from positions and from the record of failures, neither of which decides
a match. `Takes` and `Refuses` hold whatever is on record and are built up along the grammar;
`Finds` and `Misses` are about one run and are taken apart along the grammar. -/
namespace GuardCode.Matcher

variable {α β γ : Type}

/-- Before `rest` the matcher takes exactly `text`, and what it finds is as said. -/
def Takes (m : Matcher α) (text rest : List Char) (found : α → Prop) : Prop :=
  ∀ position, ∃ a after, found a ∧
    ∀ far, (m ⟨text ++ rest, position⟩ far).1 = some (a, ⟨rest, after⟩)

def Refuses (m : Matcher α) (rest : List Char) : Prop :=
  ∀ position far, (m ⟨rest, position⟩ far).1 = none

/-- Some run of the matcher ends with a match. -/
def Finds (m : Matcher α) (c : Cursor) (a : α) (c' : Cursor) : Prop :=
  ∃ far, (m c far).1 = some (a, c')

def Misses (m : Matcher α) (c : Cursor) : Prop :=
  ∃ far, (m c far).1 = none

/-! One run of the combined matchers. -/

section Runs

variable {m k : Matcher α} {next : α → Matcher β} {c : Cursor} {far : Furthest}

theorem bind_of_some {a : α} {c' : Cursor} (h : (m c far).1 = some (a, c')) :
    (m >>= next) c far = next a c' (m c far).2 := by
  simp only [bind]
  generalize m c far = outcome at h ⊢
  obtain ⟨found?, far'⟩ := outcome
  subst h
  rfl

theorem bind_of_none (h : (m c far).1 = none) : ((m >>= next) c far).1 = none := by
  simp only [bind]
  generalize m c far = outcome at h ⊢
  obtain ⟨found?, far'⟩ := outcome
  subst h
  rfl

theorem orElse_of_some {found : α × Cursor} (h : (m c far).1 = some found) :
    (orElse m k c far).1 = some found := by
  simp only [orElse]
  generalize m c far = outcome at h ⊢
  obtain ⟨found?, far'⟩ := outcome
  subst h
  rfl

theorem orElse_of_none (h : (m c far).1 = none) : orElse m k c far = k c (m c far).2 := by
  simp only [orElse]
  generalize m c far = outcome at h ⊢
  obtain ⟨found?, far'⟩ := outcome
  subst h
  rfl

@[simp] theorem rule_fst (r : Rule) : (rule r m c far).1 = (m c far).1 := by
  simp only [rule]
  generalize m c far = outcome
  obtain ⟨found?, far'⟩ := outcome
  cases found? <;> rfl

theorem map_eq_bind (f : α → β) : f <$> m = m >>= fun a => pure (f a) := rfl

theorem choice_cons (ms : List (Matcher α)) : choice (m :: ms) = orElse m (choice ms) := rfl

end Runs

/-! What a matcher takes. -/

section Takes

variable {m k : Matcher α} {next : α → Matcher β} {text others rest : List Char}
  {found : α → Prop} {then? : β → Prop}

theorem Takes.mono {found' : α → Prop} (h : Takes m text rest found)
    (himp : ∀ a, found a → found' a) : Takes m text rest found' := by
  intro position
  obtain ⟨a, after, ha, hrun⟩ := h position
  exact ⟨a, after, himp a ha, hrun⟩

theorem takes_pure {a : α} (h : found a) : Takes (pure a) [] rest found :=
  fun position => ⟨a, position, h, fun _ => rfl⟩

theorem Takes.bind (h : Takes m text (others ++ rest) found)
    (hnext : ∀ a, found a → Takes (next a) others rest then?) :
    Takes (m >>= next) (text ++ others) rest then? := by
  intro position
  obtain ⟨a, between, ha, hrun⟩ := h position
  obtain ⟨b, after, hb, hrun'⟩ := hnext a ha between
  refine ⟨b, after, hb, fun far => ?_⟩
  rw [List.append_assoc, bind_of_some (hrun far)]
  exact hrun' _

/-- The first part takes all of the text. -/
theorem Takes.bind_nil (h : Takes m text rest found)
    (hnext : ∀ a, found a → Takes (next a) [] rest then?) :
    Takes (m >>= next) text rest then? := by
  have hbind : Takes (m >>= next) (text ++ []) rest then? := Takes.bind h hnext
  rwa [List.append_nil] at hbind

theorem Takes.map {f : α → β} (h : Takes m text rest found) (hf : ∀ a, found a → then? (f a)) :
    Takes (f <$> m) text rest then? := by
  rw [map_eq_bind]
  exact h.bind_nil fun a ha => takes_pure (hf a ha)

theorem Takes.rule {r : Rule} (h : Takes m text rest found) :
    Takes (rule r m) text rest found := by
  intro position
  obtain ⟨a, after, ha, hrun⟩ := h position
  exact ⟨a, after, ha, fun far => by rw [rule_fst, hrun far]⟩

theorem Takes.orElse (h : Takes m text rest found) : Takes (orElse m k) text rest found := by
  intro position
  obtain ⟨a, after, ha, hrun⟩ := h position
  exact ⟨a, after, ha, fun far => orElse_of_some (hrun far)⟩

theorem Refuses.orElse_takes (hm : Refuses m (text ++ rest)) (hk : Takes k text rest found) :
    Takes (Matcher.orElse m k) text rest found := by
  intro position
  obtain ⟨a, after, ha, hrun⟩ := hk position
  refine ⟨a, after, ha, fun far => ?_⟩
  rw [orElse_of_none (hm position far)]
  exact hrun _

theorem takes_token {scan : List Char → Option (List Char)} (h : scan (text ++ rest) = some rest) :
    Takes (token scan) text rest fun lexeme => lexeme.text = text := by
  intro position
  have hrun : ∀ far, (token scan ⟨text ++ rest, position⟩ far).1 =
      some (Cursor.lexeme ⟨text ++ rest, position⟩ (Cursor.advance ⟨text ++ rest, position⟩ rest),
        Cursor.advance ⟨text ++ rest, position⟩ rest) := by
    intro far
    simp only [token, h]
  exact ⟨_, _, by simp [Cursor.lexeme, Cursor.advance], hrun⟩

theorem takes_skip {blanks : List Char} (hblanks : blanks.all Token.isSpace)
    (hrest : rest.dropWhile Token.isSpace = rest) :
    Takes skip blanks rest fun _ => True := by
  intro position
  have hdrop : (blanks ++ rest).dropWhile Token.isSpace = rest := by
    rw [List.dropWhile_append_of_pos (by simpa using hblanks), hrest]
  have hrun : ∀ far, (skip ⟨blanks ++ rest, position⟩ far).1 =
      some ((), Cursor.advance ⟨blanks ++ rest, position⟩ rest) := by
    intro far
    simp only [skip, Cursor.skip, hdrop]
  exact ⟨(), _, trivial, hrun⟩

theorem Takes.position_bind {next : Nat → Matcher β} (h : ∀ n, Takes (next n) text rest then?) :
    Takes (position >>= next) text rest then? :=
  fun position => h position position

/-- Nothing is skipped where no blank comes next. -/
theorem Takes.skip_bind {next : Matcher β}
    (hsolid : (text ++ rest).dropWhile Token.isSpace = text ++ rest)
    (h : Takes next text rest then?) : Takes (skip >>= fun _ => next) text rest then? := by
  have hskip : Takes skip [] (text ++ rest) fun _ => True := takes_skip rfl hsolid
  exact hskip.bind fun _ _ => h

theorem Takes.blank_bind {next : Matcher β}
    (hsolid : (text ++ rest).dropWhile Token.isSpace = text ++ rest)
    (h : Takes next text rest then?) : Takes (skip >>= fun _ => next) (' ' :: text) rest then? := by
  have hskip : Takes skip [' '] (text ++ rest) fun _ => True := takes_skip rfl hsolid
  exact hskip.bind fun _ _ => h

theorem Takes.symbol_bind {symbol : String} {c : Char} {next : Matcher β}
    (hsymbol : symbol.toList = [c]) (h : Takes next text rest then?) :
    Takes (Matcher.symbol symbol >>= fun _ => next) (c :: text) rest then? := by
  have hword : Token.word symbol.toList (symbol.toList ++ (text ++ rest)) = some (text ++ rest) :=
    Token.word_append _ _
  rw [← List.singleton_append, ← hsymbol]
  exact (takes_token hword).bind fun _ _ => h

theorem takes_optional_none (h : Refuses m rest) :
    Takes (optional m) [] rest fun found? => found? = none := by
  refine Refuses.orElse_takes ?_ (takes_pure rfl)
  intro position far
  exact bind_of_none (h position far)

theorem Takes.optional (h : Takes m text rest found) :
    Takes (optional m) text rest fun found? => ∃ a, found? = some a ∧ found a :=
  (h.map fun a ha => ⟨a, rfl, ha⟩).orElse

end Takes

/-! What a matcher refuses. -/

section Refuses

variable {m k : Matcher α} {next : α → Matcher β} {text rest : List Char} {found : α → Prop}

theorem Refuses.bind (h : Refuses m rest) : Refuses (m >>= next) rest :=
  fun position far => bind_of_none (h position far)

theorem Refuses.map {f : α → β} (h : Refuses m rest) : Refuses (f <$> m) rest := h.bind

theorem Takes.bind_refuses (h : Takes m text rest found)
    (hnext : ∀ a, found a → Refuses (next a) rest) : Refuses (m >>= next) (text ++ rest) := by
  intro position far
  obtain ⟨a, after, ha, hrun⟩ := h position
  rw [bind_of_some (hrun far)]
  exact hnext a ha _ _

theorem Refuses.rule {r : Rule} (h : Refuses m rest) : Refuses (rule r m) rest :=
  fun position far => by rw [rule_fst, h position far]

theorem Refuses.orElse (hm : Refuses m rest) (hk : Refuses k rest) :
    Refuses (orElse m k) rest := by
  intro position far
  rw [orElse_of_none (hm position far)]
  exact hk _ _

theorem refuses_failure : Refuses (failure : Matcher α) rest := fun _ _ => rfl

theorem Refuses.position_bind {next : Nat → Matcher β} (h : ∀ n, Refuses (next n) rest) :
    Refuses (position >>= next) rest :=
  fun position => h position position

theorem Refuses.skip_bind {next : Matcher β} (h : Refuses next (rest.dropWhile Token.isSpace)) :
    Refuses (skip >>= fun _ => next) rest := by
  intro position far
  rw [bind_of_some (m := skip) rfl]
  exact h _ _

theorem refuses_choice {ms : List (Matcher α)} (h : ∀ m ∈ ms, Refuses m rest) :
    Refuses (choice ms) rest := by
  induction ms with
  | nil => exact refuses_failure
  | cons m ms ih =>
    exact (h m List.mem_cons_self).orElse (ih fun k hk => h k (List.mem_cons_of_mem _ hk))

/-- In a choice, one option is taken where those before it refuse. -/
theorem takes_choice [DecidableEq β] {option : β → Matcher α} {options : List β} {b : β}
    (hb : b ∈ options)
    (hbefore : ∀ b' ∈ options.takeWhile (· ≠ b), Refuses (option b') (text ++ rest))
    (h : Takes (option b) text rest found) :
    Takes (choice (options.map option)) text rest found := by
  induction options with
  | nil => cases hb
  | cons b' options ih =>
    rw [List.map_cons, choice_cons]
    by_cases heq : b' = b
    · rw [heq]
      exact h.orElse
    · have htake : (b' :: options).takeWhile (· ≠ b) = b' :: options.takeWhile (· ≠ b) :=
        List.takeWhile_cons_of_pos (by simpa using heq)
      rw [htake, List.forall_mem_cons] at hbefore
      have hmem : b ∈ options := by
        rcases List.mem_cons.mp hb with rfl | hmem
        · exact absurd rfl heq
        · exact hmem
      exact hbefore.1.orElse_takes (ih hmem hbefore.2)

theorem refuses_token {scan : List Char → Option (List Char)} (h : scan rest = none) :
    Refuses (token scan) rest := by
  intro position far
  simp only [token, h]

end Refuses

/-! Repetition: each of `items` is spelled as `lead`, which is blank, and a body. -/

section Repetition

variable {m : Matcher α} {items : List β} {lead rest : List Char} {body : β → List Char}
  {view : α → γ} {image : β → γ} {follows : List Char → Prop}

/-- The text of all items. -/
def spelled (lead : List Char) (body : β → List Char) (items : List β) : List Char :=
  items.flatMap fun item => lead ++ body item

theorem spelled_cons (item : β) (items : List β) :
    spelled lead body (item :: items) = lead ++ (body item ++ spelled lead body items) := by
  simp [spelled]

/-- What an item needs to be taken where others or the rest follow. -/
structure Repeatable (m : Matcher α) (lead : List Char) (body : β → List Char) (view : α → γ)
    (image : β → γ) (follows : List Char → Prop) (items : List β) : Prop where
  blank : lead.all Token.isSpace
  nonempty : ∀ item ∈ items, body item ≠ []
  solid : ∀ item ∈ items, ∀ after,
    (body item ++ after).dropWhile Token.isSpace = body item ++ after
  opens : ∀ item ∈ items, ∀ after, follows (lead ++ (body item ++ after))
  takes : ∀ item ∈ items, ∀ after, follows after →
    Takes m (body item) after fun a => view a = image item

theorem Repeatable.tail {item : β}
    (h : Repeatable m lead body view image follows (item :: items)) :
    Repeatable m lead body view image follows items where
  blank := h.blank
  nonempty := fun b hb => h.nonempty b (List.mem_cons_of_mem _ hb)
  solid := fun b hb => h.solid b (List.mem_cons_of_mem _ hb)
  opens := fun b hb => h.opens b (List.mem_cons_of_mem _ hb)
  takes := fun b hb => h.takes b (List.mem_cons_of_mem _ hb)

theorem Repeatable.follows_spelled (h : Repeatable m lead body view image follows items)
    (hrest : follows rest) : follows (spelled lead body items ++ rest) := by
  cases items with
  | nil => exact hrest
  | cons item items =>
    rw [spelled_cons, List.append_assoc, List.append_assoc]
    exact h.opens item List.mem_cons_self _

theorem Repeatable.length_le (h : Repeatable m lead body view image follows items) :
    items.length ≤ (spelled lead body items).length := by
  induction items with
  | nil => simp
  | cons item items ih =>
    have hpos := List.length_pos_iff.2 (h.nonempty item List.mem_cons_self)
    have hrest := ih h.tail
    simp only [spelled_cons, List.length_append, List.length_cons]
    omega

/-- One item and, by `hothers`, those after it. -/
theorem Repeatable.takes_cons {item : β} {others : Matcher (List α)}
    (h : Repeatable m lead body view image follows (item :: items)) (hrest : follows rest)
    (hothers : Takes others (spelled lead body items) rest fun as => as.map view = items.map image) :
    Takes (do let first ← m; let others ← others; return first :: others)
      (body item ++ spelled lead body items) rest
      fun as => as.map view = (item :: items).map image := by
  refine (h.takes item List.mem_cons_self _ (h.tail.follows_spelled hrest)).bind ?_
  intro a ha
  refine hothers.bind_nil ?_
  intro as has
  exact takes_pure (by simp [ha, has])

theorem takes_repeated (h : Repeatable m lead body view image follows items)
    (hrest : follows rest) (hstop : Refuses m (rest.dropWhile Token.isSpace)) {bound : Nat}
    (hbound : items.length < bound) :
    Takes (repeated m bound) (spelled lead body items) rest
      fun as => as.map view = items.map image := by
  induction items generalizing bound with
  | nil =>
    obtain ⟨bound, rfl⟩ := Nat.exists_eq_succ_of_ne_zero (Nat.ne_of_gt hbound)
    exact hstop.bind.skip_bind.orElse_takes (takes_pure rfl)
  | cons item items ih =>
    obtain ⟨bound, rfl⟩ := Nat.exists_eq_succ_of_ne_zero (Nat.ne_of_gt (Nat.zero_lt_of_lt hbound))
    have hothers := ih h.tail (Nat.lt_of_succ_lt_succ hbound)
    have hsolid := h.solid item List.mem_cons_self (spelled lead body items ++ rest)
    rw [spelled_cons]
    refine Takes.orElse ((takes_skip h.blank ?_).bind fun _ _ => h.takes_cons hrest hothers)
    rw [List.append_assoc, hsolid]

theorem takes_followers (h : Repeatable m lead body view image follows items)
    (hrest : follows rest) (hsolid : rest.dropWhile Token.isSpace = rest) (hstop : Refuses m rest) :
    Takes (followers m) (spelled lead body items) rest
      fun as => as.map view = items.map image := by
  cases items with
  | nil =>
    have hskip : Takes skip [] rest fun _ => True := takes_skip rfl hsolid
    refine hskip.bind_nil fun _ _ => ?_
    exact hstop.bind.orElse_takes (takes_pure rfl)
  | cons item items =>
    rw [spelled_cons]
    refine (takes_skip h.blank ?_).bind fun _ _ => (h.takes_cons hrest ?_).orElse
    · rw [List.append_assoc, h.solid item List.mem_cons_self]
    · have hlength := h.tail.length_le
      have hbound : items.length < (spelled lead body items ++ rest).length + 1 := by
        rw [List.length_append]
        omega
      exact takes_repeated h.tail hrest (by rwa [hsolid]) hbound

end Repetition

/-! One run of the grammar taken apart. -/

section Finds

variable {m k : Matcher α} {next : α → Matcher β} {c c' : Cursor} {a : α} {b : β}

theorem finds_bind (h : Finds (m >>= next) c b c') :
    ∃ a between, Finds m c a between ∧ Finds (next a) between b c' := by
  obtain ⟨far, h⟩ := h
  cases hm : (m c far).1 with
  | none =>
    rw [bind_of_none hm] at h
    cases h
  | some found =>
    obtain ⟨a, between⟩ := found
    rw [bind_of_some hm] at h
    exact ⟨a, between, ⟨far, hm⟩, _, h⟩

theorem finds_pure {found : α} (h : Finds (pure a) c found c') : found = a ∧ c' = c := by
  obtain ⟨far, h⟩ := h
  cases h
  exact ⟨rfl, rfl⟩

theorem finds_map {f : α → β} (h : Finds (f <$> m) c b c') : ∃ a, Finds m c a c' ∧ b = f a := by
  obtain ⟨a, between, hm, hpure⟩ := finds_bind h
  obtain ⟨rfl, rfl⟩ := finds_pure hpure
  exact ⟨a, hm, rfl⟩

theorem finds_orElse (h : Finds (orElse m k) c a c') :
    Finds m c a c' ∨ Misses m c ∧ Finds k c a c' := by
  obtain ⟨far, h⟩ := h
  cases hm : (m c far).1 with
  | none =>
    rw [orElse_of_none hm] at h
    exact .inr ⟨⟨far, hm⟩, _, h⟩
  | some found =>
    rw [orElse_of_some hm] at h
    exact .inl ⟨far, hm.trans h⟩

theorem finds_choice {ms : List (Matcher α)} (h : Finds (choice ms) c a c') :
    ∃ m ∈ ms, Finds m c a c' := by
  induction ms with
  | nil =>
    obtain ⟨far, h⟩ := h
    cases h
  | cons m ms ih =>
    rcases finds_orElse h with h | ⟨-, h⟩
    · exact ⟨m, List.mem_cons_self, h⟩
    · obtain ⟨k, hk, h⟩ := ih h
      exact ⟨k, List.mem_cons_of_mem _ hk, h⟩

theorem finds_rule {r : Rule} (h : Finds (rule r m) c a c') : Finds m c a c' := by
  obtain ⟨far, h⟩ := h
  exact ⟨far, by rwa [rule_fst] at h⟩

theorem finds_token {scan : List Char → Option (List Char)} {lexeme : Lexeme}
    (h : Finds (token scan) c lexeme c') :
    scan c.rest = some c'.rest ∧
      lexeme.text = c.rest.take (c.rest.length - c'.rest.length) := by
  obtain ⟨far, h⟩ := h
  simp only [token] at h
  split at h
  · next rest hscan =>
    cases h
    exact ⟨hscan, rfl⟩
  · cases h

theorem finds_skip {u : Unit} (h : Finds skip c u c') :
    c'.rest = c.rest.dropWhile Token.isSpace := by
  obtain ⟨far, h⟩ := h
  cases h
  rfl

theorem finds_position {n : Nat} (h : Finds position c n c') : c' = c := by
  obtain ⟨far, h⟩ := h
  cases h
  rfl

theorem finds_position_eq {n : Nat} (h : Finds position c n c') : n = c.position := by
  obtain ⟨far, h⟩ := h
  cases h
  rfl

theorem misses_orElse (h : Misses (orElse m k) c) : Misses m c ∧ Misses k c := by
  obtain ⟨far, h⟩ := h
  cases hm : (m c far).1 with
  | none =>
    rw [orElse_of_none hm] at h
    exact ⟨⟨far, hm⟩, _, h⟩
  | some found =>
    rw [orElse_of_some hm] at h
    cases h

theorem misses_choice {ms : List (Matcher α)} (h : Misses (choice ms) c) :
    ∀ m ∈ ms, Misses m c := by
  induction ms with
  | nil => nofun
  | cons m ms ih =>
    obtain ⟨hm, hms⟩ := misses_orElse h
    exact List.forall_mem_cons.mpr ⟨hm, ih hms⟩

theorem misses_rule {r : Rule} (h : Misses (rule r m) c) : Misses m c := by
  obtain ⟨far, h⟩ := h
  exact ⟨far, by rwa [rule_fst] at h⟩

theorem misses_map {f : α → β} (h : Misses (f <$> m) c) : Misses m c := by
  obtain ⟨far, h⟩ := h
  cases hm : (m c far).1 with
  | none => exact ⟨far, hm⟩
  | some found =>
    rw [map_eq_bind, bind_of_some hm] at h
    cases h

theorem misses_token {scan : List Char → Option (List Char)} (h : Misses (token scan) c) :
    scan c.rest = none := by
  obtain ⟨far, h⟩ := h
  simp only [token] at h
  split at h
  · cases h
  · assumption

/-- What holds before a repetition exactly if it holds after it and of everything that was found,
given that blanks change nothing and that it is so for every single match. -/
theorem finds_repeated (keeps : List Char → Prop) (each : α → Prop)
    (hskip : ∀ cs, keeps (cs.dropWhile Token.isSpace) ↔ keeps cs)
    (hm : ∀ {c a c'}, Finds m c a c' → (keeps c.rest ↔ keeps c'.rest ∧ each a)) {bound : Nat}
    {as : List α} (h : Finds (repeated m bound) c as c') :
    keeps c.rest ↔ keeps c'.rest ∧ ∀ a ∈ as, each a := by
  induction bound generalizing c as with
  | zero =>
    obtain ⟨rfl, rfl⟩ := finds_pure h
    simp
  | succ bound ih =>
    rcases finds_orElse h with hstep | ⟨-, hstop⟩
    · obtain ⟨_, c₁, hblank, hstep⟩ := finds_bind hstep
      obtain ⟨first, c₂, hfirst, hstep⟩ := finds_bind hstep
      obtain ⟨others, c₃, hothers, hpure⟩ := finds_bind hstep
      obtain ⟨rfl, rfl⟩ := finds_pure hpure
      rw [← hskip, ← finds_skip hblank, hm hfirst, ih hothers, List.forall_mem_cons, and_assoc,
        and_comm (b := each first)]
    · obtain ⟨rfl, rfl⟩ := finds_pure hstop
      simp

theorem finds_followers (keeps : List Char → Prop) (each : α → Prop)
    (hskip : ∀ cs, keeps (cs.dropWhile Token.isSpace) ↔ keeps cs)
    (hm : ∀ {c a c'}, Finds m c a c' → (keeps c.rest ↔ keeps c'.rest ∧ each a)) {as : List α}
    (h : Finds (followers m) c as c') : keeps c.rest ↔ keeps c'.rest ∧ ∀ a ∈ as, each a := by
  obtain ⟨_, c₁, hblank, hrest⟩ := finds_bind h
  rw [← hskip, ← finds_skip hblank]
  rcases finds_orElse hrest with hstep | ⟨-, hstop⟩
  · obtain ⟨first, c₂, hfirst, hstep⟩ := finds_bind hstep
    obtain ⟨others, c₃, ⟨far, hothers⟩, hpure⟩ := finds_bind hstep
    obtain ⟨rfl, rfl⟩ := finds_pure hpure
    have hrepeated := finds_repeated keeps each hskip hm ⟨far, hothers⟩
    rw [hm hfirst, hrepeated, List.forall_mem_cons, and_assoc, and_comm (b := each first)]
  · obtain ⟨rfl, rfl⟩ := finds_pure hstop
    simp

end Finds

end GuardCode.Matcher
