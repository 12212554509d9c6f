import GuardCode.Proofs.Grammar.Matching
import GuardCode.Proofs.Grammar.Patterns

/-! When a matcher accepts exactly what a pattern can read. Choices are final and repetitions never
stop early, so a matcher misses no reading only if the text behind it is as expected; each combination
of matchers says what its parts may expect. -/
namespace GuardCode

open Pattern (Reads blanks spaced)

/-- A text from its first character on that is no blank. -/
def trimmed (cs : List Char) : List Char := cs.dropWhile Token.isSpace

theorem trimmed_of_head {cs : List Char} {c : Char} (h : cs.head? = some c)
    (hc : Token.isSpace c = false) : trimmed cs = cs := by
  obtain ⟨tail, rfl⟩ := List.head?_eq_some_iff.mp h
  exact List.dropWhile_cons_of_neg (by simp [hc])

theorem head_trimmed {cs : List Char} {c : Char} (h : cs.head? = some c) :
    Token.isSpace c = true ∨ (trimmed cs).head? = some c := by
  cases hc : Token.isSpace c with
  | true => exact .inl rfl
  | false =>
    rw [trimmed_of_head h hc]
    exact .inr h

@[simp] theorem trimmed_trimmed (cs : List Char) : trimmed (trimmed cs) = trimmed cs := by
  cases h : (trimmed cs).head? with
  | none => simp_all [trimmed]
  | some c =>
    have hhead := List.head?_dropWhile_not Token.isSpace cs
    rw [trimmed] at h
    rw [h] at hhead
    exact trimmed_of_head h (by simpa using hhead)

theorem length_trimmed_le (cs : List Char) : (trimmed cs).length ≤ cs.length :=
  (List.dropWhile_suffix _).length_le

theorem reads_blanks_trimmed (cs : List Char) : Reads blanks cs (trimmed cs) :=
  Pattern.reads_many_one.mpr
    ⟨cs.takeWhile Token.isSpace, List.all_takeWhile, List.takeWhile_append_dropWhile.symm⟩

theorem Pattern.Reads.trimmed_eq {cs rest : List Char} (h : Reads blanks cs rest) :
    trimmed cs = trimmed rest := by
  obtain ⟨run, hrun, rfl⟩ := Pattern.reads_many_one.mp h
  exact List.dropWhile_append_of_pos (by simpa using hrun)

theorem Pattern.Reads.count_le {p : Pattern} {cs rest : List Char} (h : Reads p cs rest)
    (c : Char) : rest.count c ≤ cs.count c :=
  h.suffix.sublist.count_le c

theorem Pattern.Reads.count_lt {p : Pattern} {cs rest : List Char} {c : Char} {bound : Nat}
    (h : Reads p cs rest) (hless : cs.count c < bound) : rest.count c < bound :=
  Nat.lt_of_le_of_lt (h.count_le c) hless

namespace Matcher

variable {α β γ : Type}

/-- On this text the matcher finds something as said and leaves the given rest, blanks in front of it
apart. -/
def Yields (m : Matcher α) (cs rest : List Char) (found : α → Prop) : Prop :=
  ∀ position far, ∃ a c', (m ⟨cs, position⟩ far).1 = some (a, c') ∧
    trimmed c'.rest = trimmed rest ∧ found a

/-- The same whatever is found. -/
abbrev Leaves (m : Matcher α) (cs rest : List Char) : Prop := Yields m cs rest fun _ => True

/-- A matcher that succeeds without taking anything. -/
def Still (m : Matcher α) : Prop := ∀ c far, ∃ a, (m c far).1 = some (a, c)

theorem still_pure (a : α) : Still (pure a) := fun _ _ => ⟨a, rfl⟩

theorem still_position {next : Nat → Matcher α} (h : ∀ n, Still (next n)) :
    Still (position >>= next) :=
  fun c far => h c.position c far

section Yields

variable {m k : Matcher α} {cs mid rest : List Char} {found : α → Prop} {then? : β → Prop}

theorem Yields.mono {found' : α → Prop} (h : Yields m cs rest found)
    (himp : ∀ a, found a → found' a) : Yields m cs rest found' := by
  intro position far
  obtain ⟨a, c', hrun, htrim, ha⟩ := h position far
  exact ⟨a, c', hrun, htrim, himp a ha⟩

/-- Blanks in front of the rest do not count. -/
theorem Yields.trans (h : Yields m cs mid found) (heq : trimmed mid = trimmed rest) :
    Yields m cs rest found := by
  intro position far
  obtain ⟨a, c', hrun, htrim, ha⟩ := h position far
  exact ⟨a, c', hrun, htrim.trans heq, ha⟩

theorem Takes.yields {text : List Char} (h : Takes m text rest found) :
    Yields m (text ++ rest) rest found := by
  intro position far
  obtain ⟨a, after, ha, hrun⟩ := h position
  exact ⟨a, _, hrun far, rfl, ha⟩

theorem Takes.leaves {text : List Char} (h : Takes m text rest found) :
    Leaves m (text ++ rest) rest :=
  h.yields.mono fun _ _ => trivial

theorem yields_pure {a : α} (h : found a) (cs : List Char) : Yields (pure a) cs cs found :=
  fun _ _ => ⟨a, _, rfl, rfl, h⟩

theorem Yields.bind {next : α → Matcher β} (h : Yields m cs mid found)
    (hnext : ∀ a, found a → ∀ start, trimmed start = trimmed mid → Yields (next a) start rest then?) :
    Yields (m >>= next) cs rest then? := by
  intro position far
  obtain ⟨a, c', hrun, htrim, ha⟩ := h position far
  rw [bind_of_some hrun]
  exact hnext a ha c'.rest htrim c'.position _

/-- The last part, behind which the result is put together. -/
theorem Yields.map {f : α → β} (h : Yields m cs rest found) (hf : ∀ a, found a → then? (f a)) :
    Yields (m >>= fun a => pure (f a)) cs rest then? :=
  h.bind fun a ha start hstart => (yields_pure (hf a ha) start).trans hstart

theorem Yields.skip_bind {next : Matcher β} (h : Yields next (trimmed cs) rest then?) :
    Yields (skip >>= fun _ => next) cs rest then? := by
  intro position far
  rw [bind_of_some (m := skip) rfl]
  exact h _ _

theorem Leaves.bind_still {next : α → Matcher β} (h : Leaves m cs rest)
    (hnext : ∀ a, Still (next a)) : Leaves (m >>= next) cs rest := by
  refine h.bind fun a _ start hstart position far => ?_
  obtain ⟨b, hstill⟩ := hnext a ⟨start, position⟩ far
  exact ⟨b, _, hstill, hstart, trivial⟩

theorem Yields.rule {r : Rule} (h : Yields m cs rest found) : Yields (rule r m) cs rest found := by
  intro position far
  rw [rule_fst]
  exact h position far

theorem Yields.orElse (h : Yields m cs rest found) : Yields (orElse m k) cs rest found := by
  intro position far
  obtain ⟨a, c', hrun, htrim, ha⟩ := h position far
  exact ⟨a, c', orElse_of_some hrun, htrim, ha⟩

theorem Refuses.orElse_yields (hm : Refuses m cs) (hk : Yields k cs rest found) :
    Yields (Matcher.orElse m k) cs rest found := by
  intro position far
  rw [orElse_of_none (hm position far)]
  exact hk position _

end Yields

/-- A matcher that finds what a pattern can read, and misses no reading with fewer than so many
parentheses in the text and with the right text behind it. -/
structure Accepts (m : Matcher α) (p : Pattern) (bound : Nat) (follows : List Char → Prop) :
    Prop where
  sound : ∀ c a c', Finds m c a c' → Reads p c.rest c'.rest
  complete : ∀ cs rest, cs.count '(' < bound → Reads p cs rest → follows (trimmed rest) →
    Leaves m (trimmed cs) rest

section Accepts

variable {m : Matcher α} {p q : Pattern} {bound bound' : Nat} {follows follows' : List Char → Prop}

theorem Accepts.rule {r : Rule} (h : Accepts m p bound follows) :
    Accepts (rule r m) p bound follows where
  sound := fun c a c' hfinds => h.sound c a c' (finds_rule hfinds)
  complete := fun cs rest hcount hreads hfollows => (h.complete cs rest hcount hreads hfollows).rule

theorem Accepts.position_bind {next : Nat → Matcher α}
    (h : ∀ n, Accepts (next n) p bound follows) : Accepts (position >>= next) p bound follows where
  sound := fun c a c' hfinds => by
    obtain ⟨n, c₁, hposition, hfinds⟩ := finds_bind hfinds
    rw [← finds_position hposition]
    exact (h n).sound c₁ a c' hfinds
  complete := fun cs rest hcount hreads hfollows position far =>
    (h position).complete cs rest hcount hreads hfollows position far

/-- A part behind which nothing more is taken. -/
theorem Accepts.bind_still {next : α → Matcher β} (h : Accepts m p bound follows)
    (hnext : ∀ a, Still (next a)) : Accepts (m >>= next) p bound follows where
  sound := fun c b c' hfinds => by
    obtain ⟨a, c₁, hm, far, hrun⟩ := finds_bind hfinds
    obtain ⟨b', hstill⟩ := hnext a c₁ far
    cases hstill.symm.trans hrun
    exact h.sound c a _ hm
  complete := fun cs rest hcount hreads hfollows =>
    (h.complete cs rest hcount hreads hfollows).bind_still hnext

theorem Accepts.map {f : α → β} (h : Accepts m p bound follows) :
    Accepts (f <$> m) p bound follows :=
  h.bind_still fun _ => still_pure _

theorem reads_of_skip {c c' : Cursor} {u : Unit} (h : Finds skip c u c') :
    Reads blanks c.rest c'.rest := by
  rw [finds_skip h]
  exact reads_blanks_trimmed _

/-- One part behind another with blanks between. What may follow the first is what the second
begins with. -/
theorem Accepts.spaced {next : α → Matcher β} (hm : Accepts m p bound follows)
    (hnext : ∀ a, Accepts (next a) q bound' follows')
    (hcount : ∀ cs rest, Reads p cs rest → cs.count '(' < bound → rest.count '(' < bound')
    (hopens : ∀ cs rest, Reads q cs rest → follows' (trimmed rest) → follows (trimmed cs)) :
    Accepts (m >>= fun a => skip >>= fun _ => next a) (spaced p q) bound follows' where
  sound := fun c b c' hfinds => by
    obtain ⟨a, c₁, hfirst, hfinds⟩ := finds_bind hfinds
    obtain ⟨_, c₂, hskip, hfinds⟩ := finds_bind hfinds
    exact .next (hm.sound c a c₁ hfirst) (.next (reads_of_skip hskip)
      ((hnext a).sound c₂ b c' hfinds))
  complete := fun cs rest hless hreads hfollows => by
    obtain ⟨after, before, hp, hblanks, hq⟩ := Pattern.reads_spaced.mp hreads
    have hbefore : before.count '(' < bound' :=
      hblanks.count_lt (hcount cs after hp hless)
    have hafter : follows (trimmed after) := by
      rw [hblanks.trimmed_eq]
      exact hopens before rest hq hfollows
    refine (hm.complete cs after hless hp hafter).bind fun a _ start hstart => Yields.skip_bind ?_
    rw [hstart, hblanks.trimmed_eq]
    exact (hnext a).complete before rest hbefore hq hfollows

/-- A part that may be missing is taken for missing only where it is. -/
theorem Accepts.optional (h : Accepts m p bound follows)
    (hrefuses : ∀ cs, follows cs → Refuses m cs) :
    Accepts (optional m) (.opt p) bound follows where
  sound := fun c found? c' hfinds => by
    rw [Pattern.reads_opt]
    rcases finds_orElse hfinds with hsome | ⟨-, hnone⟩
    · exact .inl ((Accepts.map h).sound c found? c' hsome)
    · obtain ⟨-, rfl⟩ := finds_pure hnone
      exact .inr rfl
  complete := fun cs rest hcount hreads hfollows => by
    rcases Pattern.reads_opt.mp hreads with hp | rfl
    · exact ((Accepts.map h).complete cs rest hcount hp hfollows).orElse
    · have hnone : Leaves (Matcher.optional m) (trimmed rest) (trimmed rest) :=
        (hrefuses _ hfollows).map.orElse_yields (yields_pure trivial _)
      exact hnone.trans (trimmed_trimmed rest)

/-! ## Repetition -/

/-- What a part needs to be repeated until a text of the second kind follows. -/
structure Repeats (m : Matcher α) (p : Pattern) (bound : Nat) (follows stops : List Char → Prop) :
    Prop where
  accepts : Accepts m p bound follows
  /-- A repetition can follow another. -/
  opens : ∀ cs rest, Reads p cs rest → follows (trimmed cs)
  /-- So can the end. -/
  ends : ∀ cs, stops cs → follows cs
  refuses : ∀ cs, stops cs → Refuses m cs
  shortens : ∀ cs rest, Reads p cs rest → rest.length < (trimmed cs).length

variable {stops : List Char → Prop} {cs rest : List Char}

theorem Repeats.follows_many (h : Repeats m p bound follows stops)
    (hmany : Reads (.many (.next blanks p)) cs rest) (hstops : stops (trimmed rest)) :
    follows (trimmed cs) := by
  refine hmany.many_induction (motive := fun cs => follows (trimmed cs)) (h.ends _ hstops) ?_
  intro cs mid hitem _ _
  obtain ⟨before, hblanks, hp⟩ := Pattern.reads_next.mp hitem
  rw [hblanks.trimmed_eq]
  exact h.opens before mid hp

theorem Repeats.leaves_repeated (h : Repeats m p bound follows stops)
    (hmany : Reads (.many (.next blanks p)) cs rest) (hcount : cs.count '(' < bound)
    (hstops : stops (trimmed rest)) : ∀ start attempts, trimmed start = trimmed cs →
      (trimmed cs).length < attempts → Leaves (repeated m attempts) start rest := by
  refine hmany.many_induction (motive := fun cs => cs.count '(' < bound → ∀ start attempts,
    trimmed start = trimmed cs → (trimmed cs).length < attempts →
      Leaves (repeated m attempts) start rest) ?_ ?_ hcount
  · intro _ start attempts hstart hattempts
    obtain ⟨attempts, rfl⟩ := Nat.exists_eq_succ_of_ne_zero (Nat.ne_of_gt (Nat.zero_lt_of_lt hattempts))
    have hrefuses : Refuses m (start.dropWhile Token.isSpace) := by
      show Refuses m (trimmed start)
      rw [hstart]
      exact h.refuses _ hstops
    have hnone : Leaves (repeated m (attempts + 1)) start start :=
      hrefuses.bind.skip_bind.orElse_yields (yields_pure trivial start)
    exact hnone.trans hstart
  · intro cs mid hitem hmany ih hcount start attempts hstart hattempts
    obtain ⟨attempts, rfl⟩ := Nat.exists_eq_succ_of_ne_zero (Nat.ne_of_gt (Nat.zero_lt_of_lt hattempts))
    obtain ⟨before, hblanks, hp⟩ := Pattern.reads_next.mp hitem
    have hbefore : before.count '(' < bound := hblanks.count_lt hcount
    have hmid : mid.count '(' < bound := hp.count_lt hbefore
    have hshort := h.shortens before mid hp
    have hfirst := h.accepts.complete before mid hbefore hp (h.follows_many hmany hstops)
    rw [← hblanks.trimmed_eq] at hshort hfirst
    have hlength := length_trimmed_le mid
    refine (Yields.skip_bind ?_).orElse
    rw [hstart]
    refine hfirst.bind fun a _ start' hstart' => ?_
    exact (ih hmid start' attempts hstart' (by omega)).bind_still fun _ => still_pure _

theorem Repeats.sound_repeated (h : Repeats m p bound follows stops) {attempts : Nat} {c c' : Cursor}
    {items : List α} (hfinds : Finds (repeated m attempts) c items c') :
    Reads (.many (.next blanks p)) c.rest c'.rest := by
  induction attempts generalizing c items with
  | zero =>
    obtain ⟨-, rfl⟩ := finds_pure hfinds
    exact .stop _ _
  | succ attempts ih =>
    rcases finds_orElse hfinds with hfinds | ⟨-, hfinds⟩
    · obtain ⟨_, c₁, hskip, hfinds⟩ := finds_bind hfinds
      obtain ⟨first, c₂, hfirst, hfinds⟩ := finds_bind hfinds
      obtain ⟨others, c₃, hothers, hfinds⟩ := finds_bind hfinds
      obtain ⟨-, rfl⟩ := finds_pure hfinds
      exact .again (.next (reads_of_skip hskip) (h.accepts.sound c₁ first c₂ hfirst)) (ih hothers)
    · obtain ⟨-, rfl⟩ := finds_pure hfinds
      exact .stop _ _

theorem Repeats.sound_followers (h : Repeats m p bound follows stops) {c c' : Cursor}
    {items : List α} (hfinds : Finds (followers m) c items c') :
    Reads (.next blanks (.list p)) c.rest c'.rest := by
  obtain ⟨_, c₁, hskip, hfinds⟩ := finds_bind hfinds
  refine .next (reads_of_skip hskip) (Pattern.reads_opt.mpr ?_)
  rcases finds_orElse hfinds with hfinds | ⟨-, hfinds⟩
  · obtain ⟨first, c₂, hfirst, hfinds⟩ := finds_bind hfinds
    obtain ⟨others, c₃, ⟨far, hothers⟩, hfinds⟩ := finds_bind hfinds
    obtain ⟨-, rfl⟩ := finds_pure hfinds
    exact .inl (.next (h.accepts.sound c₁ first c₂ hfirst) (h.sound_repeated ⟨far, hothers⟩))
  · obtain ⟨-, rfl⟩ := finds_pure hfinds
    exact .inr rfl

/-- The repetitions behind a first part, which tell what can follow it. -/
theorem Repeats.leaves_followers (h : Repeats m p bound follows stops)
    (hlist : Reads (.list p) cs rest) (hcount : cs.count '(' < bound)
    (hstops : stops (trimmed rest)) : follows (trimmed cs) ∧
      ∀ start, trimmed start = trimmed cs → Leaves (followers m) start rest := by
  rcases Pattern.reads_opt.mp hlist with hlist | rfl
  · obtain ⟨mid, hp, hmany⟩ := Pattern.reads_next.mp hlist
    have hmid : mid.count '(' < bound := hp.count_lt hcount
    refine ⟨h.opens cs mid hp, fun start hstart => Yields.skip_bind (Yields.orElse ?_)⟩
    rw [hstart]
    refine (h.accepts.complete cs mid hcount hp (h.follows_many hmany hstops)).bind ?_
    intro first _ start' hstart'
    have hothers : Leaves (fun c far => repeated m (c.rest.length + 1) c far) start' rest := by
      have hlength := length_trimmed_le start'
      rw [hstart'] at hlength
      exact h.leaves_repeated hmany hmid hstops start' _ hstart' (Nat.lt_succ_of_le hlength)
    exact hothers.bind_still fun _ => still_pure _
  · refine ⟨h.ends _ hstops, fun start hstart => Yields.skip_bind ?_⟩
    rw [hstart]
    exact (h.refuses _ hstops).bind.orElse_yields
      ((yields_pure trivial _).trans (trimmed_trimmed rest))

/-- A part and any number of others behind it, each with blanks before it. -/
theorem Accepts.chain {k : Matcher β} {f : α → List β → γ} (hm : Accepts m p bound follows)
    (hk : Repeats k q bound follows stops) :
    Accepts (m >>= fun first => followers k >>= fun others => pure (f first others))
      (Pattern.spaced p (.list q)) bound stops where
  sound := fun c b c' hfinds => by
    obtain ⟨first, c₁, hfirst, hfinds⟩ := finds_bind hfinds
    obtain ⟨others, c₂, hothers, hfinds⟩ := finds_bind hfinds
    obtain ⟨-, rfl⟩ := finds_pure hfinds
    exact .next (hm.sound c first c₁ hfirst) (hk.sound_followers hothers)
  complete := fun cs rest hless hreads hfollows => by
    obtain ⟨after, before, hp, hblanks, hq⟩ := Pattern.reads_spaced.mp hreads
    have hbefore : before.count '(' < bound := hblanks.count_lt (hp.count_lt hless)
    obtain ⟨hopens, hleaves⟩ := hk.leaves_followers hq hbefore hfollows
    rw [← hblanks.trimmed_eq] at hopens hleaves
    refine (hm.complete cs after hless hp hopens).bind fun first _ start hstart => ?_
    exact (hleaves start hstart).bind_still fun _ => still_pure _

/-- A token whose scanner takes every reading with the right text behind it. -/
theorem accepts_token {scan : List Char → Option (List Char)}
    (hsound : ∀ cs rest, scan cs = some rest → Reads p cs rest)
    (hcomplete : ∀ cs rest, Reads p cs rest → follows (trimmed rest) →
      trimmed cs = cs ∧ scan cs = some rest) : Accepts (token scan) p bound follows where
  sound := fun c _ c' hfinds => hsound c.rest c'.rest (finds_token hfinds).1
  complete := fun cs rest _ hreads hfollows => by
    obtain ⟨hsolid, hscan⟩ := hcomplete cs rest hreads hfollows
    obtain ⟨text, rfl⟩ := hreads.suffix
    rw [hsolid]
    exact (takes_token hscan).leaves

end Accepts

end Matcher

end GuardCode
