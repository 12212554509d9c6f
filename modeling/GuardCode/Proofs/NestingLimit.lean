import GuardCode.Proofs.Grammar.Openings
import GuardCode.Proofs.Reading.Blame

/-! The limit on nested parentheses. A source that matches the grammar is refused as nested too deep
exactly if some construct with parentheses stands too deep in its phrase, and the error points at the
first parenthesis that opens a level beyond the limit. What stands between quotes has no part in it. -/
namespace GuardCode

namespace Phrase

/-! ## Constructs with parentheses -/

/-- Whether a phrase brings parentheses of its own: in a group, or around the arguments of a call. -/
def nests : Phrase → Bool
  | group _ _ | method _ _ _ | capability _ _ _ => true
  | _ => false

/-- Whether these parentheses are around the part in the frame. -/
def Frame.nests : Frame → Bool
  | inner _ | method _ _ _ _ | capability _ _ _ _ => true
  | _ => false

/-- How many pairs of parentheses are around a place. -/
def nesting (place : List Frame) : Nat := place.countP Frame.nests

/-- Some construct with parentheses stands more than `limit` such constructs deep, itself included. -/
def NestsBeyond (limit : Nat) (p : Phrase) : Prop :=
  ∃ place part, fill place part = p ∧ part.nests ∧ limit < nesting place + 1

variable {p : Phrase} {limit : Nat}

theorem NestsBeyond.frame (h : p.NestsBeyond limit) (frame : Frame) :
    (frame.fill p).NestsBeyond limit := by
  obtain ⟨place, part, rfl, hnests, hlimit⟩ := h
  refine ⟨frame :: place, part, rfl, hnests, ?_⟩
  rw [nesting, List.countP_cons]
  exact Nat.lt_of_lt_of_le hlimit (by simp [nesting])

theorem NestsBeyond.enclosed (h : p.NestsBeyond limit) (frame : Frame) (hframe : frame.nests) :
    (frame.fill p).NestsBeyond (limit + 1) := by
  obtain ⟨place, part, rfl, hnests, hlimit⟩ := h
  refine ⟨frame :: place, part, rfl, hnests, ?_⟩
  rw [nesting, List.countP_cons_of_pos hframe]
  exact Nat.succ_lt_succ hlimit

/-- A construct is one level deep by itself, and its parts are one level deeper in it. -/
theorem nestsBeyond_construct {levels : Nat} (hp : p.nests) (hlimit : limit < levels + 1)
    (hparts : ∀ limit, limit < levels → p.NestsBeyond (limit + 1)) : p.NestsBeyond limit := by
  cases limit with
  | zero => exact ⟨[], p, rfl, hp, Nat.succ_pos _⟩
  | succ limit => exact hparts limit (by omega)

theorem exists_levels_of_lt {args : List Phrase} (h : limit < levelsAll args) :
    ∃ before a after, args = before ++ a :: after ∧ limit < a.levels := by
  have hnot : ¬∀ a ∈ args, a.levels ≤ limit := fun hall =>
    absurd h (Nat.not_lt.mpr (levelsAll_le.mpr hall))
  obtain ⟨a, ha, hlimit⟩ : ∃ a ∈ args, limit < a.levels := by simpa using hnot
  obtain ⟨before, after, rfl⟩ := List.append_of_mem ha
  exact ⟨before, a, after, rfl, hlimit⟩

theorem nestsBeyond_of_lt_levels (h : limit < p.levels) : p.NestsBeyond limit := by
  induction p generalizing limit with
  | binary op left right ihl ihr =>
    rcases Nat.lt_or_ge limit left.levels with hleft | hle
    · exact (ihl hleft).frame (.left op right)
    · have hright : limit < right.levels := by
        rw [levels] at h
        omega
      exact (ihr hright).frame (.right op left)
  | group span inner ih =>
    exact nestsBeyond_construct rfl h fun limit hinner =>
      (ih hinner).enclosed (.inner span) rfl
  | name lexeme => cases h
  | literal kind lexeme => cases h
  | method span callee args ih =>
    refine nestsBeyond_construct rfl h fun limit hargs => ?_
    obtain ⟨before, a, after, rfl, ha⟩ := exists_levels_of_lt hargs
    exact (ih a (by simp) ha).enclosed (.method span callee before after) rfl
  | capability span callee args ih =>
    refine nestsBeyond_construct rfl h fun limit hargs => ?_
    obtain ⟨before, a, after, rfl, ha⟩ := exists_levels_of_lt hargs
    exact (ih a (by simp) ha).enclosed (.capability span callee before after) rfl

theorem levels_le_all {args : List Phrase} (h : p ∈ args) : p.levels ≤ levelsAll args :=
  levelsAll_le.mp (Nat.le_refl _) p h

theorem levels_frame (frame : Frame) (p : Phrase) :
    p.levels + (if frame.nests then 1 else 0) ≤ (frame.fill p).levels := by
  cases frame with
  | left op other => exact Nat.le_max_left _ _
  | right op other => exact Nat.le_max_right _ _
  | inner span => exact Nat.le_refl _
  | method span callee before after => exact Nat.succ_le_succ (levels_le_all (by simp))
  | capability span callee before after => exact Nat.succ_le_succ (levels_le_all (by simp))

theorem nesting_add_levels_le (place : List Frame) (part : Phrase) :
    nesting place + part.levels ≤ (fill place part).levels := by
  induction place with
  | nil => simp [nesting]
  | cons frame place ih =>
    have hframe := levels_frame frame (fill place part)
    rw [nesting, List.countP_cons, fill_cons]
    rw [nesting] at ih
    omega

theorem lt_levels_iff : limit < p.levels ↔ p.NestsBeyond limit := by
  refine ⟨nestsBeyond_of_lt_levels, ?_⟩
  rintro ⟨place, part, rfl, hnests, hlimit⟩
  have hle := nesting_add_levels_le place part
  have hone : 1 ≤ part.levels := by
    cases part with
    | group | method | capability => exact Nat.succ_le_succ (Nat.zero_le _)
    | _ => cases hnests
  omega

/-! ## What quotes hide -/

mutual

/-- A phrase without its places, and without what its strings and characters are written as. -/
def outline : Phrase → Phrase
  | binary op left right => binary op left.outline right.outline
  | group _ inner => group ⟨0, 0⟩ inner.outline
  | name lexeme => name lexeme.bare
  | literal .string _ => literal .string ⟨⟨0, 0⟩, []⟩
  | literal .character _ => literal .character ⟨⟨0, 0⟩, []⟩
  | literal kind lexeme => literal kind lexeme.bare
  | method _ callee args => method ⟨0, 0⟩ callee.bare (outlineAll args)
  | capability _ callee args => capability ⟨0, 0⟩ callee.bare (outlineAll args)

def outlineAll : List Phrase → List Phrase
  | [] => []
  | p :: ps => p.outline :: outlineAll ps

end

theorem opensAll_outline {args : List Phrase} {depth : Nat}
    (h : ∀ a ∈ args, ∀ depth, a.outline.opens depth = a.opens depth) :
    opensAll depth (outlineAll args) = opensAll depth args := by
  induction args with
  | nil => rfl
  | cons p ps ih =>
    obtain ⟨hp, hps⟩ := List.forall_mem_cons.mp h
    rw [outlineAll, opensAll, opensAll, hp, ih hps]

theorem opens_outline (p : Phrase) (depth : Nat) : p.outline.opens depth = p.opens depth := by
  induction p generalizing depth with
  | binary op left right ihl ihr => simp only [outline, opens, ihl, ihr]
  | group span inner ih => simp only [outline, opens, ih]
  | name lexeme => rfl
  | literal kind lexeme => cases kind <;> rfl
  | method span callee args ih => simp only [outline, opens, opensAll_outline ih]
  | capability span callee args ih => simp only [outline, opens, opensAll_outline ih]

/-! ## The verdict -/

theorem idxOf?_of_not_mem {lower deeper : List Nat} {level : Nat} (h : level ∉ lower) :
    (lower ++ level :: deeper).idxOf? level = some lower.length := by
  induction lower with
  | nil => simp [List.idxOf?_cons]
  | cons first lower ih =>
    obtain ⟨hne, hlower⟩ := not_or.mp (mt List.mem_cons.mpr h)
    simp [List.idxOf?_cons, ih hlower, Ne.symm hne]

/-- The span holds a parenthesis of the phrase that a source spells, with `n` others in front of it. -/
def OpensAt (source : List Char) (p : Phrase) (n : Nat) (span : Span) : Prop :=
  ∃ before after front back, p.tokens = before ++ ['('] :: after ∧ before.count ['('] = n ∧
    source = front ++ '(' :: back ∧ Written before front [] ∧ Written after back [] ∧
    span = ⟨byteLength front, byteLength front + 1⟩

end Phrase

namespace Expr

open Phrase (NestsBeyond OpensAt)

variable {scope : Scope} {limit limit' : Nat} {source : String} {p : Phrase} {span : Span}

/-- Only the check of the nesting refuses a text as nested too deep. -/
theorem parse_eq_tooDeep : parse scope limit source = .error ⟨.tooDeep limit', span⟩ ↔
    Nesting.check limit source.toList = .error ⟨.tooDeep limit', span⟩ := by
  constructor
  · intro h
    rcases parse_error h with hcheck | ⟨-, ⟨far, -, heq⟩ | ⟨p, -, place, part, -, hblames⟩⟩
    · exact hcheck
    · cases heq
    · cases hblames
  · intro h
    simp only [parse, h]
    rfl

/-- The check answers for the parentheses of the phrase. -/
theorem answers_phrase (hphrase : Grammar.phrase source.toList = .ok p) (limit : Nat) :
    Nesting.Answers limit p.tokens (p.opens 0) source.toList 0
      (Nesting.tooDeep? limit source.toList 0 0 .outside) := by
  obtain ⟨hregular, hwritten⟩ := Grammar.written_phrase hphrase
  exact (hregular.steps 0).answers (Nat.zero_le limit) hwritten 0

theorem tooDeep_of_mem (hphrase : Grammar.phrase source.toList = .ok p) (h : limit + 1 ∈ p.opens 0)
    (scope : Scope) : ∃ span, parse scope limit source = .error ⟨.tooDeep limit, span⟩ := by
  simp only [parse_eq_tooDeep]
  rcases answers_phrase hphrase limit with ⟨-, hnot⟩ | ⟨front, -, hfound⟩
  · exact absurd h hnot
  · exact ⟨_, Nesting.check_eq_error.mpr ⟨_, hfound, rfl⟩⟩

/-- What the check finds is the first parenthesis that opens a level beyond the limit. -/
theorem tooDeep_opens (hphrase : Grammar.phrase source.toList = .ok p)
    (h : parse scope limit source = .error ⟨.tooDeep limit', span⟩) : limit' = limit ∧
      ∃ n, (p.opens 0).idxOf? (limit + 1) = some n ∧ OpensAt source.toList p n span := by
  obtain ⟨position, hposition, heq⟩ := Nesting.check_eq_error.mp (parse_eq_tooDeep.mp h)
  cases heq
  rcases answers_phrase hphrase limit with ⟨hnone, -⟩ | ⟨front, ⟨before, after, lower, deeper, back,
    htokens, hlevels, hlower, hcount, hsource, hfront, hback⟩, hsome⟩
  · rw [hposition] at hnone
    cases hnone
  · have hfound : position = byteLength front := by simpa [hposition] using hsome
    have hfirst : (p.opens 0).idxOf? (limit + 1) = some lower.length := by
      rw [hlevels]
      exact Phrase.idxOf?_of_not_mem hlower
    exact ⟨rfl, lower.length, hfirst, before, after, front, back, htokens, hcount, hsource, hfront,
      hback, by rw [hfound]⟩

/-- How the limit is applied to a source and the phrase that it spells. -/
structure NestingExact (scope : Scope) (limit : Nat) (source : String) (p : Phrase) : Prop where
  /-- The source is nested too deep exactly if some construct of its phrase is. -/
  refused_iff : (∃ span, parse scope limit source = .error ⟨.tooDeep limit, span⟩) ↔
    p.NestsBeyond limit
  /-- The error is about the limit and points at the first parenthesis that opens a level beyond it. -/
  first : ∀ limit' span, parse scope limit source = .error ⟨.tooDeep limit', span⟩ →
    limit' = limit ∧ ∃ n, (p.opens 0).idxOf? (limit + 1) = some n ∧ OpensAt source.toList p n span
  /-- Another source with other characters and strings in the same places is refused with it, at the
  same parenthesis. -/
  quoted : ∀ scope' source' q span, Grammar.phrase source'.toList = .ok q →
    q.outline = p.outline → parse scope limit source = .error ⟨.tooDeep limit, span⟩ →
      ∃ n span', OpensAt source.toList p n span ∧ OpensAt source'.toList q n span' ∧
        parse scope' limit source' = .error ⟨.tooDeep limit, span'⟩

theorem parse_tooDeep_iff (hphrase : Grammar.phrase source.toList = .ok p) :
    (∃ span, parse scope limit source = .error ⟨.tooDeep limit, span⟩) ↔ p.NestsBeyond limit := by
  rw [← Phrase.lt_levels_iff, ← Nat.not_le, ← (Grammar.accounts_phrase hphrase).2]
  simp only [parse_eq_tooDeep]
  constructor
  · rintro ⟨span, h⟩ hok
    rw [h] at hok
    cases hok
  · intro h
    cases hcheck : Nesting.check limit source.toList with
    | ok => exact absurd hcheck h
    | error e =>
      obtain ⟨position, -, rfl⟩ := Nesting.check_eq_error.mp hcheck
      exact ⟨_, rfl⟩

/-- The limit on nested parentheses is applied exactly. -/
theorem parse_nesting_exact (scope : Scope) (limit : Nat)
    (hphrase : Grammar.phrase source.toList = .ok p) : NestingExact scope limit source p where
  refused_iff := parse_tooDeep_iff hphrase
  first := fun _ _ h => tooDeep_opens hphrase h
  quoted := by
    intro scope' source' q span hphrase' houtline h
    have hopens : q.opens 0 = p.opens 0 := by
      rw [← Phrase.opens_outline q, houtline, Phrase.opens_outline]
    obtain ⟨-, n, hn, hat⟩ := tooDeep_opens hphrase h
    have hmem : limit + 1 ∈ q.opens 0 := by
      rw [hopens]
      exact List.isSome_idxOf?.mp (by rw [hn]; rfl)
    obtain ⟨span', h'⟩ := tooDeep_of_mem hphrase' hmem scope'
    obtain ⟨-, n', hn', hat'⟩ := tooDeep_opens hphrase' h'
    rw [hopens, hn] at hn'
    cases hn'
    exact ⟨n, span', hat, hat', h'⟩

/-- Quotes hide four parentheses and a quote in front of the one that opens the second level. -/
theorem quotingGuard_nesting : ∃ p,
    Grammar.phrase "(arg0 == \"((\\\"(\") && ('(' != (')'))".toList = .ok p ∧
      NestingExact (Scope.ofArgs [.i32]) 1 "(arg0 == \"((\\\"(\") && ('(' != (')'))" p ∧
      parse (Scope.ofArgs [.i32]) 1 "(arg0 == \"((\\\"(\") && ('(' != (')'))" =
        .error ⟨.tooDeep 1, ⟨29, 30⟩⟩ := by
  have hsome : (Grammar.phrase "(arg0 == \"((\\\"(\") && ('(' != (')'))".toList).toOption.isSome := by
    decide +kernel
  obtain ⟨p, hp⟩ := Option.isSome_iff_exists.mp hsome
  exact ⟨p, ok_of_toOption hp, parse_nesting_exact _ _ (ok_of_toOption hp), by decide +kernel⟩

end Expr

end GuardCode
