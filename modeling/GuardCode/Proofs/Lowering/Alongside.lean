import GuardCode.Proofs.Lowering.Pairs
import Mathlib.Data.List.Forall2

/-! Two matchers side by side. They fail alike, with the same on record, or they end at the same cursor with
results that belong together; combined matchers stay side by side if their parts do. -/
namespace GuardCode.Matcher

variable {α β γ δ : Type}

/-- Two outcomes that are both failures, or both matches up to one cursor. -/
inductive Agree (R : α → β → Prop) :
    Option (α × Cursor) × Furthest → Option (β × Cursor) × Furthest → Prop where
  | found {a : α} {b : β} {c : Cursor} {far : Furthest} (h : R a b) :
      Agree R (some (a, c), far) (some (b, c), far)
  | failed {far : Furthest} : Agree R (none, far) (none, far)

def Alongside (R : α → β → Prop) (m : Matcher α) (k : Matcher β) : Prop :=
  ∀ c far, Agree R (m c far) (k c far)

namespace Alongside

variable {R : α → β → Prop} {S : γ → δ → Prop} {m m' : Matcher α} {k k' : Matcher β}

theorem outcome (h : Alongside R m k) (c : Cursor) (far : Furthest) :
    (∃ far', m c far = (none, far') ∧ k c far = (none, far')) ∨
      ∃ a b c' far', m c far = (some (a, c'), far') ∧ k c far = (some (b, c'), far') ∧ R a b := by
  have hrun := h c far
  revert hrun
  generalize m c far = left, k c far = right
  rintro (hab | _)
  · exact .inr ⟨_, _, _, _, rfl, rfl, hab⟩
  · exact .inl ⟨_, rfl, rfl⟩

theorem same (m : Matcher α) : Alongside Eq m m := by
  intro c far
  rcases hrun : m c far with ⟨_ | ⟨a, c'⟩, far'⟩
  · exact .failed
  · exact .found rfl

theorem result {a : α} {b : β} (h : R a b) : Alongside R (pure a) (pure b) :=
  fun _ _ => .found h

theorem bind {f : α → Matcher γ} {g : β → Matcher δ} (h : Alongside R m k)
    (hnext : ∀ a b, R a b → Alongside S (f a) (g b)) : Alongside S (m >>= f) (k >>= g) := by
  intro c far
  simp only [Bind.bind]
  rcases h.outcome c far with ⟨far', hm, hk⟩ | ⟨a, b, c', far', hm, hk, hab⟩
  · rw [hm, hk]
    exact .failed
  · rw [hm, hk]
    exact hnext a b hab c' far'

theorem map {f : α → γ} {g : β → δ} (h : Alongside R m k) (hfg : ∀ a b, R a b → S (f a) (g b)) :
    Alongside S (f <$> m) (g <$> k) :=
  h.bind fun a b hab => result (hfg a b hab)

/-- What is made of the second result takes part in the relation. -/
theorem made {g : β → δ} {T : α → δ → Prop} (h : Alongside R m k)
    (hg : ∀ a b, R a b → T a (g b)) : Alongside T m (g <$> k) := by
  intro c far
  simp only [Functor.map]
  rcases h.outcome c far with ⟨far', hm, hk⟩ | ⟨a, b, c', far', hm, hk, hab⟩
  · rw [hm, hk]
    exact .failed
  · rw [hm, hk]
    exact .found (hg a b hab)

theorem orElse (h : Alongside R m k) (h' : Alongside R m' k') :
    Alongside R (Matcher.orElse m m') (Matcher.orElse k k') := by
  intro c far
  simp only [Matcher.orElse]
  rcases h.outcome c far with ⟨far', hm, hk⟩ | ⟨a, b, c', far', hm, hk, hab⟩
  · rw [hm, hk]
    exact h' c far'
  · rw [hm, hk]
    exact .found hab

theorem failure : Alongside R failure failure := fun _ _ => .failed

theorem choice {ms : List (Matcher α)} {ks : List (Matcher β)}
    (h : List.Forall₂ (Alongside R) ms ks) : Alongside R (Matcher.choice ms) (Matcher.choice ks) := by
  induction h with
  | nil => exact failure
  | cons hfirst _ ih => exact hfirst.orElse ih

theorem rule (r : Rule) (h : Alongside R m k) : Alongside R (Matcher.rule r m) (Matcher.rule r k) := by
  intro c far
  simp only [Matcher.rule]
  rcases h.outcome c far with ⟨far', hm, hk⟩ | ⟨a, b, c', far', hm, hk, hab⟩
  · rw [hm, hk]
    exact .failed
  · rw [hm, hk]
    exact .found hab

theorem optional (h : Alongside R m k) :
    Alongside (Option.Rel R) (Matcher.optional m) (Matcher.optional k) :=
  (h.map fun _ _ hab => .some hab).orElse (result .none)

theorem repeated (h : Alongside R m k) (bound : Nat) :
    Alongside (List.Forall₂ R) (Matcher.repeated m bound) (Matcher.repeated k bound) := by
  induction bound with
  | zero => exact result .nil
  | succ bound ih =>
    refine orElse ?_ (result .nil)
    refine (same skip).bind fun _ _ _ => ?_
    refine h.bind fun first first' hfirst => ?_
    exact ih.bind fun others others' hothers => result (.cons hfirst hothers)

theorem followers (h : Alongside R m k) :
    Alongside (List.Forall₂ R) (Matcher.followers m) (Matcher.followers k) := by
  refine (same skip).bind fun _ _ _ => ?_
  refine orElse ?_ (result .nil)
  refine h.bind fun first first' hfirst => ?_
  have hothers : Alongside (List.Forall₂ R) (fun c far => Matcher.repeated m (c.rest.length + 1) c far)
      (fun c far => Matcher.repeated k (c.rest.length + 1) c far) :=
    fun c far => h.repeated (c.rest.length + 1) c far
  exact hothers.bind fun others others' hothers => result (.cons hfirst hothers)

/-- A rule that leaves a pair, beside one that gives what it finds. -/
theorem paired (r : Rule) {inner : Matcher (List Pair)} {I : List Pair → β → Prop}
    {P : Pair → β → Prop} (h : Alongside I inner k)
    (hpair : ∀ pairs b lexeme, I pairs b → P (.mk r lexeme pairs) b) :
    Alongside P (Matcher.paired r inner) (Matcher.rule r k) := by
  refine rule r fun c far => ?_
  simp only [cursor, Bind.bind, Pure.pure]
  rcases h.outcome c far with ⟨far', hinner, hk⟩ | ⟨pairs, b, c', far', hinner, hk, hab⟩
  · rw [hinner, hk]
    exact .failed
  · rw [hinner, hk]
    exact .found (hpair pairs b _ hab)

theorem place : Alongside (fun c n => c.position = n) cursor position := fun _ _ => .found rfl

/-- A rule that leaves a pair, beside one that makes something of its span and of what it finds. -/
theorem spanned (r : Rule) (next : Span → β → δ) {inner : Matcher (List Pair)}
    {I : List Pair → β → Prop} {P : Pair → δ → Prop} (h : Alongside I inner k)
    (hpair : ∀ pairs b lexeme, I pairs b → P (.mk r lexeme pairs) (next lexeme.span b)) :
    Alongside P (Matcher.paired r inner) (Matcher.rule r do
      let start ← position
      let b ← k
      let stop ← position
      return next ⟨start, stop⟩ b) := by
  refine rule r (place.bind fun start _ hstart => ?_)
  refine h.bind fun pairs b hinner => ?_
  refine place.bind fun stop _ hstop => result ?_
  subst hstart hstop
  exact hpair pairs b (start.lexeme stop) hinner

/-- The pair of a token, beside its lexeme. -/
theorem leaf (r : Rule) (scan : List Char → Option (List Char)) :
    Alongside (fun pair lexeme => pair = .mk r lexeme []) (Matcher.leaf r scan)
      (Matcher.rule r (token scan)) := by
  refine rule r fun c far => ?_
  simp only [cursor, Functor.map, token, Bind.bind, Pure.pure]
  cases scan c.rest with
  | none => exact .failed
  | some rest => exact .found rfl

end Alongside

theorem bind_assoc (m : Matcher α) (f : α → Matcher β) (g : β → Matcher γ) :
    m >>= f >>= g = m >>= fun a => f a >>= g := by
  funext c far
  simp only [bind]
  rcases m c far with ⟨_ | ⟨a, c'⟩, far'⟩ <;> rfl

theorem rule_map (r : Rule) (f : α → β) (m : Matcher α) :
    rule r (f <$> m) = f <$> rule r m := by
  funext c far
  simp only [rule, Functor.map]
  rcases m c far with ⟨_ | ⟨a, c'⟩, far'⟩ <;> rfl

theorem pure_bind (a : α) (f : α → Matcher β) : (pure a >>= f : Matcher β) = f a := rfl

end GuardCode.Matcher
