import GuardCode.Proofs.Grammar.Unambiguous
import GuardCode.Proofs.Reading.Meaning

/-! Operator precedence and associativity. The operators of a source are arranged in the one way that
their precedence allows, which is the one that a climb over the table of operators finds; parentheses
around a complete part change nothing. -/
namespace GuardCode

/-! ## The climb -/

namespace BinaryOp

/-- The operators in rows of one level, the loosest first; every level associates to the left. -/
def table : List (List BinaryOp) :=
  [[or], [and], [bitOr], [xor], [bitAnd], [eq, ne], [lt, le, gt, ge], [shl, shr], [add, sub],
    [mul, div, rem]]

/-- The row of an operator, counted from 1. -/
def power (op : BinaryOp) : Nat := table.findIdx (·.contains op) + 1

@[simp] theorem power_eq_precedence (op : BinaryOp) : op.power = op.precedence := by
  cases op <;> rfl

end BinaryOp

namespace Phrase

/-- The climb from a left operand through the operators and operands behind it. An operator that binds
tighter than the bound is taken, with what the climb under its own power makes of its right operand;
at any other the climb stops. -/
inductive Climbs : (bound : Nat) → Phrase → List (BinaryOp × Phrase) → Phrase →
    List (BinaryOp × Phrase) → Prop where
  | stop {bound : Nat} {p : Phrase} {items : List (BinaryOp × Phrase)}
      (h : ∀ item ∈ items.head?, item.1.power ≤ bound) : Climbs bound p items p items
  | take {bound : Nat} {op : BinaryOp} {p operand right result : Phrase}
      {items behind rest : List (BinaryOp × Phrase)} (h : bound < op.power)
      (hright : Climbs op.power operand items right behind)
      (hmore : Climbs bound (.binary op p right) behind result rest) :
      Climbs bound p ((op, operand) :: items) result rest

variable {p q : Phrase} {items rest : List (BinaryOp × Phrase)}

theorem Climbs.unique {bound : Nat} {q' : Phrase} {rest' : List (BinaryOp × Phrase)}
    (h : Climbs bound p items q rest) (h' : Climbs bound p items q' rest') :
    q = q' ∧ rest = rest' := by
  induction h generalizing q' rest' with
  | stop hstop =>
    cases h' with
    | stop => exact ⟨rfl, rfl⟩
    | take htake => exact absurd htake (Nat.not_lt.mpr (hstop _ rfl))
  | take htake _ _ ihright ihmore =>
    cases h' with
    | stop hstop => exact absurd htake (Nat.not_lt.mpr (hstop _ rfl))
    | take _ hright hmore =>
      obtain ⟨rfl, rfl⟩ := ihright hright
      exact ihmore hmore

theorem needsParens_left {op op' : BinaryOp} {l r : Phrase} :
    (binary op' l r).needsParens op false = false ↔ op.precedence ≤ op'.precedence := by
  simp [needsParens]

theorem needsParens_right {op op' : BinaryOp} {l r : Phrase} :
    (binary op' l r).needsParens op true = false ↔ op.precedence < op'.precedence := by
  simp [needsParens]
  omega

/-- The climb through an arranged phrase builds that phrase, if its operator binds tighter than the
bound and no looser than the operator behind it. -/
theorem Arranged.climbs (hp : p.Arranged) {bound : Nat}
    (hbound : ∀ op l r, p = .binary op l r → bound < op.power)
    (hitems : ∀ item ∈ items.head?, ∀ op l r, p = .binary op l r → item.1.power ≤ op.power)
    (h : Climbs bound p items q rest) : Climbs bound p.first (p.others ++ items) q rest := by
  induction p generalizing bound items q rest with
  | binary op left right ihl ihr =>
    obtain ⟨hleft, hright, hl, hr⟩ := hp
    have hop := hbound op left right rfl
    have hbehind : ∀ item ∈ items.head?, item.1.power ≤ op.power :=
      fun item hitem => hitems item hitem op left right rfl
    have hoperand : Climbs op.power right.first (right.others ++ items) right items := by
      refine ihr hright ?_ ?_ (.stop hbehind)
      · rintro op' l r rfl
        simpa using needsParens_right.mp hr
      · rintro item hitem op' l r rfl
        have hle := hbehind item hitem
        have hlt := needsParens_right.mp hr
        simp only [BinaryOp.power_eq_precedence] at hle ⊢
        omega
    rw [first, others, List.append_assoc, List.cons_append]
    refine ihl hleft ?_ ?_ (.take hop hoperand h)
    · rintro op' l r rfl
      have hle := needsParens_left.mp hl
      simp only [BinaryOp.power_eq_precedence] at hop ⊢
      omega
    · rintro item ⟨⟩ op' l r rfl
      simpa using needsParens_left.mp hl
  | _ => exact h

/-- What a climb finds in the chain of an arranged phrase is that phrase, to the end of the chain. -/
theorem Arranged.climbs_iff (hp : p.Arranged) :
    Climbs 0 p.first p.others q rest ↔ q = p ∧ rest = [] := by
  have hclimb : Climbs 0 p.first p.others p [] := by
    have hstop : Climbs 0 p [] p [] := .stop (by simp)
    simpa using hp.climbs (fun op _ _ _ => Nat.succ_pos _) (by simp) hstop
  constructor
  · exact fun h => h.unique hclimb
  · rintro ⟨rfl, rfl⟩
    exact hclimb

/-- Two arranged phrases over one chain are the same. -/
theorem Arranged.eq_of_chain (hp : p.Arranged) (hq : q.Arranged) (hfirst : q.first = p.first)
    (hothers : q.others = p.others) : q = p := by
  rw [← ofChain_others hq, ← ofChain_others hp, hfirst, hothers]

/-- Written in parentheses of its own. -/
def isEnclosed : Phrase → Bool
  | group _ _ => true
  | _ => false

end Phrase

namespace Expr

open Reading (Denotes)
open Grammar (IsToken)

variable {scope : Scope} {limit : Nat} {source : String} {e : Expr} {p : Phrase}

/-- An operand without parentheses is no operator, or one that binds tighter than its own; on the
left, one that binds as tight will do. -/
theorem operand_binds {op : BinaryOp} {left right : Expr} {l r : Phrase}
    (h : Phrase.Arranged (.binary op l r)) (hleft : Denotes scope l left)
    (hright : Denotes scope r right) :
    (l.isEnclosed ∨ ∀ op' x y, left = .binary op' x y → op.precedence ≤ op'.precedence) ∧
      (r.isEnclosed ∨ ∀ op' x y, right = .binary op' x y → op.precedence < op'.precedence) := by
  obtain ⟨-, -, hl, hr⟩ := h
  constructor
  · by_cases henclosed : l.isEnclosed
    · exact .inl henclosed
    · refine .inr ?_
      rintro op' x y rfl
      rcases hleft.top with ⟨span, inner, rfl⟩ | ⟨a, b, rfl⟩
      · exact absurd rfl henclosed
      · exact Phrase.needsParens_left.mp hl
  · by_cases henclosed : r.isEnclosed
    · exact .inl henclosed
    · refine .inr ?_
      rintro op' x y rfl
      rcases hright.top with ⟨span, inner, rfl⟩ | ⟨a, b, rfl⟩
      · exact absurd rfl henclosed
      · exact Phrase.needsParens_right.mp hr

/-- A source that spells the same phrase but for parentheses is parsed to the same tree. -/
theorem parse_of_core {source' : String} {q : Phrase} (hphrase : Grammar.phrase source.toList = .ok p)
    (h : parse scope limit source = .ok e) (hq : q.Regular IsToken) (hcore : q.core = p.core)
    (hwritten : Written q.tokens source'.toList [])
    (hcheck : Nesting.check limit source'.toList = .ok ()) : parse scope limit source' = .ok e := by
  obtain ⟨-, p', n, hp', hnode, rfl⟩ := parse_eq_ok.mp h
  cases hphrase.symm.trans hp'
  obtain ⟨found, hfound, hbare⟩ := Grammar.phrase_of_written hq hwritten
  have hsame : found.core = p.core := by rw [← Phrase.core_bare, hbare, Phrase.core_bare, hcore]
  obtain ⟨m, hm, hexpr⟩ := Reading.node_of_core hsame hnode
  exact parse_eq_ok.mpr ⟨hcheck, found, m, hfound, hm, hexpr⟩

/-- How a source, the tree that it is parsed to and the phrase that it spells go together. -/
structure Arrangement (scope : Scope) (limit : Nat) (source : String) (e : Expr) (p : Phrase) :
    Prop where
  /-- The source is made of the tokens of the phrase in order, with blanks between them or not. -/
  written : Written p.tokens source.toList []
  /-- The tree is that of the phrase, with its leaves, calls and operators in this order. -/
  denotes : Denotes scope p e
  /-- An operand that is not written in parentheses is no operator, or one that binds tight enough. -/
  operands : ∀ op left right, Part (.binary op left right) e → ∃ place l r,
    Phrase.fill place (.binary op l r) = p ∧ Denotes scope l left ∧ Denotes scope r right ∧
      (l.isEnclosed ∨ ∀ op' x y, left = .binary op' x y → op.precedence ≤ op'.precedence) ∧
      (r.isEnclosed ∨ ∀ op' x y, right = .binary op' x y → op.precedence < op'.precedence)
  /-- Every chain of operands is arranged in the only way there is, and as a climb arranges it. -/
  chains : ∀ place part, Phrase.fill place part = p →
    (∀ q : Phrase, q.Arranged → q.first = part.first → q.others = part.others → q = part) ∧
      ∀ q rest, Phrase.Climbs 0 part.first part.others q rest ↔ q = part ∧ rest = []
  /-- The source is made of the tokens of no other phrase. -/
  unique : ∀ q : Phrase, q.Regular IsToken → Written q.tokens source.toList [] → q.bare = p.bare
  /-- Parentheses can be put around every part where it stands. -/
  encloses : ∀ place part span, Phrase.fill place part = p → ∃ front text back,
    source.toList = front ++ (text ++ back) ∧ Written part.tokens text [] ∧
      Written (Phrase.fill place (.group span part)).tokens
        (front ++ '(' :: (text ++ ')' :: back)) []
  /-- The tree is the same with parentheses around a part, if these are not nested too deep. -/
  enclosed : ∀ place part span source', Phrase.fill place part = p →
    Written (Phrase.fill place (.group span part)).tokens source'.toList [] →
      Nesting.check limit source'.toList = .ok () → parse scope limit source' = .ok e

/-- The operators of an accepted source are arranged by precedence, those of one level from left to
right. -/
theorem parse_arranged (h : parse scope limit source = .ok e) :
    ∃ p, Arrangement scope limit source e p := by
  obtain ⟨-, p, n, hphrase, hnode, rfl⟩ := parse_eq_ok.mp h
  obtain ⟨hregular, hwritten⟩ := Grammar.written_phrase hphrase
  have hdenotes := (Reading.denotes_node hnode).denotes
  refine ⟨p, hwritten, hdenotes, ?_, ?_, ?_, ?_, ?_⟩
  · intro op left right hpart
    obtain ⟨place, l, r, rfl, hl, hr⟩ := hdenotes.operator hpart
    exact ⟨place, l, r, rfl, hl, hr, operand_binds hregular.of_fill.arranged hl hr⟩
  · rintro place part rfl
    have harranged := hregular.of_fill.arranged
    exact ⟨fun q hq => harranged.eq_of_chain hq, fun q rest => harranged.climbs_iff⟩
  · exact fun q hq hq' => Grammar.bare_eq_of_written hq hregular hq' hwritten
  · rintro place part span rfl
    exact Phrase.written_enclose hwritten span
  · rintro place part span source' rfl hwritten' hcheck
    have hcore : (Phrase.group span part).core = part.core := rfl
    exact parse_of_core hphrase h (hregular.enclose span) (Phrase.core_fill hcore place) hwritten'
      hcheck

def sixInts : Scope := Scope.ofArgs [.i32, .i32, .i32, .i32, .i32, .i32]

/-- Six levels of operators, two of them in a row, parentheses and the arguments of a call. -/
def mixedGuard : Expr :=
  let arg (i : Nat) : Expr := .member (.arg ⟨i, .i32⟩)
  let int (v : Int32) : Expr := .literal (.i32 v)
  .binary .and
    (.binary .lt (.binary .sub (.binary .sub (arg 0) (arg 1)) (.binary .mul (int 2) (arg 2))) (arg 3))
    (.binary .or (.binary .eq (arg 4) (int 1))
      (.binary .ne (.call (.capability .add) [arg 5, .binary .add (int 1) (int 2)] .i32) (int 3)))

theorem mixedGuard_arranged :
    parse sixInts 2 "arg0 - arg1 -2*arg2 < arg3 && (arg4==1 || @add(arg5, 1 + 2) != 3)" =
        .ok mixedGuard ∧
      ∃ p, Arrangement sixInts 2
        "arg0 - arg1 -2*arg2 < arg3 && (arg4==1 || @add(arg5, 1 + 2) != 3)" mixedGuard p := by
  have hparse :
      parse sixInts 2 "arg0 - arg1 -2*arg2 < arg3 && (arg4==1 || @add(arg5, 1 + 2) != 3)" =
        .ok mixedGuard := ok_of_toOption (by decide +kernel)
  exact ⟨hparse, parse_arranged hparse⟩

end Expr

end GuardCode
