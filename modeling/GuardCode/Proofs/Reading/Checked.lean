import GuardCode.Proofs.Expr.Typing
import GuardCode.Proofs.Reading.Parsed

/-! What the reading checks. In an expression that was read, names stand for what the scope says, and
the operands of an operator meet. Together with what the compiler asks for, and where no reference is
ordered or computed with and chains join truth values only, such an expression is typed. -/
namespace GuardCode

namespace Expr

/-- An expression as the reading leaves it. The operands of chains and shifts need not meet. -/
inductive Checked (scope : Scope) : Expr → Prop where
  | member {m : Member} {name : String} (h : scope.resolve? name = some m) :
      Checked scope (.member m)
  | literal (l : Literal) : Checked scope (.literal l)
  | carried {m : Member} {name : String} (h : scope.resolve? name = some m) :
      Checked scope (.carried (.member m))
  | binary {op : BinaryOp} {left right : Expr} (hleft : Checked scope left)
      (hright : Checked scope right)
      (hmeet : op.isLogical = false → op.isShift = false → left.type.meets right.type = true) :
      Checked scope (.binary op left right)
  | method {m : Method} {args : List Expr} {type : Ty} {name : String}
      (hargs : ∀ a ∈ args, Checked scope a) (h : scope.method? name = some (m, type)) :
      Checked scope (.call (.method m) args type)
  | capability {c : Capability} {args : List Expr} (hargs : ∀ a ∈ args, Checked scope a)
      (hmeet : c.isArithmetic → ∀ a b, args = [a, b] → a.type.meets b.type = true) :
      Checked scope (.call (.capability c) args (Reading.capabilityType c args))

end Expr

/-! ## Reading -/

namespace Reading

variable {scope : Scope} {source : List Char} {n : Node}

theorem checked_operand {e e' : Expr} (h : e' = e ∨ ∃ l, e' = .literal l) (he : e.Checked scope) :
    e'.Checked scope := by
  rcases h with rfl | ⟨l, rfl⟩
  · exact he
  · exact .literal l

theorem checked_asTarget {e : Expr} (h : e.Checked scope) : (asTarget e).Checked scope := by
  cases h with
  | member h => exact .carried h
  | literal l => exact .literal l
  | carried h => exact .carried h
  | binary hleft hright hmeet => exact .binary hleft hright hmeet
  | method hargs h => exact .method hargs h
  | capability hargs hmeet => exact .capability hargs hmeet

theorem checked_placed {es : List Expr} (kinds : List ParamKind)
    (h : ∀ e ∈ es, e.Checked scope) : ∀ e ∈ placed kinds es, e.Checked scope := by
  induction es generalizing kinds with
  | nil =>
    rw [Expr.placed_nil]
    nofun
  | cons e es ih =>
    obtain ⟨he, hes⟩ := List.forall_mem_cons.mp h
    obtain ⟨e', kinds', hcases, hplaced⟩ := Expr.placed_cons kinds e es
    rw [hplaced]
    refine List.forall_mem_cons.mpr ⟨?_, ih kinds' hes⟩
    rcases hcases with rfl | rfl
    · exact he
    · exact checked_asTarget he

/-- Arithmetic takes its arguments as values. -/
theorem placed_arithmetic {c : Capability} (hc : c.isArithmetic) (es : List Expr) :
    placed c.params es = es := by
  have hparams : c.params = [.value, .value] := by
    cases c <;> first | rfl | cases hc
  rw [hparams]
  rcases es with _ | ⟨a, _ | ⟨b, es⟩⟩
  · rfl
  · rfl
  · cases es <;> rfl

theorem checked_node {p : Phrase} (h : node scope source p = .ok n) : n.expr.Checked scope := by
  induction p generalizing n with
  | binary op left right ihleft ihright =>
    obtain ⟨l, r, hl, hr, h⟩ := node_binary h
    obtain ⟨l', r', hexpr, -, hmet⟩ := binary_ok h
    obtain ⟨hcasesl, hcasesr⟩ := operands_cases hmet
    rw [hexpr]
    refine .binary (checked_operand hcasesl (ihleft hl)) (checked_operand hcasesr (ihright hr)) ?_
    intro hlogical hshift
    rcases hmet with ⟨hchain, -⟩ | ⟨-, -, hmeet⟩
    · rw [hlogical] at hchain
      cases hchain
    · exact hmeet hshift
  | group span inner ih =>
    obtain ⟨m, hm, hexpr, -⟩ := node_group h
    rw [hexpr]
    exact ih hm
  | name lexeme =>
    obtain ⟨m, hresolve, hexpr, -⟩ := node_name h
    rw [hexpr]
    exact .member hresolve
  | literal kind lexeme =>
    obtain ⟨l, -, hexpr⟩ := node_literal h
    rw [hexpr]
    exact .literal l
  | method span callee args ih =>
    obtain ⟨m, returns, ns, hmethod, hns, hexpr, -⟩ := node_method h
    rw [hexpr]
    refine .method (List.forall_mem_map.mpr fun m hm => ?_) hmethod
    obtain ⟨p, hp, hnode⟩ := nodes_ok hns m hm
    exact ih p hp hnode
  | capability span callee args ih =>
    obtain ⟨c, ns, ns', hns, hargs, hexpr, -⟩ := node_capability h
    rw [hexpr]
    refine .capability (checked_placed _ (List.forall_mem_map.mpr fun m' hm' => ?_)) ?_
    · obtain ⟨m, hm, hcases⟩ := arguments_cases hargs m' hm'
      obtain ⟨p, hp, hnode⟩ := nodes_ok hns m hm
      exact checked_operand hcases (ih p hp hnode)
    · intro hc a b hab
      rw [placed_arithmetic hc] at hab
      rcases capabilityArgs_ok hargs with ⟨x, y, x', y', rfl, rfl, -, hmeet⟩ | ⟨rfl, hother⟩
      · cases hab
        exact hmeet hc
      · obtain ⟨x, rest, rfl, -, hrest⟩ := List.map_eq_cons_iff.mp hab
        obtain ⟨y, rest', rfl, -, hnil⟩ := List.map_eq_cons_iff.mp hrest
        obtain rfl := List.map_eq_nil_iff.mp hnil
        exact absurd rfl (hother x y)

end Reading

namespace Expr

variable {scope : Scope} {e : Expr}

theorem checked_of_parse {limit : Nat} {source : String} (h : parse scope limit source = .ok e) :
    e.Checked scope := by
  obtain ⟨-, _, n, -, hnode, rfl⟩ := parse_eq_ok.mp h
  exact Reading.checked_node hnode

theorem Checked.child {c : Expr} (h : e.Checked scope) (hc : c ∈ e.children) : c.Checked scope := by
  cases h with
  | member | literal | carried => cases hc
  | binary hleft hright =>
    simp only [children, List.mem_cons, List.not_mem_nil, or_false] at hc
    rcases hc with rfl | rfl
    · exact hleft
    · exact hright
  | method hargs | capability hargs => exact hargs c hc

theorem Checked.part {p : Expr} (h : e.Checked scope) (hp : Part p e) : p.Checked scope := by
  induction hp with
  | self => exact h
  | child hc _ ih => exact ih (h.child hc)

/-! ## Types with equality methods -/

/-- A class that decides equality by a method is the type of a name of the scope. -/
theorem Checked.declared {method : Method} (h : e.Checked scope)
    (hm : e.type.equality? = some method) :
    (∃ name m, scope.resolve? name = some m ∧ m.type = e.type) ∨
      ∃ name m, scope.method? name = some (m, e.type) := by
  induction h with
  | @member m name h => exact .inl ⟨name, m, h, rfl⟩
  | literal l => cases l <;> cases hm
  | @carried m name h => exact .inl ⟨name, m, h, rfl⟩
  | @binary op left right _ _ _ ihleft _ =>
    rw [type] at hm ⊢
    split at hm
    · cases hm
    · next hother =>
      rw [if_neg hother]
      exact ihleft hm
  | @method m args type name _ h _ => exact .inr ⟨name, m, h⟩
  | @capability c args _ _ ih =>
    have hhead : ∀ {type : Ty}, type = (args.head?.map Expr.type).getD .void →
        type.equality? = some method →
          (∃ name m, scope.resolve? name = some m ∧ m.type = type) ∨
            ∃ name m, scope.method? name = some (m, type) := by
      rintro type rfl hm
      cases args with
      | nil => cases hm
      | cons a args => exact ih a (by simp) hm
    cases c with
    | load | add | subtract | remainder => exact hhead rfl hm
    | store | increment | decrement => cases hm

/-! ## Typing -/

/-- Orderings, remainders and the arithmetic capabilities, which take no references. -/
def isNumeric : Expr → Bool
  | binary op _ _ => op.isOrdering || op == .rem
  | call (.capability c) _ _ => c.isArithmetic
  | _ => false

/-- No reference is ordered or computed with, and chains join int32 values only. -/
structure Restrained (e : Expr) : Prop where
  numbers : ∀ p c, Part p e → p.isNumeric → c ∈ p.children → c.type.isReference = false
  truths : ∀ p c, Part p e → p.isLogical → c ∈ p.children → c.type.isInt32 = true

instance (e : Expr) : Decidable e.Restrained :=
  decidable_of_iff
    (∀ p ∈ e.parts, (p.isNumeric → ∀ c ∈ p.children, c.type.isReference = false) ∧
      (p.isLogical → ∀ c ∈ p.children, c.type.isInt32 = true))
    ⟨fun h => ⟨fun p c hp hnumeric => (h p (mem_parts.mpr hp)).1 hnumeric c,
        fun p c hp hlogical => (h p (mem_parts.mpr hp)).2 hlogical c⟩,
      fun h p hp => ⟨fun hnumeric c => h.numbers p c (mem_parts.mp hp) hnumeric,
        fun hlogical c => h.truths p c (mem_parts.mp hp) hlogical⟩⟩

/-- The methods that an expression calls, with the types that they declare. A method that decides
equality returns an `i32`. -/
def Calls (e : Expr) (method : Method) (type : Ty) : Prop :=
  (∃ args, Part (.call (.method method) args type) e) ∨
    type = .i32 ∧ ∃ op left right, Part (.binary op left right) e ∧ (op = .eq ∨ op = .ne) ∧
      (Emission.comparisonType left right).equality? = some method

theorem Restrained.child {c : Expr} (h : e.Restrained) (hc : c ∈ e.children) : c.Restrained where
  numbers p d hp := h.numbers p d (.child hc hp)
  truths p d hp := h.truths p d (.child hc hp)

theorem Calls.of_child {c : Expr} {method : Method} {type : Ty} (hc : c ∈ e.children)
    (h : c.Calls method type) : e.Calls method type := by
  rcases h with ⟨args, hp⟩ | ⟨htype, op, left, right, hp, hrest⟩
  · exact .inl ⟨args, .child hc hp⟩
  · exact .inr ⟨htype, op, left, right, .child hc hp, hrest⟩

variable {known : Vocabulary}

/-- What was read, has code and is restrained is typed. -/
theorem Checked.typed (h : e.Checked scope) (hadmissible : e.Admissible)
    (heq : e.EqualitiesProper) (hrestrained : e.Restrained)
    (hmembers : ∀ name m, scope.resolve? name = some m → known.members m)
    (hcalls : ∀ method type, e.Calls method type → known.calls method type) : e.Typed known := by
  induction h with
  | @member m name h => exact .member (hmembers name m h)
  | literal l => exact .literal l
  | carried => exact absurd rfl (hadmissible.notCarried _)
  | @binary op left right _ _ hmeet ihleft ihright =>
    obtain ⟨hsupported, hadmleft, hadmright⟩ := admissible_binary.mp hadmissible
    have hl : left ∈ (Expr.binary op left right).children := by simp [children]
    have hr : right ∈ (Expr.binary op left right).children := by simp [children]
    have htypedl := ihleft hadmleft (heq.child hl) (hrestrained.child hl)
      fun method type h => hcalls method type (h.of_child hl)
    have htypedr := ihright hadmright (heq.child hr) (hrestrained.child hr)
      fun method type h => hcalls method type (h.of_child hr)
    rcases hsupported with hcomparison | hlogical | rfl
    · refine .comparison hcomparison htypedl htypedr ?_ ?_ ?_
      · exact hmeet (by cases op <;> first | rfl | cases hcomparison)
          (by cases op <;> first | rfl | cases hcomparison)
      · intro hordering
        exact hrestrained.numbers _ left .self (by simp [isNumeric, hordering]) hl
      · intro method hop hm
        exact ⟨hcalls method .i32 (.inr ⟨rfl, op, left, right, .self, hop, hm⟩),
          heq op left right method .self hop hm⟩
    · exact .chain hlogical htypedl htypedr (hrestrained.truths _ right .self hlogical hr)
    · exact .remainder htypedl htypedr (hmeet rfl rfl) (hrestrained.numbers _ left .self rfl hl)
  | @method m args type name _ h ih =>
    rcases hadmissible.call_cases with ⟨_, hload, -⟩ | ⟨-, hleaves, hlength, -, hadm⟩
    · cases hload
    · refine .method (fun a ha => ?_) hlength hleaves (hcalls m type (.inl ⟨args, .self⟩))
      exact ih a ha (hadm a ha) (heq.child ha) (hrestrained.child ha)
        fun method type h => hcalls method type (h.of_child ha)
  | @capability c args hargs hmeet ih =>
    rcases hadmissible.call_cases with ⟨m, hload, rfl⟩ | ⟨hload, hleaves, hlength, -, hadm⟩
    · cases hload
      cases hargs _ (List.mem_singleton_self _) with
      | @carried _ name h => exact .load (hmembers name m h)
    · have hc : c.isArithmetic = true := by
        cases c with
        | add | subtract | remainder => rfl
        | load => exact absurd rfl hload
        | store | increment | decrement => simp [Callee.leavesValue] at hleaves
      have hparams : c.params.length = 2 := by cases c <;> first | rfl | cases hc
      obtain ⟨a, b, rfl⟩ := two_of_length (hlength.trans hparams)
      have hall : ∀ x ∈ [a, b], x.Typed known := fun x hx =>
        ih x hx (hadm x hx) (heq.child hx) (hrestrained.child hx)
          fun method type h => hcalls method type (h.of_child hx)
      have htype : Reading.capabilityType c [a, b] = a.type := by
        cases c <;> first | rfl | cases hc
      rw [htype]
      exact .arithmetic hc (hall a (by simp)) (hall b (by simp)) (hmeet hc a b rfl)
        (hrestrained.numbers _ a .self hc (by simp [children]))

end Expr

end GuardCode
