import GuardCode.Proofs.Emission.Simulation
import GuardCode.Proofs.Reading.Checked

/-! Values are of the kinds that types say. Where members hold and methods return values of their
types, whatever an expression that was read comes to is of its own type, so that the instructions that
were chosen by types are right for the values. Nothing is asked of what an expression does not come
to: members may be missing and methods may fail. -/
namespace GuardCode

/-- What the method returns is of the type. -/
def Host.Returns {σ : Type} (host : Host σ) (method : Method) (type : Ty) : Prop :=
  ∀ implementation args before v after, host.find? method.id = some implementation →
    args.length = method.arity → implementation args before = .ok (some v) after → v.IsOf type

/-- What is known comes to values of the types that are declared, if it comes to any. -/
structure Environment.Respects {σ : Type} (env : Environment σ) (known : Vocabulary) : Prop where
  members : ∀ m, known.members m → ∀ v before after, env.load m before = .ok v after →
    v.IsOf m.type
  calls : ∀ method type, known.calls method type → env.host.Returns method type

namespace Operation

variable {a b v : Value} {i : Instruction}

theorem add_stackKind (h : add i a b = .ok v) : v.stackKind = a.stackKind := by
  cases a <;> cases b <;> cases h <;> rfl

theorem sub_stackKind (h : sub i a b = .ok v) : v.stackKind = a.stackKind := by
  cases a <;> cases b <;> cases h <;> rfl

theorem eq_of_map_eq_ok {α : Type} {outcome : Except ExecutionError α} {f : α → Value}
    (h : outcome.map f = .ok v) : ∃ x, v = f x := by
  cases outcome with
  | ok x =>
    cases h
    exact ⟨x, rfl⟩
  | error e => cases h

theorem rem_stackKind (h : rem i a b = .ok v) : v.stackKind = a.stackKind := by
  cases a with
  | int32 | int64 =>
    cases b with
    | int32 | int64 =>
      first
        | obtain ⟨r, rfl⟩ := eq_of_map_eq_ok h
          rfl
        | cases h
    | _ => cases h
  | _ => cases b <;> cases h <;> rfl

end Operation

namespace Environment

variable {σ : Type} {env : Environment σ} {before after : σ} {v : Value}

theorem eq_ok_of_ofExcept {outcome : Except ExecutionError Value}
    (h : (MonadExcept.ofExcept outcome : Evaluation σ Value) before = .ok v after) :
    outcome = .ok v := by
  cases outcome with
  | ok u =>
    cases h
    rfl
  | error e => cases h

theorem isOf_call {method : Method} {type : Ty} (args : List Value)
    (hreturns : env.host.Returns method type) (hlength : args.length = method.arity)
    (h : env.call method args before = .ok v after) : v.IsOf type := by
  unfold call at h
  cases hfind : env.host.find? method.id with
  | none =>
    rw [hfind] at h
    cases h
  | some implementation =>
    rw [hfind] at h
    obtain ⟨result?, middle, hresult, h⟩ := bind_eq_ok h
    cases result? with
    | none => cases h
    | some u =>
      cases h
      exact hreturns implementation args before v after hfind hlength hresult

theorem length_evalAll {args : List Expr} {vs : List Value}
    (h : Expr.evalAll env args before = .ok vs after) : vs.length = args.length := by
  induction args generalizing before vs with
  | nil =>
    cases h
    rfl
  | cons e es ih =>
    rw [Expr.evalAll] at h
    obtain ⟨u, middle, -, h⟩ := bind_eq_ok h
    obtain ⟨us, last, hus, h⟩ := bind_eq_ok h
    cases h
    rw [List.length_cons, List.length_cons, ih hus]

/-- A comparison comes to a truth value, or to what a method returns that decides equality. -/
theorem isOf_operate {op : BinaryOp} {type : Ty} {a b : Value} (hop : op.isComparison)
    (hequality : ∀ method, (op = .eq ∨ op = .ne) → type.equality? = some method →
      method.arity = 2 ∧ env.host.Returns method .i32)
    (h : env.operate op type a b before = .ok v after) : v.IsOf .bool := by
  have hplain : (op = .eq ∨ op = .ne → type.equality? = none) → v.IsOf .bool := by
    intro hnone
    rw [operate_fused hop hnone] at h
    obtain ⟨t, rfl⟩ := Operation.eq_of_map_eq_ok (eq_ok_of_ofExcept h)
    exact Value.isOf_ofBool t
  cases hm : type.equality? with
  | none => exact hplain fun _ => hm
  | some method =>
    cases op with
    | eq =>
      obtain ⟨harity, hreturns⟩ := hequality method (.inl rfl) hm
      simp only [operate, hm] at h
      exact (isOf_call [a, b] hreturns harity.symm h).bool rfl
    | ne =>
      simp only [operate, hm] at h
      obtain ⟨u, middle, -, h⟩ := bind_eq_ok h
      cases h
      exact Value.isOf_ofBool _
    | lt | le | gt | ge => exact hplain (by simp)
    | _ => cases hop

/-- Arithmetic on two values is of the kind of the left one. -/
theorem isOf_invoke {c : Capability} {type : Ty} {a b : Value} (hc : c.isArithmetic)
    (ha : a.IsOf type) (h : env.invoke (.capability c) [a, b] before = .ok v after) :
    v.IsOf type := by
  have hkind : v.stackKind = a.stackKind := by
    cases c with
    | add => exact Operation.add_stackKind (eq_ok_of_ofExcept h)
    | subtract => exact Operation.sub_stackKind (eq_ok_of_ofExcept h)
    | remainder => exact Operation.rem_stackKind (eq_ok_of_ofExcept h)
    | _ => cases hc
  rw [Value.IsOf, hkind]
  exact ha

end Environment

namespace Expr

open Environment

variable {σ : Type} {env : Environment σ} {known : Vocabulary} {scope : Scope} {e : Expr}

/-- A part of an admissible expression is admissible, unless it is carried. -/
theorem Admissible.part {p : Expr} (h : e.Admissible) (hp : Part p e)
    (hcarried : ∀ c, p ≠ .carried c) : p.Admissible :=
  ⟨hcarried, fun q hq => h.parts q (hq.trans hp)⟩

theorem EqualitiesProper.part {p : Expr} (h : e.EqualitiesProper) (hp : Part p e) :
    p.EqualitiesProper :=
  fun op left right method hq => h op left right method (hq.trans hp)

theorem Calls.of_part {p : Expr} {method : Method} {type : Ty} (hp : Part p e)
    (h : p.Calls method type) : e.Calls method type := by
  induction hp with
  | self => exact h
  | child hc _ ih => exact ih.of_child hc

/-- What an expression comes to is of its type. -/
theorem Checked.isOf (h : e.Checked scope) (hadmissible : e.Admissible)
    (heq : e.EqualitiesProper) (henv : env.Respects known)
    (hmembers : ∀ name m, scope.resolve? name = some m → known.members m)
    (hcalls : ∀ method type, e.Calls method type → known.calls method type) {v : Value}
    (hv : e.Yields env v) : v.IsOf e.type := by
  induction h generalizing v with
  | @member m name h =>
    obtain ⟨before, after, hv⟩ := hv
    exact henv.members m (hmembers name m h) v before after hv
  | literal l =>
    obtain ⟨before, after, hv⟩ := hv
    cases hv
    exact l.isOf_value
  | carried => exact absurd rfl (hadmissible.notCarried _)
  | @binary op left right _ _ _ ihleft _ =>
    obtain ⟨before, after, hv⟩ := hv
    obtain ⟨hsupported, hadmleft, -⟩ := admissible_binary.mp hadmissible
    have hl : left ∈ (Expr.binary op left right).children := by simp [children]
    rcases hsupported with hcomparison | hlogical | rfl
    · have htype : (Expr.binary op left right).type = .bool := by
        rw [type, hcomparison]
        rfl
      rw [eval_plain (by cases op <;> first | rfl | cases hcomparison)] at hv
      obtain ⟨a, middle, -, hv⟩ := bind_eq_ok hv
      obtain ⟨b, last, -, hv⟩ := bind_eq_ok hv
      rw [htype]
      refine isOf_operate hcomparison (fun method hop hm => ?_) hv
      exact ⟨(heq op left right method .self hop hm).1,
        henv.calls method .i32 (hcalls method .i32 (.inr ⟨rfl, op, left, right, .self, hop, hm⟩))⟩
    · rw [eq_ofBool_of_logical hlogical hv, type, hlogical, Bool.or_true]
      exact Value.isOf_ofBool _
    · rw [eval_plain rfl] at hv
      obtain ⟨a, middle, ha, hv⟩ := bind_eq_ok hv
      obtain ⟨b, last, -, hv⟩ := bind_eq_ok hv
      have hkind := Operation.rem_stackKind (eq_ok_of_ofExcept hv)
      rw [Value.IsOf, hkind]
      exact ihleft hadmleft (heq.child hl)
        (fun method type h => hcalls method type (h.of_child hl)) ⟨_, _, ha⟩
  | @method m args type name _ h _ =>
    obtain ⟨before, after, hv⟩ := hv
    rcases hadmissible.call_cases with ⟨_, hload, -⟩ | ⟨hload, -, hlength, -, -⟩
    · cases hload
    · rw [eval, loaded?_eq_none args hload] at hv
      obtain ⟨vs, middle, hvs, hv⟩ := bind_eq_ok hv
      exact isOf_call vs (henv.calls m type (hcalls m type (.inl ⟨args, .self⟩)))
        ((length_evalAll hvs).trans hlength) hv
  | @capability c args hargs _ ih =>
    obtain ⟨before, after, hv⟩ := hv
    rcases hadmissible.call_cases with ⟨m, hload, rfl⟩ | ⟨hload, hleaves, hlength, -, hadm⟩
    · cases hload
      cases hargs _ (List.mem_singleton_self _) with
      | @carried _ name h => exact henv.members m (hmembers name m h) v before after hv
    · have hc : c.isArithmetic = true := by
        cases c with
        | add | subtract | remainder => rfl
        | load => exact absurd rfl hload
        | store | increment | decrement => simp [Callee.leavesValue] at hleaves
      have hparams : c.params.length = 2 := by cases c <;> first | rfl | cases hc
      obtain ⟨x, y, rfl⟩ := two_of_length (hlength.trans hparams)
      have htype : Reading.capabilityType c [x, y] = x.type := by
        cases c <;> first | rfl | cases hc
      have hx : x ∈ [x, y] := by simp
      rw [eval, loaded?_eq_none _ hload] at hv
      obtain ⟨vs, middle, hvs, hv⟩ := bind_eq_ok hv
      rw [evalAll] at hvs
      obtain ⟨a, _, ha, hvs⟩ := bind_eq_ok hvs
      obtain ⟨us, _, hus, hvs⟩ := bind_eq_ok hvs
      cases hvs
      obtain ⟨b, rfl⟩ := List.length_eq_one_iff.mp (length_evalAll hus)
      rw [type, htype]
      exact isOf_invoke hc (ih x hx (hadm x hx) (heq.child hx)
        (fun method type h => hcalls method type (h.of_child hx)) ⟨_, _, ha⟩) hv

/-- The choice of instructions is right for the values, but for chains whose value is used. -/
theorem Checked.wellKinded (h : e.Checked scope) (hadmissible : e.Admissible)
    (heq : e.EqualitiesProper) (henv : env.Respects known)
    (hmembers : ∀ name m, scope.resolve? name = some m → known.members m)
    (hcalls : ∀ method type, e.Calls method type → known.calls method type)
    (hchains : ∀ p c, Part p e → p.isLogical = false → c ∈ p.children → env.Normal c) :
    e.WellKinded env where
  operands op left right hp hop := by
    have hbinary := hadmissible.part hp (by simp)
    obtain ⟨-, hadmleft, hadmright⟩ := admissible_binary.mp hbinary
    have hfits : ∀ {c v}, c ∈ (Expr.binary op left right).children → c.Admissible →
        c.Yields env v → v.Fits c.type := by
      intro c v hc hadm hv
      have hpart : Part c e := Part.trans (.child hc .self) hp
      exact ((h.part hpart).isOf hadm (heq.part hpart) henv hmembers
        (fun method type h => hcalls method type (h.of_part hpart)) hv).fits
    exact ⟨fun v => hfits (by simp [children]) hadmleft,
      fun v => hfits (by simp [children]) hadmright⟩
  differences left right method hp hm a b before v after hcall := by
    have hreturns := henv.calls method .i32
      (hcalls method .i32 (.inr ⟨rfl, .ne, left, right, hp, .inr rfl, hm⟩))
    have harity := (heq .ne left right method hp (.inr rfl) hm).1
    have hv : v.IsOf .i32 := isOf_call [a, b] hreturns harity.symm hcall
    exact hv.int32 rfl
  chains p c v hp hlogical hc hchain := hchains p c hp hlogical hc hchain v

end Expr

end GuardCode
