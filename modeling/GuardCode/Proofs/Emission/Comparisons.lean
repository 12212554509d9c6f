import GuardCode.Proofs.Emission.Drafts
import GuardCode.Proofs.Machine.Delivery

/-! Constants, tests and comparisons at work. Whatever instruction a comparison is fused into, its
place and the kinds of its operands make it come to what the comparison means. -/
namespace GuardCode

open Machine (Place)

namespace Environment

variable {σ : Type} {env : Environment σ} {code : Code} {position : Nat} {stack : List Value}
  {world : σ} {a b v : Value}

/-! ## Constants -/

/-- A constant that is small enough to be part of the opcode is kept. -/
theorem small_eq {v : Int32} (h : 0 ≤ v ∧ v ≤ 8) :
    Int32.ofNat (UInt8.ofNat v.toNatClampNeg).toNat = v := by
  have hclamp := Int32.toInt_eq_toNatClampNeg h.1
  have hle : v.toInt ≤ 8 := Int32.le_iff_toInt_le.mp h.2
  have hsmall : (UInt8.ofNat v.toNatClampNeg).toNat = v.toNatClampNeg :=
    UInt8.toNat_ofNat_of_lt (by show v.toNatClampNeg < 2 ^ 8; omega)
  rw [hsmall, Int32.ofNat_toNatClampNeg v h.1]

theorem Goes.pushInt {v : Int32} (hi : code.Holds position (.pushInt v)) :
    env.Goes code (position, env.machine stack world)
      (position + 1, env.machine (.int32 v :: stack) world) := by
  refine .step hi (by simp) ?_
  unfold Instruction.pushInt
  split
  · rename_i hv
    subst hv
    rfl
  · split
    · rename_i hv
      simp only [Machine.step, small_eq hv]
      rfl
    · rfl

/-- Bringing an integer of sixteen bits into its range changes nothing. -/
theorem Goes.pushWide {v : Int32} {signed : Bool} (h : Operation.widen16 (.widen16 signed) signed
    (.int32 v) = .ok (.int32 v))
    (hp : Directive.Placed code position [.emit (.pushInt v), .emit (.widen16 signed)]) :
    env.Goes code (position, env.machine stack world)
      (position + 2, env.machine (.int32 v :: stack) world) := by
  obtain ⟨hpush, hwiden, -⟩ := hp
  refine (Goes.pushInt hpush).trans (.step hwiden (by cases signed <;> rfl) ?_)
  have hs : Machine.step (env.setting code) (position + 1) (.widen16 signed)
      (env.machine (.int32 v :: stack) world) = (env.machine stack world).pushResult (position + 1)
        (Operation.widen16 (.widen16 signed) signed (.int32 v)) := by
    cases signed <;> rfl
  rw [hs, h]
  rfl

theorem Goes.pushLiteral {l : Literal}
    (hp : Directive.Placed code position ((Instruction.pushLiteral l).map .emit)) :
    env.Goes code (position, env.machine stack world)
      (position + (Instruction.pushLiteral l).length, env.machine (l.value :: stack) world) := by
  cases l with
  | bool v => cases v <;> exact .pushInt hp.1
  | u8 v | i8 v | i32 v | char v => exact .pushInt hp.1
  | i16 v =>
    refine .pushWide ?_ hp
    simp [Operation.widen16]
  | u16 v =>
    refine .pushWide ?_ hp
    simp [Operation.widen16]
  | null | i64 | f32 | f64 | string => exact .step hp.1 rfl rfl

/-! ## Tests -/

theorem isTruthy_ofBool (t : Bool) : (Value.ofBool t).isTruthy = t := by
  cases t <;> rfl

section

variable (env code)

/-- What has become of the value of a condition that jumps nowhere else. -/
def Settles (outlet : Outlet) (final : Nat) (stack : List Value) (v : Value) (world : σ)
    (d : Place σ) : Prop :=
  match outlet with
  | .stack => env.Pushes final stack v world d
  | .jumpIfFalse label =>
    d = (if v.isTruthy then final else code.target label, env.machine stack world)
  | .jumpIfTrue label =>
    d = (if v.isTruthy then code.target label else final, env.machine stack world)

end

theorem Goes.test (outlet : Outlet)
    (hp : Directive.Placed code position ((Emission.test outlet).map .emit)) :
    ∃ d, env.Goes code (position, env.machine (v :: stack) world) d ∧
      env.Settles code outlet (position + (Emission.test outlet).length) stack v world d := by
  cases outlet with
  | stack => exact ⟨_, .refl _, rfl⟩
  | jumpIfFalse label => exact ⟨_, .ifFalse hp.1, rfl⟩
  | jumpIfTrue label => exact ⟨_, .ifTrue hp.1, rfl⟩

theorem Goes.negate {n : Int32} (hp : Directive.Placed code position (Emission.negate.map .emit)) :
    env.Goes code (position, env.machine (.int32 n :: stack) world)
      (position + 2, env.machine (.ofBool (!(Value.int32 n).isTruthy) :: stack) world) := by
  obtain ⟨hpush, hequal, -⟩ := hp
  refine (Goes.pushInt hpush).trans (.step hequal rfl ?_)
  have htruth : (n == 0) = !(Value.int32 n).isTruthy := by
    rw [Value.isTruthy, Bool.eq_iff_iff]
    simp
  rw [← htruth]
  rfl

/-- The test of a negated truth value, which has to be an int32 where it stays on the stack. -/
theorem Goes.testNot (outlet : Outlet) (hv : ∃ n, v = .int32 n)
    (hp : Directive.Placed code position ((Emission.testNot outlet).map .emit)) :
    ∃ d, env.Goes code (position, env.machine (v :: stack) world) d ∧
      env.Settles code outlet (position + (Emission.testNot outlet).length) stack
        (.ofBool !v.isTruthy) world d := by
  cases outlet with
  | stack =>
    obtain ⟨n, rfl⟩ := hv
    exact ⟨_, .negate hp, rfl⟩
  | jumpIfFalse label =>
    refine ⟨_, .ifTrue hp.1, ?_⟩
    rw [Settles, isTruthy_ofBool]
    cases v.isTruthy <;> rfl
  | jumpIfTrue label =>
    refine ⟨_, .ifFalse hp.1, ?_⟩
    rw [Settles, isTruthy_ofBool]
    cases v.isTruthy <;> rfl

/-! ## Comparisons -/

/-- The branch that is taken where a comparison fails. -/
theorem failing_agree {op : BinaryOp} {type : Ty} {branch : BranchOp}
    (h : Emission.failing? type.isFloat op = some branch) (hfits : a.Fits type ∨ b.Fits type)
    (j : Instruction) :
    Operation.Agree (fun taken holds => taken = !holds) (Operation.holds j a b branch)
      (op.holds a b) := by
  have hopposite : ∀ relation, Operation.Agree (fun taken holds => taken = !holds)
      (Operation.related j (Operation.Relation.opposite relation) type.isFloat a b)
      (Operation.related .nop relation false a b) :=
    fun relation => Operation.related_opposite j .nop relation hfits
  generalize type.isFloat = isFloat at h hopposite
  cases op with
  | eq =>
    cases h
    exact (Operation.equal_agree j .nop a b).map_left (fun _ _ h => congrArg (!·) h)
  | ne =>
    cases h
    refine (Operation.equal_agree j .nop a b).map_right (fun x y h => ?_)
    simpa using h
  | gt => cases isFloat <;> cases h <;> exact hopposite .greater
  | lt => cases isFloat <;> cases h <;> exact hopposite .less
  | ge => cases isFloat <;> cases h <;> exact hopposite .greaterOrEqual
  | le => cases isFloat <;> cases h <;> exact hopposite .lessOrEqual
  | _ => cases h

/-- The branch that is taken where a comparison holds. -/
theorem holding_agree {op : BinaryOp} {branch : BranchOp}
    (h : Emission.holding? op = some branch) (j : Instruction) :
    Operation.Agree Eq (Operation.holds j a b branch) (op.holds a b) := by
  cases op with
  | eq =>
    cases h
    exact Operation.equal_agree j .nop a b
  | ne =>
    cases h
    exact (Operation.equal_agree j .nop a b).map (fun _ _ h => congrArg (!·) h)
  | gt | lt | ge | le =>
    cases h
    exact Operation.related_agree j .nop _ false
  | _ => cases h

/-- An instruction that leaves the outcome of a comparison on the stack. -/
theorem Delivers.outcome {i : Instruction} {m : Machine σ}
    {outcome expected : Except ExecutionError Bool} (hi : code.Holds position i)
    (ht : i.target? = none)
    (hs : Machine.step (env.setting code) position i m =
      (env.machine stack world).pushResult position (outcome.map .ofBool))
    (h : Operation.Agree Eq outcome expected) :
    env.Delivers code (position, m)
      ((MonadExcept.ofExcept (expected.map .ofBool) : Evaluation σ Value) world)
      (env.Pushes (position + 1) stack) :=
  .result hi ht hs (h.map fun _ _ h => congrArg Value.ofBool h)

/-- As before, of an instruction for the opposite, whose outcome is negated. -/
theorem Delivers.negated {i : Instruction} {m : Machine σ}
    {outcome expected : Except ExecutionError Bool} (hi : code.Holds position i)
    (ht : i.target? = none)
    (hs : Machine.step (env.setting code) position i m =
      (env.machine stack world).pushResult position (outcome.map .ofBool))
    (h : Operation.Agree (fun x y => x = !y) outcome expected)
    (hp : Directive.Placed code (position + 1) (Emission.negate.map .emit)) :
    env.Delivers code (position, m)
      ((MonadExcept.ofExcept (expected.map .ofBool) : Evaluation σ Value) world)
      (env.Pushes (position + 3) stack) := by
  cases outcome with
  | ok x =>
    cases expected with
    | ok y =>
      obtain rfl : x = !y := h
      refine ⟨_, (Goes.step hi ht hs).trans (.negate hp), ?_⟩
      rw [Pushes, ← Value.ofBool, isTruthy_ofBool, Bool.not_not]
      rfl
    | error e => cases h
  | error e =>
    cases expected with
    | ok y => cases h
    | error e' => exact Fails.step (hi.eq_some ht) hs h rfl rfl

/-- A comparison whose outcome stays on the stack. -/
theorem Delivers.compared {op : BinaryOp} {type : Ty} {is : List Instruction}
    (h : Emission.compared? type op = some is) (hfits : a.Fits type ∨ b.Fits type)
    (hp : Directive.Placed code position (is.map .emit)) :
    env.Delivers code (position, env.machine (b :: a :: stack) world)
      ((MonadExcept.ofExcept ((op.holds a b).map .ofBool) : Evaluation σ Value) world)
      (env.Pushes (position + is.length) stack) := by
  cases op with
  | eq =>
    cases h
    exact .outcome hp.1 rfl rfl (Operation.equal_agree _ _ a b)
  | ne =>
    have hequal := Operation.equal_agree .compareEqual .nop a b
    cases htype : type.isReference with
    | true =>
      simp only [Emission.compared?, htype, ↓reduceIte, Option.some.injEq] at h
      subst h
      refine .outcome hp.1 rfl rfl ?_
      exact (Operation.related_differ _ .nop _ hfits htype).map_right fun x y h => h
    | false =>
      simp only [Emission.compared?, htype, Bool.false_eq_true, ↓reduceIte,
        Option.some.injEq] at h
      subst h
      refine .negated hp.1 rfl rfl ?_ hp.2
      refine hequal.map_right fun x y h => ?_
      simpa using h
  | gt | lt =>
    cases h
    exact .outcome hp.1 rfl rfl (Operation.related_agree _ _ _ false)
  | ge =>
    cases h
    have hopposite := fun i => Operation.related_opposite i .nop .greaterOrEqual hfits
    generalize type.isFloat = isFloat at hp hopposite ⊢
    cases isFloat <;> exact .negated hp.1 rfl rfl (hopposite _) hp.2
  | le =>
    cases h
    have hopposite := fun i => Operation.related_opposite i .nop .lessOrEqual hfits
    generalize type.isFloat = isFloat at hp hopposite ⊢
    cases isFloat <;> exact .negated hp.1 rfl rfl (hopposite _) hp.2
  | _ => cases h

/-- A comparison fused with what becomes of its outcome. -/
theorem Delivers.fused {op : BinaryOp} {type : Ty} {outlet : Outlet} {is : List Instruction}
    (hop : op.isComparison) (h : Emission.fused? op type outlet = some is)
    (hfits : a.Fits type ∨ b.Fits type) (hp : Directive.Placed code position (is.map .emit)) :
    env.Delivers code (position, env.machine (b :: a :: stack) world)
      ((MonadExcept.ofExcept ((op.holds a b).map .ofBool) : Evaluation σ Value) world)
      (env.Settles code outlet (position + is.length) stack) := by
  cases outlet with
  | stack => exact .compared h hfits hp
  | jumpIfFalse label =>
    obtain ⟨branch, hbranch, hpops⟩ := Emission.failing?_conditional hop type.isFloat
    simp only [Emission.fused?, hbranch, Option.map_some, Option.some.injEq] at h
    subst h
    have hagree : ∀ j, Operation.Agree (fun taken (v : Value) => taken = !v.isTruthy)
        (Operation.holds j a b branch) ((op.holds a b).map .ofBool) := fun j =>
      (failing_agree hbranch hfits j).map_right fun x y h => by rw [h, isTruthy_ofBool]
    refine (Delivers.branch hp.1 hpops hagree).mono ?_
    rintro v after d ⟨taken, rfl, rfl⟩
    rw [Settles]
    cases v.isTruthy <;> rfl
  | jumpIfTrue label =>
    obtain ⟨branch, hbranch, hpops⟩ := Emission.holding?_conditional hop
    simp only [Emission.fused?, hbranch, Option.map_some, Option.some.injEq] at h
    subst h
    have hagree : ∀ j, Operation.Agree (fun taken (v : Value) => taken = v.isTruthy)
        (Operation.holds j a b branch) ((op.holds a b).map .ofBool) := fun j =>
      (holding_agree hbranch j).map_right fun x y h => by rw [h, isTruthy_ofBool]
    refine (Delivers.branch hp.1 hpops hagree).mono ?_
    rintro v after d ⟨taken, rfl, rfl⟩
    rfl

theorem operate_fused {op : BinaryOp} {type : Ty} (hop : op.isComparison)
    (hplain : (op = .eq ∨ op = .ne) → type.equality? = none) :
    env.operate op type a b = MonadExcept.ofExcept ((op.holds a b).map .ofBool) := by
  have happly : op.apply a b = (op.holds a b).map .ofBool := by
    cases op <;> first | rfl | cases hop
  rw [← happly]
  unfold operate
  split
  · rename_i method hm
    simp [hplain (.inl rfl)] at hm
  · rename_i method hm
    simp [hplain (.inr rfl)] at hm
  · rfl

/-- A comparison of the two values on top, whatever becomes of its outcome. -/
theorem Delivers.compare {op : BinaryOp} {type : Ty} {outlet : Outlet} {next : Label}
    (hop : op.isComparison) (hfits : a.Fits type ∨ b.Fits type)
    (hmethod : ∀ method, (op = .eq ∨ op = .ne) → type.equality? = some method →
      method.arity = 2 ∧ method.returnsValue)
    (hint : ∀ method, op = .ne → type.equality? = some method →
      ∀ before v after, env.call method [a, b] before = .ok v after → ∃ n, v = .int32 n)
    (hp : Directive.Placed code position (Emission.compare op type outlet next)) :
    env.Delivers code (position, env.machine (b :: a :: stack) world)
      (env.operate op type a b world)
      (env.Settles code outlet
        (position + Directive.length (Emission.compare op type outlet next)) stack) := by
  have hcall : ∀ method, (op = .eq ∨ op = .ne) → type.equality? = some method →
      code.Holds position (.call method) → env.Delivers code
        (position, env.machine (b :: a :: stack) world) (env.call method [a, b] world)
        (env.Pushes (position + 1) stack) := by
    intro method hcase hm hi
    obtain ⟨harity, hreturns⟩ := hmethod method hcase hm
    exact .call [a, b] hi hreturns harity.symm
  rcases Emission.compare_cases hop type outlet with ⟨method, rfl, hm, h⟩ |
    ⟨method, rfl, hm, h⟩ | ⟨hplain, is, his, h⟩
  · have hoperate : env.operate .eq type a b = env.call method [a, b] := by
      simp only [operate, hm]
    rw [h] at hp ⊢
    rw [hoperate, Draft.emit, Draft.write, Directive.length_map_emit, List.length_cons,
      Nat.add_comm _ 1, ← Nat.add_assoc]
    refine (hcall method (.inl rfl) hm hp.1).onward ?_
    rintro v after d - rfl
    exact Goes.test outlet hp.2
  · have hoperate : env.operate .ne type a b =
        env.call method [a, b] >>= fun v => pure (.ofBool !v.isTruthy) := by
      simp only [operate, hm]
    rw [h] at hp ⊢
    rw [hoperate, Draft.emit, Draft.write, Directive.length_map_emit, List.length_cons,
      Nat.add_comm _ 1, ← Nat.add_assoc]
    refine (hcall method (.inr rfl) hm hp.1).bind ?_
    rintro v after d hv rfl
    exact Goes.testNot outlet (hint method rfl hm _ _ _ hv) hp.2
  · rw [h] at hp ⊢
    rw [operate_fused hop hplain, Draft.emit, Draft.write, Directive.length_map_emit]
    exact .fused hop his hfits hp

end Environment

end GuardCode
