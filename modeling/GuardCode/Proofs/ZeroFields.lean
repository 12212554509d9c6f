import GuardCode.Proofs.Layout

/-! Fields that start at zero. Instructions name a field by its number, whereas the zero values for a
run stand in the order in which the fields were declared. So a run finds a field at its zero value
where the field of its number has the same, above all where the fields are declared in the order of
their numbers; and what stands in slots that the guard does not name does not matter. -/
namespace GuardCode

/-! ## The fields of the code -/

/-- The field that an instruction loads or stores. -/
def Instruction.field? : Instruction → Option Field
  | loadField field | storeField field => some field
  | _ => none

theorem Instruction.field?_of_neutral {i : Instruction} (h : i.neutral) : i.field? = none := by
  cases i <;> first | rfl | cases h

/-- An expression names a member, as a value or as the target of a capability. -/
def Expr.Names (m : Member) (e : Expr) : Prop := Part (.member m) e ∨ Part (.carried (.member m)) e

/-- The code of an expression uses the fields that the expression names. -/
theorem Expr.permits_named (e : Expr) :
    e.Permits fun i => ∀ field, i.field? = some field → e.Names (.field field) where
  neutral i hi field hfield := by
    rw [Instruction.field?_of_neutral hi] at hfield
    cases hfield
  members m hp field hfield := by
    cases m with
    | field =>
      cases hfield
      exact .inl hp
    | arg | loc => cases hfield
  primitives c args type next i hp hi field hfield := by
    have hnames : ∀ {m}, Emission.target? c.params args = some m → e.Names m := fun htarget =>
      .inr (Part.trans (.child (mem_of_target? htarget) .self) hp)
    rcases Emission.mem_primitive hi with hneutral | ⟨m, hm, rfl⟩ | ⟨slot, -, hlocal⟩ |
      ⟨-, other, hm, rfl⟩
    · rw [Instruction.field?_of_neutral hneutral] at hfield
      cases hfield
    · cases m with
      | field =>
        cases hfield
        exact hnames hm
      | arg | loc => cases hfield
    · cases i with
      | loadLocal | storeLocal => cases hfield
      | _ => cases hlocal
    · cases hfield
      exact hnames hm

/-- The names of a guard are those of its scope. -/
theorem Expr.Checked.resolves {scope : Scope} {e : Expr} {m : Member} (h : e.Checked scope)
    (hm : e.Names m) : ∃ name, scope.resolve? name = some m := by
  rcases hm with hp | hp
  · cases h.part hp with
    | member hresolve => exact ⟨_, hresolve⟩
  · cases h.part hp with
    | carried hresolve => exact ⟨_, hresolve⟩

/-! ## Runs on other fields -/

/-- Two machines that hold the same in the fields that are used, and in all but the fields. -/
structure Machine.AgreeOn {σ : Type} (used : Nat → Prop) (m m' : Machine σ) : Prop where
  stack : m'.stack = m.stack
  locals : m'.locals = m.locals
  world : m'.world = m.world
  fields : ∀ index, used index → ∃ v, m.fields[index]? = some v ∧ m'.fields[index]? = some v

namespace Machine

variable {σ : Type} {s : Setting σ} {m m' : Machine σ} {used : Nat → Prop}

theorem AgreeOn.withStack (h : m.AgreeOn used m') (stack : List Value) :
    AgreeOn used { m with stack } { m' with stack } :=
  ⟨rfl, h.locals, h.world, h.fields⟩

theorem AgreeOn.withWorld (h : m.AgreeOn used m') (world : σ) :
    AgreeOn used { m with world } { m' with world } :=
  ⟨h.stack, h.locals, rfl, h.fields⟩

theorem AgreeOn.storeField (h : m.AgreeOn used m') (index : Nat) (v : Value) :
    AgreeOn used { m with fields := m.fields.setIfInBounds index v }
      { m' with fields := m'.fields.setIfInBounds index v } where
  stack := h.stack
  locals := h.locals
  world := h.world
  fields other hother := by
    obtain ⟨w, hw, hw'⟩ := h.fields other hother
    have hlt := (Array.getElem?_eq_some_iff.mp hw).1
    have hlt' := (Array.getElem?_eq_some_iff.mp hw').1
    by_cases heq : index = other
    · subst heq
      exact ⟨v, by simp [hlt], by simp [hlt']⟩
    · exact ⟨w, by simp [heq, hw], by simp [heq, hw']⟩

theorem likeness_agreeOn (used : Nat → Prop) :
    Likeness [] (AgreeOn used : Machine σ → Machine σ → Prop) where
  stack h := h.stack.trans (List.append_nil _).symm
  world h := h.world
  withStack h stack := by
    rw [List.append_nil]
    exact h.withStack stack
  withWorld h world := h.withWorld world

/-- An instruction does the same in machines that agree on the field that it uses. -/
theorem step_agreeOn (position : Nat) (h : m.AgreeOn used m') (i : Instruction)
    (hused : ∀ field, i.field? = some field → used field.index) :
    Transition.Alike (AgreeOn used) s.code s.code position position i (step s position i m)
      (step s position i m') := by
  have hlike := likeness_agreeOn (σ := σ) used
  refine hlike.step rfl rfl rfl h i (.inr ⟨rfl, rfl⟩) fun hmemory => ?_
  cases i with
  | loadLocal =>
    simp only [step, h.locals]
    exact hlike.pushSlot h _ _
  | loadField field =>
    obtain ⟨v, hv, hv'⟩ := h.fields field.index (hused field rfl)
    simp only [step, hv, hv']
    exact .onward (hlike.push h v)
  | storeLocal index =>
    simp only [step]
    refine hlike.withTop h (.inr ⟨rfl, rfl⟩) fun v m m' h => ?_
    simp only [h.locals]
    split
    · exact .onward ⟨h.stack, rfl, h.world, h.fields⟩
    · exact ⟨rfl, h⟩
  | storeField field =>
    simp only [step]
    refine hlike.withTop h (.inr ⟨rfl, rfl⟩) fun v m m' h => ?_
    obtain ⟨w, hw, hw'⟩ := h.fields field.index (hused field rfl)
    simp only [(Array.getElem?_eq_some_iff.mp hw).1, (Array.getElem?_eq_some_iff.mp hw').1, if_true]
    exact .onward (h.storeField field.index v)
  | _ => cases hmemory

/-- Machines that agree on the fields that their code uses keep in step. -/
theorem inStep_agreeOn
    (hcode : ∀ (position : Nat) i field, s.code.instructions[position]? = some i →
      i.field? = some field → used field.index) :
    InStep s (fun _ => AgreeOn used) fun m m' => m'.world = m.world where
  weaken h := h.world
  goto := by
    intro position next i m m' m₁ hi h hs
    have halike := step_agreeOn (s := s) position h i (hcode position i · hi)
    rw [hs] at halike
    exact halike.went
  stop := by
    intro position i ending m m' m₁ hi h hs
    have halike := step_agreeOn (s := s) position h i (hcode position i · hi)
    rw [hs] at halike
    obtain ⟨m₂, hs₂, hagree⟩ := halike.stopped
    exact ⟨m₂, hs₂, hagree.world⟩

end Machine

/-! ## Compiled guards -/

namespace Predicate

variable {source : String} {params : List Ty} {around : Surroundings} {options : Options}
  {p : Predicate} {guard : Expr}

theorem fields_of_compile (h : compile source params around options = .ok p) :
    p.fields = around.fields := by
  obtain ⟨code, -, h⟩ := Reading.bind_ok h
  cases h
  rfl

/-- The code of a compiled guard uses the fields that the guard names. -/
theorem names_of_field? (hcompile : compile source params around options = .ok p)
    (hparse : Expr.parse (around.scope params) options.maxDepth source = .ok guard)
    {position : Nat} {i : Instruction} {field : Field}
    (hi : p.code.instructions[position]? = some i) (hfield : i.field? = some field) :
    guard.Names (.field field) := by
  obtain ⟨guard', b, hparse', hb, hfinish⟩ := assembled_of_compile hcompile
  rw [hparse] at hparse'
  cases hparse'
  obtain ⟨front, hlaid⟩ := laid_of_performs guard.permits_named hb hfinish
  rcases Nat.lt_or_ge position front with hlt | hge
  · obtain ⟨j, hnames, halike⟩ := hlaid.instructions position i hlt hi
    obtain rfl | ⟨op, label, f, g, rfl, -⟩ := halike.cases_eq
    · exact hnames field hfield
    · cases hfield
  · cases hlaid.tail position i hge hi with
    | store | load | test | answerTrue | answerFalse | skip => cases hfield
    | pushTrue | pushFalse =>
      rw [Instruction.field?_of_neutral (Instruction.neutral_pushInt _)] at hfield
      cases hfield

/-- What a guard names as a field was declared as one. -/
theorem mem_fields_of_names (hparse : Expr.parse (around.scope params) options.maxDepth source =
    .ok guard) {field : Field} (h : guard.Names (.field field)) : field ∈ around.fields := by
  obtain ⟨name, hresolve⟩ := (Expr.checked_of_parse hparse).resolves h
  rcases Surroundings.resolve?_cases hresolve with ⟨index, type, -, hm⟩ | ⟨other, hmem, hm⟩
  · cases hm
  · cases hm
    exact hmem

/-- The verdict and the world of a run come from how it ends. -/
theorem runWith_map {σ : Type} (p : Predicate) (host : Host σ) (fuel : Nat)
    (args fields : Array Value) (world : σ) (hsize : args.size = p.signature.params.length) :
    (p.runWith host fuel args fields world).map (fun r => (r.verdict, r.world)) =
      (((Machine.start p.code fields world).run
        { code := p.code, host, args, maxSteps? := p.maxSteps? } fuel).map
          fun last => (last.1, last.2.world)).map fun last => (verdict last.1, last.2) := by
  rw [runWith, if_neg (Classical.not_not.mpr hsize), Option.map_map, Option.map_map]
  rfl

end Predicate

/-- The fields that a guard names find their zero values in the order of declaration: the field that
was declared at the place of their number starts at the same value. -/
def Surroundings.Aligned (around : Surroundings) (guard : Expr) : Prop :=
  ∀ field, guard.Names (.field field) →
    (around.fields[field.index]?).map (Value.zero ·.type) = some (Value.zero field.type)

/-- Where the fields that a guard names are aligned, a run on the zero values is a run on fields that
each hold the zero value of their type, whatever the other slots hold. -/
theorem run_starts_fields_at_zero {σ : Type} {source : String} {params : List Ty}
    {around : Surroundings} {options : Options} {p : Predicate} {guard : Expr}
    (hcompile : Predicate.compile source params around options = .ok p)
    (hparse : Expr.parse (around.scope params) options.maxDepth source = .ok guard)
    (haligned : around.Aligned guard) (host : Host σ) (args fields : Array Value)
    (hfields : ∀ field ∈ around.fields, fields[field.index]? = some (Value.zero field.type))
    (limit? : Option Nat) (world : σ) :
    (∀ fuel, p.code.instructions.size < fuel →
      ((p.limited limit?).run host fuel args world).isSome) ∧
    ∀ fuel, ((p.limited limit?).run host fuel args world).map (fun r => (r.verdict, r.world)) =
      ((p.limited limit?).runWith host fuel args fields world).map
        fun r => (r.verdict, r.world) := by
  let used : Nat → Prop := fun index =>
    ∃ field, guard.Names (.field field) ∧ field.index = index
  have hagree : (Machine.start p.code fields world).AgreeOn used
      (Machine.start p.code p.zeroFields world) := by
    refine ⟨rfl, rfl, rfl, ?_⟩
    rintro _ ⟨field, hnames, rfl⟩
    refine ⟨Value.zero field.type,
      hfields field (Predicate.mem_fields_of_names hparse hnames), ?_⟩
    have := haligned field hnames
    simpa [Machine.start, Predicate.zeroFields, Predicate.fields_of_compile hcompile] using this
  by_cases hsize : args.size = (p.limited limit?).signature.params.length
  · refine ⟨fun fuel hfuel => ?_, fun fuel => ?_⟩
    · obtain ⟨front, hlaid⟩ := Predicate.laid_of_compile hcompile
      obtain ⟨last, hrun⟩ := @Machine.run_ends σ
        { code := p.code, host, args, maxSteps? := limit? } hlaid.forward
        (.start p.code p.zeroFields world)
      rw [Predicate.run, Predicate.runWith, if_neg (Classical.not_not.mpr hsize)]
      simp only [Option.isSome_map]
      exact Option.isSome_of_eq_some (hrun fuel hfuel)
    · rw [Predicate.run, Predicate.runWith_map _ _ _ _ _ _ hsize,
        Predicate.runWith_map _ _ _ _ _ _ hsize]
      refine congrArg (Option.map _) ((Machine.inStep_agreeOn ?_).map_resume ?_ fuel 0 hagree)
      · exact fun position i field hi hfield =>
          ⟨field, Predicate.names_of_field? hcompile hparse hi hfield, rfl⟩
      · exact fun ending _ _ hworld => congrArg (Prod.mk ending) hworld
  · -- With another number of arguments, nothing is run.
    simp only [Predicate.run, Predicate.runWith, if_pos hsize]
    exact ⟨fun _ _ => rfl, fun _ => rfl⟩

/-- Two numbers that were declared the other way round, and a ratio far away. -/
def swappedSurroundings : Surroundings where
  fields := [⟨1, "count", .i32⟩, ⟨0, "step", .u8⟩, ⟨5, "ratio", .f64⟩]

/-- The guard `count == 0 && step < 1`. -/
def swappedGuard : Expr :=
  .binary .and
    (.binary .eq (.member (.field ⟨1, "count", .i32⟩)) (.literal (.i32 0)))
    (.binary .lt (.member (.field ⟨0, "step", .u8⟩)) (.literal (.u8 1)))

/-- Numbers have one zero value, so their order does not matter, and the ratio is not read. -/
theorem swappedGuard_starts_at_zero :
    ∃ p, Predicate.compile "count == 0 && step < 1" [] swappedSurroundings {} = .ok p ∧
      (∀ fuel, p.code.instructions.size < fuel →
        ((p.limited (some 50)).run ({} : Host Unit) fuel #[] ()).isSome) ∧
      ∀ fuel, ((p.limited (some 50)).run ({} : Host Unit) fuel #[] ()).map
          (fun r => (r.verdict, r.world)) =
        ((p.limited (some 50)).runWith ({} : Host Unit) fuel #[]
          #[.int32 0, .int32 0, .null, .string "", .object 3, .float64 (.zero false)] ()).map
            fun r => (r.verdict, r.world) := by
  have hcompiles : (Predicate.compile "count == 0 && step < 1" [] swappedSurroundings
      {}).toOption.isSome = true := by decide +kernel
  have hparse : Expr.parse (swappedSurroundings.scope []) Expr.defaultDepth
      "count == 0 && step < 1" = .ok swappedGuard := Expr.ok_of_toOption (by decide +kernel)
  obtain ⟨p, hcompile⟩ := Predicate.exists_of_isSome hcompiles
  refine ⟨p, hcompile, run_starts_fields_at_zero hcompile hparse ?_ _ _ _ ?_ _ _⟩
  · rintro field hnames
    simp only [Expr.Names, swappedGuard, Expr.part_binary, Expr.part_member, Expr.part_literal,
      reduceCtorEq, Expr.member.injEq, Member.field.injEq, or_false, false_or] at hnames
    rcases hnames with rfl | rfl <;> rfl
  · decide

/-- A field whose number is not its place among the declared ones is out of the range of the zero
values. -/
theorem late_field_out_of_range :
    ∃ p, Predicate.compile "count == 0" [] { fields := [⟨1, "count", .i32⟩] } {} = .ok p ∧
      (p.run ({} : Host Unit) 50 #[] ()).any
        (·.verdict matches .error (.execution (.fieldOutOfRange 1 1))) ∧
      (p.runWith ({} : Host Unit) 50 #[] #[.null, .int32 0] ()).any (·.verdict matches .ok true) := by
  have hcompiles : (Predicate.compile "count == 0" [] { fields := [⟨1, "count", .i32⟩] }
      {}).toOption.any (fun p =>
        (p.run ({} : Host Unit) 50 #[] ()).any
          (·.verdict matches .error (.execution (.fieldOutOfRange 1 1))) &&
        (p.runWith ({} : Host Unit) 50 #[] #[.null, .int32 0] ()).any
          (·.verdict matches .ok true)) = true := by decide +kernel
  obtain ⟨p, hp, hruns⟩ := (Option.any_eq_true _ _).mp hcompiles
  obtain ⟨hrun, hrunWith⟩ := Bool.and_eq_true_iff.mp hruns
  exact ⟨p, Expr.ok_of_toOption hp, hrun, hrunWith⟩

end GuardCode
