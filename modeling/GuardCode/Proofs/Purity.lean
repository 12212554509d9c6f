import GuardCode.Proofs.Layout

/-! Compiled guards write nothing. The language can store into fields and step locals, but what does
so leaves no value on the stack, and the depths of the outcomes only meet in guards whose calls all
leave one. So the code of a guard has a single store, of its own outcome into the local of its block,
and no run changes a field or another local, however it ends. -/
namespace GuardCode

/-- Fields and locals are as before, but for one local. -/
structure Machine.SameBut {σ : Type} (index : Nat) (m m' : Machine σ) : Prop where
  fields : m'.fields = m.fields
  locals : ∀ other, other ≠ index → m'.locals[other]? = m.locals[other]?

/-- An instruction that stores into one local at most. -/
def Instruction.StoresOnly (index : Nat) (i : Instruction) : Prop :=
  (∀ field, i ≠ .storeField field) ∧ ∀ other, i = .storeLocal other → other = index

theorem Instruction.storesOnly_of_neutral {i : Instruction} (h : i.neutral) (index : Nat) :
    i.StoresOnly index ∧ ∀ other, i ≠ .storeLocal other := by
  have hlocal : ∀ other, i ≠ .storeLocal other := by
    rintro other rfl
    cases h
  refine ⟨⟨?_, fun other hother => absurd hother (hlocal other)⟩, hlocal⟩
  rintro field rfl
  cases h

namespace Machine

variable {σ : Type} {index : Nat} {s : Setting σ} {m m₁ m₂ m' : Machine σ}

theorem SameBut.refl (index : Nat) (m : Machine σ) : m.SameBut index m :=
  ⟨rfl, fun _ _ => rfl⟩

theorem SameBut.trans (h : m.SameBut index m₁) (h' : m₁.SameBut index m₂) :
    m.SameBut index m₂ :=
  ⟨h'.fields.trans h.fields, fun other hother =>
    (h'.locals other hother).trans (h.locals other hother)⟩

/-- One instruction that stores into one local at most. -/
theorem Keeps.sameBut {i : Instruction} (h : Keeps i m m₁) (hi : i.StoresOnly index) :
    m.SameBut index m₁ := by
  refine ⟨h.fields hi.1, fun other hother => h.locals other ?_⟩
  rintro rfl
  exact hother (hi.2 other rfl)

/-- A run of such instructions changes that local at most, and so does its end. -/
theorem sameBut_of_storesOnly
    (hcode : ∀ (position : Nat) i, s.code.instructions[position]? = some i → i.StoresOnly index) :
    (∀ n position, Reaches s (0, m) n (position, m') → m.SameBut index m') ∧
      ∀ fuel ending, run s fuel m = some (ending, m') → m.SameBut index m' := by
  have hstep : ∀ (position : Nat) i m₁ m₂, s.code.instructions[position]? = some i →
      Keeps i m₁ m₂ → m.SameBut index m₁ → m.SameBut index m₂ :=
    fun position i m₁ m₂ hi hkeeps hm => hm.trans (hkeeps.sameBut (hcode position i hi))
  exact ⟨fun n position hreach => hreach.frame hstep (.refl index m),
    fun fuel ending hrun => run_frame hstep hrun (.refl index m)⟩

end Machine

namespace Predicate

variable {code : Code} {front position : Nat} {i : Instruction}

/-- The only store of a laid out predicate is that of its outcome. -/
theorem Laid.stores
    (h : Laid (fun i => i.local? = none ∧ ∀ field, i ≠ .storeField field) code front)
    (hi : code.instructions[position]? = some i) :
    i.StoresOnly 0 ∧ ∀ index, i = .storeLocal index → position = front := by
  rcases Nat.lt_or_ge position front with hlt | hge
  · obtain ⟨j, ⟨hlocal, hfield⟩, halike⟩ := h.instructions position i hlt hi
    obtain rfl | ⟨op, label, f, g, rfl, -⟩ := halike.cases_eq
    · have hnone : ∀ index, i ≠ .storeLocal index := by
        rintro index rfl
        cases hlocal
      exact ⟨⟨hfield, fun index hindex => absurd hindex (hnone index)⟩,
        fun index hindex => absurd hindex (hnone index)⟩
    · exact ⟨⟨nofun, nofun⟩, nofun⟩
  · cases h.tail position i hge hi with
    | store =>
      refine ⟨⟨nofun, fun index hindex => ?_⟩, fun _ _ => rfl⟩
      cases hindex
      rfl
    | load | test | answerTrue | answerFalse | skip => exact ⟨⟨nofun, nofun⟩, nofun⟩
    | pushTrue | pushFalse =>
      obtain ⟨hstores, hnone⟩ := Instruction.storesOnly_of_neutral (Instruction.neutral_pushInt _) 0
      exact ⟨hstores, fun index hindex => absurd hindex (hnone index)⟩

/-- The stores that survive in a compiled guard. -/
theorem stores_of_compile {source : String} {params : List Ty} {around : Surroundings}
    {options : Options} {p : Predicate} (hcompile : compile source params around options = .ok p)
    (hequality : around.EqualitiesProper params) :
    ∃ front, Laid (fun i => i.local? = none ∧ ∀ field, i ≠ .storeField field) p.code front := by
  obtain ⟨guard, b, hparse, hb, hfinish⟩ := assembled_of_compile hcompile
  have hchecked := Expr.checked_of_parse hparse
  have hadmissible : guard.Admissible :=
    (admissible_of_accepted #[] (hequality.of_checked hchecked) hb).2
  exact laid_of_performs ((permits_of_checked hchecked).and hadmissible.permits) hb hfinish

end Predicate

/-- A compiled guard stores nothing but its outcome, into the local of its block. Every run leaves the
fields as they are, whether it gives a verdict or an error, and so does every instruction that it
carries out. -/
theorem compiled_guard_writes_nothing {source : String} {params : List Ty} {around : Surroundings}
    {options : Options} {p : Predicate}
    (hcompile : Predicate.compile source params around options = .ok p)
    (hequality : around.EqualitiesProper params) :
    p.code.locals = #[.bool] ∧
      (∀ (position : Nat) i, p.code.instructions[position]? = some i → i.StoresOnly 0 ∧
        ∀ index, i = .storeLocal index →
          position = p.code.target (IfLabels.startingAt 0).storeResult) ∧
      ∀ {σ : Type} (host : Host σ) (args fields : Array Value) (limit? : Option Nat) (world : σ),
        (∃ result : Predicate.Result σ, result.fields = fields ∧
          ∀ fuel, p.code.instructions.size < fuel →
            (p.limited limit?).runWith host fuel args fields world = some result) ∧
        ∀ n position m m', Machine.Reaches { code := p.code, host, args, maxSteps? := limit? }
          (0, m) n (position, m') → m.SameBut 0 m' := by
  obtain ⟨front, hlaid⟩ := Predicate.stores_of_compile hcompile hequality
  have hstores := fun (position : Nat) i (hi : p.code.instructions[position]? = some i) =>
    (hlaid.stores hi).1
  refine ⟨hlaid.locals, fun position i hi => ⟨hstores position i hi, ?_⟩, ?_⟩
  · intro index hindex
    rw [hlaid.storeResult]
    exact (hlaid.stores hi).2 index hindex
  · intro σ host args fields limit? world
    let s : Setting σ := { code := p.code, host, args, maxSteps? := limit? }
    refine ⟨?_, fun n position m m' hreach =>
      (Machine.sameBut_of_storesOnly hstores).1 n position hreach⟩
    by_cases hsize : args.size = (p.limited limit?).signature.params.length
    · obtain ⟨⟨ending, last⟩, hrun⟩ :=
        @Machine.run_ends σ s hlaid.forward (.start p.code fields world)
      refine ⟨⟨Predicate.verdict ending, last.fields, last.world⟩, ?_, fun fuel hfuel => ?_⟩
      · exact ((Machine.sameBut_of_storesOnly hstores).2 _ _ (hrun _ (Nat.lt_succ_self _))).fields
      · rw [Predicate.runWith, if_neg (Classical.not_not.mpr hsize)]
        exact congrArg (Option.map _) (hrun fuel hfuel)
    · exact ⟨⟨.error (.argumentCount p.signature.params.length args.size), fields, world⟩, rfl,
        fun fuel _ => if_pos hsize⟩

/-- A root that is a node, and a number. -/
def countedSurroundings : Surroundings where
  fields := [⟨0, "root", nodeType⟩, ⟨1, "count", .i32⟩]

/-- The guard leaves the fields as they are where it divides by zero behind a call of the host. -/
theorem countedGuard_writes_nothing :
    ∃ p, Predicate.compile "root == arg0 || @load(count) % arg1 == 1" [nodeType, .i32]
        countedSurroundings {} = .ok p ∧
      ∃ result : Predicate.Result (List (Nat × List Value)),
        result.fields = #[.object 1, .int32 7] ∧ ∀ fuel, p.code.instructions.size < fuel →
          (p.limited (some 50)).runWith recordingHost fuel #[.object 2, .int32 0]
            #[.object 1, .int32 7] [] = some result := by
  have hcompiles : (Predicate.compile "root == arg0 || @load(count) % arg1 == 1" [nodeType, .i32]
      countedSurroundings {}).toOption.isSome = true := by decide +kernel
  obtain ⟨p, hcompile⟩ := Predicate.exists_of_isSome hcompiles
  have hequality : countedSurroundings.EqualitiesProper [nodeType, .i32] := by
    intro type htype method hm
    simp only [countedSurroundings, Surroundings.types, List.map_cons, List.map_nil,
      List.cons_append, List.nil_append, List.mem_cons, List.not_mem_nil, or_false] at htype
    rcases htype with rfl | rfl | rfl | rfl <;> cases hm <;> exact ⟨rfl, rfl⟩
  obtain ⟨-, -, hruns⟩ := compiled_guard_writes_nothing hcompile hequality
  exact ⟨p, hcompile, (hruns recordingHost _ _ (some 50) []).1⟩

end GuardCode
