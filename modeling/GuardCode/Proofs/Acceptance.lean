import GuardCode.Proofs.Answering
import GuardCode.Proofs.Emission.Depths
import GuardCode.Proofs.Emission.Success

/-! Which guards are accepted. A fresh body that answers with the outcome of a guard can be finished
exactly if the guard is admissible and its nesting keeps within the limit. -/
namespace GuardCode

open Directive Emission Assembly

/-- What a block writes in front of its guard. -/
def IfBlock.labelling : List Directive := .declare .bool :: List.replicate 6 .define

/-- An assembly with no code yet, with the locals that were declared beforehand. -/
def Assembly.fresh (locals : Array Ty) (encoding : Encoding) : Assembly :=
  { locals, returnsValue := true, encoding }

/-- A fresh assembly with the local and the labels of its first block. -/
def Assembly.labelled (locals : Array Ty) (encoding : Encoding) : Assembly where
  locals := locals.push .bool
  labels := #[{}, {}, {}, {}, {}, {}]
  returnsValue := true
  encoding := encoding

theorem performs_labelling {locals : Array Ty} {encoding : Encoding} {a : Assembly} :
    Performs IfBlock.labelling (.fresh locals encoding) a ↔
      locals.size < 65536 ∧ a = .labelled locals encoding := by
  simp only [IfBlock.labelling, List.replicate_succ, List.replicate_zero, performs_cons,
    perform_declare, perform_define, performs_nil, exists_eq_left, Assembly.labelled,
    Assembly.fresh]
  constructor
  · rintro ⟨c, ⟨hsize, rfl⟩, rfl⟩
    exact ⟨hsize, rfl⟩
  · rintro ⟨hsize, rfl⟩
    exact ⟨_, ⟨hsize, rfl⟩, rfl⟩

/-- What a block whose bodies answer writes behind its outcome. -/
def IfBlock.ending (result : Nat) : List Directive :=
  [.emit (.storeLocal result), .emit (.loadLocal result), .emit (.jump .ifFalse 4)] ++ (.mark 3 ::
    (Predicate.answering 1 ++ (.emit (.jump .always 5) :: .mark 4 ::
      (Predicate.answering 0 ++ [.mark 5]))))

/-- The directives of the first block of a body. -/
theorem answering_eq (limit : Nat) (guard : Expr) (localCount : Nat) :
    (IfBlock.ofGuard limit guard 0 localCount).answering =
      IfBlock.labelling ++ (Emission.guard limit guard ⟨0, 1⟩ 6 ++
        (meeting true true ⟨0, 1⟩ 2 ++ IfBlock.ending localCount)) := by
  simp [IfBlock.answering, IfBlock.ofGuard, IfBlock.labelling, IfBlock.storeOutcome,
    IfLabels.startingAt, IfLabels.exits, meeting, IfBlock.ending, List.append_assoc]

variable {a b : Assembly} {limit : Nat} {guard : Expr}

/-- The exit for an outcome. -/
def Exits.at (exits : Exits) (outcome : Bool) : Label :=
  if outcome then exits.onTrue else exits.onFalse

/-- An exit behind a jump goes on in the depth in which it was reached, or in depth 0. -/
theorem depth_of_exit {label : Label} {v : Int32} (hf : a.frozen = false)
    (hr : a.reachable = false) (h : Performs [.mark label, .emit (.pushInt v)] a b) :
    (∃ state, a.labels[label]? = some state ∧ b.depth = state.depth?.getD 0 + 1) ∧
      b.reachable = true ∧ Elsewhere [label] a b := by
  obtain ⟨c, hc, h⟩ := performs_cons.mp h
  have hmark := mark_eq_ok hf (perform_mark.mp hc)
  have hpush := performs_emit (hmark.frozen.trans hf) h
  obtain ⟨state, hl, -, -, hdepth⟩ := hmark.state
  refine ⟨⟨state, hl, ?_⟩, by simp [hpush.reachable], fun other hother => ?_⟩
  · simp [hpush.depth, hdepth, hr]
  · exact (hpush.others other (by simp)).trans (hmark.others other (by simpa using hother))

/-- The paths of a condition meet in one depth, so each exit has to be one value below it. -/
theorem depths_of_meeting {exits : Exits} {join : Label} (hf : a.frozen = false)
    (hdistinct : join ≠ exits.onTrue ∧ join ≠ exits.onFalse ∧ exits.onTrue ≠ exits.onFalse)
    (h : Performs (meeting true true exits join) a b) (outcome : Bool) :
    ∃ state, a.labels[exits.at outcome]? = some state ∧ a.depth = state.depth?.getD 0 + 1 := by
  obtain ⟨hne, hne', hexits⟩ := hdistinct
  have hsplit : meeting true true exits join = [.emit (.jump .always join)] ++
      ([.mark exits.onTrue, .emit (.pushInt 1)] ++ ([.emit (.jump .always join)] ++
        ([.mark exits.onFalse, .emit (.pushInt 0)] ++ [.mark join]))) := rfl
  rw [hsplit] at h
  obtain ⟨c, hc, h⟩ := Directive.performs_append.mp h
  obtain ⟨d, hd, h⟩ := Directive.performs_append.mp h
  obtain ⟨e, he, h⟩ := Directive.performs_append.mp h
  obtain ⟨f, hf', h⟩ := Directive.performs_append.mp h
  have hjump := performs_emit hf hc
  have hfc := hc.frozen hf
  have hfd := hd.frozen hfc
  have hfe := he.frozen hfd
  -- The first jump sets the depth of the joint, and all others come in it.
  obtain ⟨_, -, -, hjoin⟩ := hjump.target join rfl
  obtain ⟨⟨onTrue, htrue, hdepth⟩, -, helse⟩ := depth_of_exit hfc hjump.reachable hd
  have hjump' := performs_emit hfd he
  obtain ⟨⟨onFalse, hfalse, hdepth'⟩, hrf, helse'⟩ := depth_of_exit hfe hjump'.reachable hf'
  cases outcome with
  | true =>
    refine ⟨onTrue, (hjump.others exits.onTrue (by simpa using hne)).symm.trans htrue, ?_⟩
    obtain ⟨state, hl, hsame, -⟩ := hjump'.target join rfl
    rw [helse join (by simpa using hne), hjoin] at hl
    cases hl
    rw [← hdepth]
    simpa [Instruction.pops, Instruction.jump, Instruction.stackEffect, BranchOp.pops] using hsame
  | false =>
    have hkept : e.labels[exits.onFalse]? = a.labels[exits.onFalse]? :=
      (hjump'.others _ (by simpa using hne')).trans ((helse _ (by simpa using hexits.symm)).trans
        (hjump.others _ (by simpa using hne')))
    refine ⟨onFalse, hkept.symm.trans hfalse, ?_⟩
    obtain ⟨state, hl, hdepthj⟩ := (Directive.performs_append.mpr ⟨d, hd,
      Directive.performs_append.mpr ⟨e, he, hf'⟩⟩).depth hfc ⟨_, hjoin, rfl⟩
    have hmark := performs_mark (hf'.frozen hfe) h
    have hbdepth := hmark.depth_eq hl hdepthj
    obtain ⟨_, -, -, -, hsame⟩ := hmark.state
    rw [hrf, if_pos rfl] at hsame
    rw [← hdepth', ← hsame, hbdepth]
    rfl

theorem admissible_of_accepted (locals : Array Ty) {encoding : Encoding}
    (heq : guard.EqualitiesProper)
    (h : Performs (IfBlock.ofGuard limit guard 0 locals.size).answering (.fresh locals encoding) b) :
    guard.need.condition ≤ limit ∧ guard.Admissible := by
  rw [answering_eq] at h
  obtain ⟨c, hc, h⟩ := Directive.performs_append.mp h
  obtain ⟨-, rfl⟩ := performs_labelling.mp hc
  obtain ⟨d, hd, h⟩ := Directive.performs_append.mp h
  obtain ⟨e, he, -⟩ := Directive.performs_append.mp h
  have hgains := measured_expr limit guard heq (.condition .stack ⟨0, 1⟩) limit 6 _ _ rfl rfl hd
  obtain ⟨state, -, hexit⟩ := depths_of_meeting (hd.frozen rfl) (by decide) he true
  refine ⟨hgains.levels, hgains.whole ?_⟩
  have hmost : d.depth ≤ 0 + 1 := hgains.atMost
  show d.depth = 0 + 1
  omega

/-- A body that answers can be written anywhere. -/
theorem performs_answering (value : Int32) (hf : a.frozen = false)
    (hreturns : a.returnsValue = true) :
    ∃ b, Performs (Predicate.answering value) a b ∧ b.reachable = false ∧ b.depth = 0 ∧
      Elsewhere [] a b := by
  obtain ⟨c, hc, -, hdepth, helse⟩ := performs_push value hf
  have hfc := hc.frozen hf
  have hpops : Instruction.ret.pops c.returnsValue ≤ c.depth := by
    rw [hc.returnsValue hf, hreturns, hdepth]
    exact Nat.le_add_left 1 _
  obtain ⟨b, hb⟩ := emit_ok hfc hpops (by simp [Instruction.target?])
  have he := emit_eq_ok hfc hb
  have hret : Performs [.emit .ret] c b :=
    performs_cons.mpr ⟨b, perform_emit.mpr hb, performs_nil.mpr rfl⟩
  exact ⟨b, Directive.performs_append.mpr ⟨c, hc, hret⟩, he.reachable, he.depth,
    helse.trans fun label _ => he.others label (by simp [Instruction.target?])⟩

/-- Storing the outcome, loading it and testing it. -/
theorem straight_testing (result : Nat) (label : Label) :
    Instruction.Straight [label] 1 0
      [.storeLocal result, .loadLocal result, .jump .ifFalse label] := by
  refine straight_cons 1 0 rfl rfl (fun _ => rfl) (fun _ => rfl) ?_ rfl (Nat.zero_le _)
  exact straight_cons 0 1 rfl rfl (fun _ => rfl) (fun _ => rfl)
    (straight_jump .ifFalse (by decide) label) rfl (Nat.le_refl _)

/-- The end of a block can be written once the outcome is on the stack. -/
theorem performs_ending (result : Nat) (hf : a.frozen = false) (hr : a.reachable = true)
    (hdepth : a.depth = 1) (hreturns : a.returnsValue = true)
    (hfresh : ∀ label : Nat, 3 ≤ label → label ≤ 5 →
      a.labels[label]? = some ({} : LabelState)) :
    ∃ b, Performs (IfBlock.ending result) a b ∧ b.IsMarked 4 ∧ b.IsMarked 5 := by
  have hsize : 5 < a.labels.size := (Array.getElem?_eq_some_iff.mp (hfresh 5 (by omega) (by omega))).1
  -- The outcome goes through the local to the branch.
  obtain ⟨b₁, h₁, hr₁, hd₁, hkept⟩ := accepts_straight (straight_testing result 4) hf hr
    (show a.depth = 0 + 1 from hdepth) (by
      intro label hlabel
      obtain rfl : label = 4 := by simpa using hlabel
      exact ⟨{}, hfresh 4 (by omega) (by omega), .inl rfl⟩)
  have hf₁ := h₁.frozen hf
  have hwaits₁ : Waits b₁ 4 0 := waits_of_kept hkept (hfresh 4 (by omega) (by omega))
  have hfive₁ := hkept.fresh (hfresh 5 (by omega) (by omega)) (by simp)
  have hthree₁ := hkept.fresh (hfresh 3 (by omega) (by omega)) (by simp)
  obtain ⟨b₂, h₂, -, helse₂⟩ := performs_passing hf₁ hr₁ hthree₁
  have hf₂ := h₂.frozen hf₁
  -- The first body and the jump behind it.
  have hreturns₂ : b₂.returnsValue = true :=
    (h₂.returnsValue hf₁).trans ((h₁.returnsValue hf).trans hreturns)
  obtain ⟨b₃, h₃, -, hd₃, helse₃⟩ := performs_answering 1 hf₂ hreturns₂
  have hf₃ := h₃.frozen hf₂
  have hfive₃ := (helse₃ 5 (by simp)).trans ((helse₂ 5 (by simp)).trans hfive₁)
  obtain ⟨b₄, h₄, hr₄, -, ⟨state, hstate, hfive₄⟩, helse₄⟩ :=
    performs_jump hf₃ ⟨{}, hfive₃, .inl rfl⟩
  have hf₄ := h₄.frozen hf₃
  rw [hfive₃] at hstate
  cases hstate
  have hwaits₄ : Waits b₄ 4 0 :=
    helse₄.waits (by simp) (helse₃.waits (by simp) (helse₂.waits (by simp) hwaits₁))
  -- The second body and the end.
  obtain ⟨b₅, h₅, -, -, hmarked, helse₅⟩ := performs_waiting hf₄ hr₄ hwaits₄
  have hf₅ := h₅.frozen hf₄
  have hreturns₅ : b₅.returnsValue = true := (h₅.returnsValue hf₄).trans
    ((h₄.returnsValue hf₃).trans ((h₃.returnsValue hf₂).trans hreturns₂))
  obtain ⟨b₆, h₆, hr₆, -, helse₆⟩ := performs_answering 0 hf₅ hreturns₅
  have hf₆ := h₆.frozen hf₅
  have hwaits₆ : Waits b₆ 5 0 := helse₆.waits (by simp)
    (helse₅.waits (by simp) ⟨_, hfive₄, rfl, by rw [hd₃]; rfl⟩)
  obtain ⟨b₇, h₇, -, -, hmarked', -⟩ := performs_waiting hf₆ hr₆ hwaits₆
  refine ⟨b₇, ?_, h₇.isMarked hf₆ (h₆.isMarked hf₅ hmarked), hmarked'⟩
  exact Directive.performs_append.mpr ⟨b₁, h₁, Directive.performs_append.mpr ⟨b₂, h₂,
    Directive.performs_append.mpr ⟨b₃, h₃, Directive.performs_append.mpr ⟨b₄, h₄,
      Directive.performs_append.mpr ⟨b₅, h₅, Directive.performs_append.mpr ⟨b₆, h₆, h₇⟩⟩⟩⟩⟩⟩

theorem targets_ending {label : Label} {result : Nat}
    (h : Directive.targets label (IfBlock.ending result) = true) : label = 4 ∨ label = 5 := by
  obtain ⟨i, hi, ht⟩ := targets_iff.mp h
  simp only [IfBlock.ending, Predicate.answering, List.mem_append, List.mem_cons,
    List.not_mem_nil, or_false, Directive.emit.injEq, reduceCtorEq, false_or] at hi
  rcases hi with (rfl | rfl | rfl) | (rfl | rfl) | rfl | rfl | rfl
  · cases ht
  · cases ht
  · exact .inl (Option.some.inj ht).symm
  · simp at ht
  · cases ht
  · exact .inr (Option.some.inj ht).symm
  · simp at ht
  · cases ht

/-- The whole body of an admissible guard can be written, and no label is left open. -/
theorem accepted_of_admissible (encoding : Encoding) (heq : guard.EqualitiesProper)
    (hneed : guard.need.condition ≤ limit) (hguard : guard.Admissible) :
    ∃ b, Performs (IfBlock.ofGuard limit guard 0 0).answering (.fresh #[] encoding) b ∧
      b.Bound := by
  have hfresh : ∀ label : Nat, label ≤ 5 →
      (labelled #[] encoding).labels[label]? = some ({} : LabelState) := by
    intro label hlabel
    rw [show (labelled #[] encoding).labels = Array.replicate 6 {} from rfl,
      Array.getElem?_replicate, if_pos (by omega)]
  have hf : (labelled #[] encoding).frozen = false := rfl
  obtain ⟨c, hc⟩ := accepted_expr limit guard hguard heq (.condition .stack ⟨0, 1⟩) limit hneed
    (labelled #[] encoding) hf rfl (by
      intro label hlabel
      refine ⟨{}, hfresh label ?_, .inl rfl⟩
      simp only [Purpose.labels, List.mem_cons, List.not_mem_nil, or_false] at hlabel
      rcases hlabel with rfl | rfl <;> decide)
  have hfc := hc.performs.frozen hf
  obtain ⟨d, hd, hrd, hdepth, hjoined, htrue, hfalse, helse, -⟩ := performs_meeting
    ⟨0, 1⟩ 2 hfc (show c.depth = 0 + 1 from hc.depth)
    (hc.kept.fresh (hfresh 2 (by omega)) (by simp [Purpose.labels])) (by decide)
    (fun _ => waits_of_kept hc.kept (hfresh 0 (by omega)))
    (fun _ => waits_of_kept hc.kept (hfresh 1 (by omega)))
  have hfd := hd.frozen hfc
  have hreturns : d.returnsValue = true :=
    (hd.returnsValue hfc).trans (hc.performs.returnsValue hf)
  obtain ⟨b, hb, hfour, hfive⟩ := performs_ending 0 hfd hrd hdepth hreturns (by
    intro label hge hle
    have hne : ∀ k : Nat, k ≤ 2 → label ≠ k := fun k hk => by omega
    refine (helse label ?_).trans (hc.kept.fresh (hfresh label hle) ?_)
    · simpa using ⟨hne 0 (by omega), hne 1 (by omega), hne 2 (by omega)⟩
    · simpa [Purpose.labels] using ⟨hne 0 (by omega), hne 1 (by omega)⟩)
  have hall : Performs (IfBlock.ofGuard limit guard 0 0).answering (.fresh #[] encoding) b := by
    rw [answering_eq]
    exact Directive.performs_append.mpr ⟨_, performs_labelling.mpr ⟨by decide, rfl⟩,
      Directive.performs_append.mpr ⟨c, hc.performs, Directive.performs_append.mpr ⟨d, hd, hb⟩⟩⟩
  refine ⟨b, hall, ?_⟩
  -- Each label that is branched to is marked by the guard, where its paths meet, or at the end.
  intro position i label state hi ht hl
  have hemitted := (hall.emitted rfl hi).resolve_left (by simp [Assembly.fresh])
  have htargets : Directive.targets label (IfBlock.ofGuard limit guard 0 0).answering = true :=
    targets_iff.mpr ⟨i, hemitted, ht⟩
  have hmarked : b.IsMarked label := by
    rw [answering_eq, targets_append, targets_append, targets_append] at htargets
    simp only [Bool.or_eq_true] at htargets
    rcases htargets with hlabelling | hguardTargets | hmeeting | hending
    · cases hlabelling
    · rcases hc.closed label hguardTargets with hin | hm
      · simp only [Purpose.labels, List.mem_cons, List.not_mem_nil, or_false] at hin
        rcases hin with rfl | rfl
        · exact hb.isMarked hfd (htrue rfl)
        · exact hb.isMarked hfd (hfalse rfl)
      · exact hb.isMarked hfd (hd.isMarked hfc hm)
    · exact hb.isMarked hfd (targets_meeting hmeeting ▸ hjoined)
    · rcases targets_ending hending with rfl | rfl
      · exact hfour
      · exact hfive
  obtain ⟨state', hl', target, hp⟩ := hmarked
  rw [hl] at hl'
  cases hl'
  exact ⟨target, hp⟩

/-- The guard compiler accepts exactly the admissible guards whose nesting keeps within the limit. -/
theorem guard_accepted_iff (signature : Signature) (hsignature : signature.returns = .bool)
    (options : Options) (hencoding : options.encoding ≠ .short) (guard : Expr)
    (heq : guard.EqualitiesProper) :
    (∃ code, ((MethodBody.ofSignature signature options).ifElse guard
        (Predicate.answer 1) (Predicate.answer 0)).1.finish = .ok code) ↔
      guard.need.condition ≤ options.maxDepth ∧ guard.Admissible := by
  have hassembly : (MethodBody.ofSignature signature options).assembly =
      .fresh #[] options.encoding := by
    simp [MethodBody.ofSignature, Signature.returnsValue, hsignature, Assembly.fresh]
  have hblock : MethodBody.block guard (MethodBody.ofSignature signature options) =
      IfBlock.ofGuard options.maxDepth guard 0 0 := rfl
  have hfinish := fun code =>
    @MethodBody.ifElse_finish_iff (MethodBody.ofSignature signature options) code guard rfl
  rw [hassembly, hblock] at hfinish
  simp only [hfinish]
  constructor
  · rintro ⟨code, a, ha, -⟩
    exact admissible_of_accepted #[] heq ha
  · rintro ⟨hneed, hguard⟩
    obtain ⟨a, ha, hbound⟩ := accepted_of_admissible options.encoding heq hneed hguard
    have hshort : a.encoding ≠ .short := by
      rw [(ha.setup rfl).2]
      exact hencoding
    obtain ⟨code, hcode⟩ := finish_ok hbound hshort
    exact ⟨code, a, ha, hcode⟩

/-- The guard `(arg0 == arg1 && @load(arg2) % 2 == 1) != (arg2 == 3 || ask(7))`, in which `arg0` and
`arg1` are of a class that decides equality by a method. -/
def nestedGuard : Expr :=
  let node : Ty := .named "Node" (some ⟨0, "same", 2, true⟩)
  let number : Member := .arg ⟨2, .i32⟩
  .binary .ne
    (.binary .and (.binary .eq (.member (.arg ⟨0, node⟩)) (.member (.arg ⟨1, node⟩)))
      (.binary .eq (.binary .rem (.call (.capability .load) [.carried (.member number)] .i32)
        (.literal (.i32 2))) (.literal (.i32 1))))
    (.binary .or (.binary .eq (.member number) (.literal (.i32 3)))
      (.call (.method ⟨1, "ask", 1, true⟩) [.literal (.i32 7)] .bool))

/-- Six levels are just enough for the guard. -/
theorem nestedGuard_accepted :
    (∃ code, ((MethodBody.ofSignature (.predicate []) { maxDepth := 6 }).ifElse nestedGuard
      (Predicate.answer 1) (Predicate.answer 0)).1.finish = .ok code) ∧
    ¬ ∃ code, ((MethodBody.ofSignature (.predicate []) { maxDepth := 5 }).ifElse nestedGuard
      (Predicate.answer 1) (Predicate.answer 0)).1.finish = .ok code := by
  have heq : nestedGuard.EqualitiesProper := by
    intro op left right method hp hop hm
    simp only [nestedGuard, Expr.part_binary, Expr.part_member, Expr.part_literal, Expr.part_call,
      List.mem_cons, List.not_mem_nil, or_false, exists_eq_left, Expr.part_carried,
      Expr.binary.injEq, reduceCtorEq] at hp
    rcases hp with ⟨rfl, rfl, rfl⟩ | (⟨rfl, rfl, rfl⟩ | ⟨rfl, rfl, rfl⟩ | ⟨rfl, rfl, rfl⟩ |
      ⟨rfl, rfl, rfl⟩) | ⟨rfl, rfl, rfl⟩ | ⟨rfl, rfl, rfl⟩ <;>
      simp_all [comparisonType, Expr.type, Expr.isNull, Member.type, Literal.type, Ty.equality?,
        BinaryOp.isComparison, BinaryOp.isLogical]
    subst hm
    simp
  have hadmissible : nestedGuard.Admissible := by
    simp [nestedGuard, Expr.admissible_binary, Expr.admissible_member, Expr.admissible_literal,
      Expr.admissible_load, Expr.admissible_call, Expr.supported, BinaryOp.isComparison,
      BinaryOp.isLogical, Callee.leavesValue, Callee.arity]
  constructor
  · rw [guard_accepted_iff (.predicate []) rfl { maxDepth := 6 } (by decide) nestedGuard heq]
    exact ⟨by decide, hadmissible⟩
  · rw [guard_accepted_iff (.predicate []) rfl { maxDepth := 5 } (by decide) nestedGuard heq]
    exact fun h => absurd h.1 (by decide)

end GuardCode
