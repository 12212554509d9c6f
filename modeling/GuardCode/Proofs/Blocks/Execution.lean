import GuardCode.Proofs.Blocks.Structured
import GuardCode.Proofs.Correctness

/-! Structured code runs as it says. A run of the finished body carries out the statements that the
guards select, in their order, up to the first return or error; what blocks keep for themselves, their
labels and the locals of their outcomes, is never seen by the rest. -/
namespace GuardCode

open Directive
open Machine (Place Reaches)

/-- What can be seen of two machines where locals from a number on do not count. -/
structure Machine.Observed {σ : Type} (count : Nat) (m m' : Machine σ) : Prop where
  world : m'.world = m.world
  fields : m'.fields = m.fields
  locals : ∀ index, index < count → m'.locals[index]? = m.locals[index]?

theorem Machine.AgreeBelow.observed {σ : Type} {count : Nat} {m m' : Machine σ}
    (h : m.AgreeBelow count m') : m.Observed count m' :=
  ⟨h.world, h.fields, h.locals⟩

/-- An ending with no instruction to blame. -/
def Ending.plain (ending : Ending) : Ending := ending.mapError ExecutionError.plain

namespace Statement

/-! ## Assemblies -/

/-- Some directives lead from one assembly to another. -/
def Leads (a b : Assembly) : Prop := ∃ ds, Performs ds a b

theorem Leads.refl (a : Assembly) : Leads a a := ⟨[], performs_nil.mpr rfl⟩

theorem Leads.trans {a b c : Assembly} (h : Leads a b) (h' : Leads b c) : Leads a c := by
  obtain ⟨ds, h⟩ := h
  obtain ⟨es, h'⟩ := h'
  exact ⟨ds ++ es, Directive.performs_append.mpr ⟨b, h, h'⟩⟩

theorem leads_writesAll {limit : Nat} {ss : List Statement}
    (h : ∀ s ∈ ss, ∀ a b, s.Writes limit a b → Leads a b) {a b : Assembly}
    (hw : WritesAll limit ss a b) : Leads a b := by
  induction ss generalizing a with
  | nil =>
    obtain rfl : b = a := hw
    exact .refl _
  | cons s ss ih =>
    obtain ⟨c, hs, hss⟩ := hw
    exact (h s (by simp) a c hs).trans (ih (fun s hs => h s (by simp [hs])) hss)

theorem Writes.leads {limit : Nat} (s : Statement) (a b : Assembly) (h : s.Writes limit a b) :
    Leads a b := by
  induction s generalizing a b with
  | group calls => exact ⟨_, h⟩
  | answer calls => exact ⟨_, h⟩
  | choice guard onTrue onFalse htrue hfalse =>
    obtain ⟨a₁, a₂, a₃, a₄, h₁, h₂, h₃, h₄, h₅⟩ := h
    have hopening : Leads a a₁ := ⟨_, h₁⟩
    have hmiddle : Leads a₂ a₃ := ⟨_, h₃⟩
    have hclosing : Leads a₄ b := ⟨_, h₅⟩
    exact hopening.trans ((leads_writesAll htrue h₂).trans
      (hmiddle.trans ((leads_writesAll hfalse h₄).trans hclosing)))

theorem WritesAll.leads {limit : Nat} {ss : List Statement} {a b : Assembly}
    (h : WritesAll limit ss a b) : Leads a b :=
  leads_writesAll (fun s _ => Writes.leads s) h

theorem Leads.frozen {a b : Assembly} (h : Leads a b) (hf : a.frozen = false) :
    b.frozen = false := by
  obtain ⟨ds, h⟩ := h
  exact h.frozen hf

/-- A label keeps the depth in which it was reached first. -/
theorem Leads.depth {a b : Assembly} (h : Leads a b) (hf : a.frozen = false) {label depth : Nat}
    (hl : ∃ state, a.labels[label]? = some state ∧ state.depth? = some depth) :
    ∃ state, b.labels[label]? = some state ∧ state.depth? = some depth := by
  obtain ⟨ds, h⟩ := h
  exact h.depth hf hl

/-- What leads on to finished code stands in it. -/
theorem placed_of_leads {ds : List Directive} {a b final : Assembly} {code : Code}
    (hf : a.frozen = false) (h : Performs ds a b) (hlead : Leads b final)
    (hfinish : final.finish = .ok code) : Placed code a.instructions.size ds := by
  obtain ⟨es, hes⟩ := hlead
  have hall : Performs (ds ++ es) a final := Directive.performs_append.mpr ⟨b, h, hes⟩
  exact (placed_append.mp (hall.placed hf hfinish)).1

section

variable {σ : Type} {c : Context σ} {code : Code} {count limit : Nat}

/-- An assembly in which structured code can be carried on. -/
structure Ready (c : Context σ) (count : Nat) (a : Assembly) : Prop where
  unfrozen : a.frozen = false
  reachable : a.reachable = true
  empty : a.depth = 0
  returns : a.returnsValue = c.returnsValue
  declared : count ≤ a.locals.size

/-- Whatever leads from an assembly that is ready to a reachable one with an empty stack leads to one
that is ready. -/
theorem Ready.leads {a b : Assembly} (h : Ready c count a) (hlead : Leads a b)
    (hreachable : b.reachable = true) (hempty : b.depth = 0) : Ready c count b := by
  obtain ⟨ds, hds⟩ := hlead
  exact ⟨hds.frozen h.unfrozen, hreachable, hempty, (hds.returnsValue h.unfrozen).trans h.returns,
    Nat.le_trans h.declared (hds.localCount_le h.unfrozen)⟩

section

variable {a a₁ a₂ a₃ a₄ b : Assembly} {guard : Expr} {first localCount : Nat}

/-- The second body of a block starts where the first does, whatever became of the first. -/
theorem Ready.onFalse (h : Ready c count a) (hopens : Opens a a₁) (hf : a₁.frozen = false)
    (htrue : Leads a a₁) (hbody : Leads a₁ a₂)
    (hmiddle : Performs (IfBlock.ofGuard limit guard a.labels.size localCount).middle a₂ a₃) :
    Ready c count a₃ := by
  obtain ⟨a₂', hjump, hmark⟩ := performs_cons.mp hmiddle
  have hf₂ := hbody.frozen hf
  have hjumped : Performs [.emit _] a₂ a₂' := performs_cons.mpr ⟨a₂', hjump, performs_nil.mpr rfl⟩
  obtain ⟨state, hstate, hdepth⟩ := (hbody.trans ⟨_, hjumped⟩).depth hf ⟨_, hopens.elseBody, rfl⟩
  have hm := performs_mark (hjumped.frozen hf₂) hmark
  refine h.leads (htrue.trans (hbody.trans ⟨_, hmiddle⟩)) hm.reachable ?_
  exact (hm.depth_eq hstate hdepth).trans h.empty

/-- A block whose first body goes on is left in a state that is ready: the first body branches to the
end with an empty stack. -/
theorem Ready.endIf_of_true (h : Ready c count a₂)
    (hmiddle : Performs (IfBlock.ofGuard limit guard first localCount).middle a₂ a₃)
    (hbody : Leads a₃ a₄)
    (hclosing : Performs (IfBlock.ofGuard limit guard first localCount).closing a₄ b) :
    Ready c count b := by
  obtain ⟨a₂', hjump, hmark⟩ := performs_cons.mp hmiddle
  have he := Assembly.emit_eq_ok h.unfrozen (perform_emit.mp hjump)
  obtain ⟨state, -, -, hreached⟩ := he.target _ rfl
  have hmarked : Leads a₂' a₃ := ⟨_, hmark⟩
  have hf₂ := he.frozen.trans h.unfrozen
  obtain ⟨state', hstate, hdepth⟩ := (hmarked.trans hbody).depth hf₂ ⟨_, hreached, rfl⟩
  have hm := performs_mark ((hmarked.trans hbody).frozen hf₂) hclosing
  refine h.leads (Leads.trans ⟨_, hmiddle⟩ (hbody.trans ⟨_, hclosing⟩)) hm.reachable ?_
  rw [hm.depth_eq hstate hdepth, h.empty]
  rfl

theorem Ready.endIf_of_false (h : Ready c count a₄)
    (hclosing : Performs (IfBlock.ofGuard limit guard first localCount).closing a₄ b) :
    Ready c count b := by
  have hm := performs_mark h.unfrozen hclosing
  obtain ⟨state, -, -, -, hdepth⟩ := hm.state
  rw [h.reachable, if_pos rfl] at hdepth
  exact h.leads ⟨_, hclosing⟩ hm.reachable (hdepth.trans h.empty)

end

/-! ## Runs -/

/-- Runs of code in a context, without a limit on their steps. -/
def Context.running (c : Context σ) (code : Code) : Setting σ :=
  { code, host := c.host, args := c.args }

/-- A run from a place does what structured code comes to: it goes on at a position, or it ends. -/
def Carries (c : Context σ) (code : Code) (count : Nat) (start : Place σ) (next : Nat) :
    Outcome σ → Prop
  | .done m =>
    ∃ n m', Reaches (c.running code) start n (next, m') ∧ m.AgreeBelow count m'
  | .ended ending m =>
    ∃ n position m₁ i ending' m', Reaches (c.running code) start n (position, m₁) ∧
      code.instructions[position]? = some i ∧
      Machine.step (c.running code) position i m₁ = .stop ending' m' ∧
      ending'.plain = ending.plain ∧ m.Observed count m'

theorem Carries.from {start mid : Place σ} {n next : Nat} {outcome : Outcome σ}
    (h : Reaches (c.running code) start n mid) (h' : Carries c code count mid next outcome) :
    Carries c code count start next outcome := by
  cases outcome with
  | done m =>
    obtain ⟨k, m', hreach, hagree⟩ := h'
    exact ⟨n + k, m', h.trans hreach, hagree⟩
  | ended ending m =>
    obtain ⟨k, position, m₁, i, ending', m', hreach, hrest⟩ := h'
    exact ⟨n + k, position, m₁, i, ending', m', h.trans hreach, hrest⟩

/-- Instructions in a row, wherever they stand. -/
theorem carries_proceed {is : List Instruction} {a b : Assembly} {m m' : Machine σ}
    (hf : a.frozen = false) (h : Performs (is.map .emit) a b)
    (hplaced : Placed code a.instructions.size (is.map .emit))
    (hreturns : a.returnsValue = c.returnsValue) (hcode : code.returnsValue = c.returnsValue)
    (his : ∀ i ∈ is, i.target? = none ∧ ∀ index, i.local? = some index → index < count)
    (hdepth : a.depth ≤ m.stack.length) (hagree : m.AgreeBelow count m') :
    Carries c code count (a.instructions.size, m') b.instructions.size (proceed c is m) := by
  induction is generalizing a m m' with
  | nil =>
    obtain rfl := performs_nil.mp h
    exact ⟨0, m', .refl _, hagree⟩
  | cons i is ih =>
    obtain ⟨a₁, ha₁, htail⟩ := performs_cons.mp h
    have he := Assembly.emit_eq_ok hf (perform_emit.mp ha₁)
    obtain ⟨htarget, hlocal⟩ := his i (by simp)
    obtain ⟨hholds, hplaced⟩ := hplaced
    have hi := hholds.eq_some htarget
    have hoperands : i.pops c.returnsValue ≤ a.depth := hreturns ▸ he.operands
    have hpops : i.pops c.setting.code.returnsValue ≤ m.stack.length :=
      Nat.le_trans hoperands hdepth
    have halike : Transition.Alike (Machine.AgreeBelow count) c.setting.code code 0
        a.instructions.size i (Machine.step c.setting 0 i m)
        (Machine.step (c.running code) a.instructions.size i m') :=
      Machine.step_agree (show (c.running code).host = c.setting.host from rfl) rfl hcode hagree i
        (fun index hindex => hlocal index (hindex ▸ rfl)) hpops
    simp only [proceed]
    cases hs : Machine.step c.setting 0 i m with
    | stop ending m₁ =>
      rw [hs] at halike
      obtain ⟨m₁', hs', hagree₁⟩ := halike.stopped
      exact ⟨0, _, m', i, ending, m₁', .refl _, hi, hs', rfl, hagree₁.observed⟩
    | goto next m₁ =>
      rw [hs] at halike
      obtain ⟨m₁', hs', hagree₁⟩ := halike.wentOn htarget
      have hsize : a₁.instructions.size = a.instructions.size + 1 := by simp [he.instructions]
      have hdepth₁ : a₁.depth ≤ m₁.stack.length := by
        obtain ⟨-, -, hstack⟩ := Machine.step_goto hs
        rw [he.depth, hreturns]
        split
        · exact Nat.zero_le _
        · simp only [Context.setting] at hstack
          omega
      rw [← hsize] at hplaced hs'
      exact (ih (he.frozen.trans hf) htail hplaced (he.returnsValue.trans hreturns)
        (fun j hj => his j (by simp [hj])) hdepth₁ hagree₁).from (.single hi hs')

theorem environment_agree {m m' : Machine σ} (h : m.AgreeBelow count m') :
    (c.environment m).AgreeBelow count (c.environment m') :=
  ⟨rfl, rfl, h.fields, h.size, h.locals⟩

/-- Storing an outcome in a local of the block and testing it. -/
theorem reaches_testing {position result : Nat} {labels : IfLabels} {m : Machine σ} {v : Value}
    (hplaced : Placed code position (IfBlock.testing labels result))
    (hresult : result < m.locals.size) :
    ∃ n, Reaches (c.running code) (position, m.push v) n
      (if v.isTruthy then position + 3 else code.target labels.elseBody,
        { m with locals := m.locals.setIfInBounds result v }) := by
  obtain ⟨hstore, hload, hjump, -⟩ := hplaced
  let env := c.environment m
  let after : Environment σ := { env with locals := env.locals.setIfInBounds result v }
  have hstored : env.Goes code (position, m.push v) (position + 1, after.machine m.stack m.world) := by
    refine .step hstore rfl ?_
    simp [Machine.step, Machine.withTop, Machine.push, hresult, after, env, Context.environment,
      Environment.machine]
  have hloaded : env.Goes code (position + 1, after.machine m.stack m.world)
      (position + 2, after.machine (v :: m.stack) m.world) := by
    refine .step hload rfl ?_
    simp [Machine.step, hresult, after, env, Context.environment, Environment.machine,
      Machine.pushSlot, Machine.push]
  have htested : after.Goes code (position + 2, after.machine (v :: m.stack) m.world)
      (if v.isTruthy then position + 2 + 1 else code.target labels.elseBody,
        after.machine m.stack m.world) := .ifFalse hjump
  exact hstored.trans (hloaded.trans htested)

/-- The opening of a block evaluates the guard and goes on to one of the bodies. -/
theorem carries_opening {guard : Expr} {a a₁ final : Assembly} {m m' : Machine σ}
    (hready : Ready c count a) (heq : guard.EqualitiesProper) (hreads : guard.ReadsBelow count)
    (hkinds : guard.WellKinded (c.environment m))
    (h : Performs (IfBlock.ofGuard limit guard a.labels.size a.locals.size).opening a a₁)
    (hlead : Leads a₁ final) (hfinish : final.finish = .ok code)
    (hagree : m.AgreeBelow count m') (hsize : m'.locals.size = code.locals.size) :
    match guard.eval (c.environment m) m.world with
    | .ok v world => ∃ n m'', m''.locals.size = code.locals.size ∧
        Machine.AgreeBelow count { m with world } m'' ∧
        Reaches (c.running code) (a.instructions.size, m') n
          (if v.isTruthy then a₁.instructions.size else code.target (a.labels.size + 4), m'')
    | .error e world =>
      ∀ next, Carries c code count (a.instructions.size, m') next
        (.ended (.error e) { m with world }) := by
  obtain ⟨-, hguard, hopens⟩ :=
    opens_of_empty hready.unfrozen hready.reachable hready.empty heq h
  have hplaced := placed_of_leads hready.unfrozen h hlead hfinish
  have hlength := h.size hready.unfrozen
  rw [IfBlock.opening_eq, length_append, show length IfBlock.labelling = 0 from rfl] at hlength
  rw [IfBlock.opening_eq, placed_append, show length IfBlock.labelling = 0 from rfl] at hplaced
  have hagrees := environment_agree (c := c) hagree
  obtain ⟨final, htesting, hfinal, hdelivers⟩ := Environment.Delivers.gathered m'.stack m'.world
    hguard heq (hagrees.wellKinded hreads hkinds) hplaced.2
  have heval : guard.eval (c.environment m') m'.world = guard.eval (c.environment m) m.world := by
    rw [hagrees.eval hreads, hagree.world]
  rw [heval] at hdelivers
  cases hr : guard.eval (c.environment m) m.world with
  | ok v world =>
    rw [hr] at hdelivers
    obtain ⟨d, ⟨n, hreach⟩, u, hu, rfl⟩ := hdelivers
    have hresult : a.locals.size < m'.locals.size := by
      obtain ⟨es, hes⟩ := hlead
      have hle := hes.localCount_le (h.frozen hready.unfrozen)
      rw [hopens.locals, Array.size_push] at hle
      obtain ⟨-, -, -, hlocals, -⟩ := Assembly.finish_eq_ok hfinish
      rw [hsize, hlocals]
      exact hle
    obtain ⟨k, htested⟩ := reaches_testing (c := c) (m := { m' with world }) (v := u) htesting
      hresult
    refine ⟨n + k, _, ?_, (hagree.withWorld world).store_right hready.declared u, ?_⟩
    · exact (Array.size_setIfInBounds ..).trans hsize
    · have hbehind : final + 3 = a₁.instructions.size := by
        have hthree : length (IfBlock.testing (.startingAt a.labels.size) a.locals.size) = 3 := rfl
        omega
      rw [hu, hbehind] at htested
      exact hreach.trans htested
  | error e world =>
    rw [hr] at hdelivers
    obtain ⟨⟨position, m₁⟩, i, e', m₂, ⟨n, hreach⟩, hi, hs, he, hworld, hfields, hlocals⟩ := hdelivers
    refine fun next => ⟨n, position, m₁, i, .error e', m₂, hreach, hi, hs, ?_, hworld, ?_, ?_⟩
    · exact congrArg Except.error he
    · exact hfields.trans hagree.fields
    · intro index hindex
      rw [hlocals]
      exact hagree.locals index hindex

/-! ## Statements -/

/-- What was written between two assemblies does what structured code comes to, and where that goes on
the second assembly is ready. -/
structure Realizes (c : Context σ) (code : Code) (count : Nat) (a b : Assembly) (m : Machine σ)
    (outcome : Outcome σ) : Prop where
  carries : Carries c code count (a.instructions.size, m) b.instructions.size outcome
  ready : ∀ m', outcome = .done m' → Ready c count b

/-- A statement runs as it says, wherever it was written. -/
def Runs (c : Context σ) (code : Code) (count limit : Nat) (final : Assembly) (s : Statement) :
    Prop :=
  ∀ a b m m', s.Writes limit a b → Leads b final → Ready c count a → m.AgreeBelow count m' →
    m'.locals.size = code.locals.size → s.Kinded c m → Realizes c code count a b m' (s.exec c m)

def RunsAll (c : Context σ) (code : Code) (count limit : Nat) (final : Assembly)
    (ss : List Statement) : Prop :=
  ∀ a b m m', WritesAll limit ss a b → Leads b final → Ready c count a → m.AgreeBelow count m' →
    m'.locals.size = code.locals.size → KindedAll c ss m →
      Realizes c code count a b m' (execAll c ss m)

variable {final : Assembly}

/-- Statements run one after another. -/
theorem runsAll {ss : List Statement} (h : ∀ s ∈ ss, s.Runs c code count limit final) :
    RunsAll c code count limit final ss := by
  induction ss with
  | nil =>
    intro a b m m' hw _ hready hagree _ _
    obtain rfl : b = a := hw
    exact ⟨⟨0, m', .refl _, hagree⟩, fun _ _ => hready⟩
  | cons s ss ih =>
    intro a b m m' hw hlead hready hagree hsize hkinds
    obtain ⟨a₁, hs, hss⟩ := hw
    obtain ⟨hkind, hkinds⟩ := hkinds
    have hfirst := h s (by simp) a a₁ m m' hs (hss.leads.trans hlead) hready hagree hsize hkind
    rw [execAll]
    cases hexec : s.exec c m with
    | ended ending m₁ =>
      rw [hexec] at hfirst
      exact ⟨hfirst.carries, nofun⟩
    | done m₁ =>
      rw [hexec] at hfirst hkinds
      obtain ⟨n, m₁', hreach, hagree₁⟩ := hfirst.carries
      have hrest := ih (fun s hs => h s (by simp [hs])) a₁ b m₁ m₁' hss hlead (hfirst.ready m₁ rfl)
        hagree₁ (hreach.localCount.trans hsize) hkinds
      exact ⟨hrest.carries.from hreach, hrest.ready⟩

/-- The depth behind instructions in a row is the one that they add up to. -/
theorem depth_of_performs {is : List Instruction} {a b : Assembly} {depth : Nat}
    (hf : a.frozen = false) (hr : a.reachable = true) (h : Performs (is.map .emit) a b)
    (honward : ∀ i ∈ is, i.endsBlock = false)
    (hdepth : Instruction.depthAfter a.returnsValue is a.depth = some depth) :
    b.reachable = true ∧ b.depth = depth := by
  induction is generalizing a with
  | nil =>
    obtain rfl := performs_nil.mp h
    exact ⟨hr, Option.some.inj hdepth⟩
  | cons i is ih =>
    obtain ⟨a₁, ha₁, htail⟩ := performs_cons.mp h
    have he := Assembly.emit_eq_ok hf (perform_emit.mp ha₁)
    have hends := honward i (by simp)
    refine ih (he.frozen.trans hf) (by rw [he.reachable, hends]; rfl) htail
      (fun j hj => honward j (by simp [hj])) ?_
    rw [Instruction.depthAfter, if_pos he.operands] at hdepth
    rw [he.returnsValue, he.depth, hends]
    exact hdepth

theorem Straight.onward {is : List Instruction} (h : Straight count is) :
    ∀ i ∈ is, i.endsBlock = false := by
  intro i hi
  obtain ⟨htarget, hret, -⟩ := h i hi
  cases i <;> first | rfl | exact absurd rfl hret | cases htarget

theorem runs_group {calls : List (List Instruction)} (hcode : code.returnsValue = c.returnsValue)
    (hfinish : final.finish = .ok code) (hstraight : Straight count calls.flatten)
    (hdepth : Instruction.depthAfter c.returnsValue calls.flatten 0 = some 0) :
    (group calls).Runs c code count limit final := by
  intro a b m m' hw hlead hready hagree _ _
  rw [Writes] at hw
  refine ⟨carries_proceed hready.unfrozen hw (placed_of_leads hready.unfrozen hw hlead hfinish)
    hready.returns hcode (fun i hi => ⟨(hstraight i hi).1, (hstraight i hi).2.2⟩)
    (by simp [hready.empty]) hagree, fun _ _ => ?_⟩
  rw [← hready.returns, ← hready.empty] at hdepth
  obtain ⟨hreachable, hempty⟩ :=
    depth_of_performs hready.unfrozen hready.reachable hw hstraight.onward hdepth
  exact hready.leads ⟨_, hw⟩ hreachable (hempty.trans hready.empty)

theorem step_ret (s : Setting σ) (position : Nat) (m : Machine σ) :
    ∃ ending m', Machine.step s position .ret m = .stop ending m' := by
  simp only [Machine.step, Machine.withTop]
  split
  · split
    · exact ⟨_, _, rfl⟩
    · exact ⟨_, _, rfl⟩
  · exact ⟨_, _, rfl⟩

/-- Nothing is carried out behind a return. -/
theorem proceed_ret (is : List Instruction) (m m' : Machine σ) :
    proceed c (is ++ [.ret]) m ≠ .done m' := by
  induction is generalizing m with
  | nil =>
    obtain ⟨ending, m₁, hs⟩ := step_ret c.setting 0 m
    simp only [List.nil_append, proceed, hs]
    nofun
  | cons i is ih =>
    simp only [List.cons_append, proceed]
    split
    · exact ih _
    · nofun

theorem runs_answer {calls : List (List Instruction)} (hcode : code.returnsValue = c.returnsValue)
    (hfinish : final.finish = .ok code) (hstraight : Straight count calls.flatten) :
    (answer calls).Runs c code count limit final := by
  intro a b m m' hw hlead hready hagree _ _
  rw [Writes] at hw
  have his : ∀ i ∈ calls.flatten ++ [.ret],
      i.target? = none ∧ ∀ index, i.local? = some index → index < count := by
    intro i hi
    rcases List.mem_append.mp hi with hi | hi
    · exact ⟨(hstraight i hi).1, (hstraight i hi).2.2⟩
    · obtain rfl := List.mem_singleton.mp hi
      refine ⟨rfl, fun index h => ?_⟩
      cases h
  exact ⟨carries_proceed hready.unfrozen hw (placed_of_leads hready.unfrozen hw hlead hfinish)
    hready.returns hcode his (by simp [hready.empty]) hagree,
    fun m₁ hdone => absurd hdone (proceed_ret _ _ _)⟩

/-- A block runs the body that its guard selects and goes on behind its end. -/
theorem runs_choice {guard : Expr} {onTrue onFalse : List Statement}
    (hfinish : final.finish = .ok code) (heq : guard.EqualitiesProper)
    (hreads : guard.ReadsBelow count) (htrue : RunsAll c code count limit final onTrue)
    (hfalse : RunsAll c code count limit final onFalse) :
    (choice guard onTrue onFalse).Runs c code count limit final := by
  intro a b m m' hw hlead hready hagree hsize hkinds
  obtain ⟨a₁, a₂, a₃, a₄, h₁, h₂, h₃, h₄, h₅⟩ := hw
  obtain ⟨hkind, hkinds⟩ := hkinds
  have hopened : Leads a a₁ := ⟨_, h₁⟩
  have hlead₄ : Leads a₄ final := Leads.trans ⟨_, h₅⟩ hlead
  have hlead₃ : Leads a₃ final := h₄.leads.trans hlead₄
  have hlead₂ : Leads a₂ final := Leads.trans ⟨_, h₃⟩ hlead₃
  have hf₁ := h₁.frozen hready.unfrozen
  have hf₂ := h₂.leads.frozen hf₁
  have hf₄ := h₄.leads.frozen (h₃.frozen hf₂)
  obtain ⟨-, -, hopens⟩ := opens_of_empty hready.unfrozen hready.reachable hready.empty heq h₁
  have hready₁ := hready.leads hopened hopens.reachable (hopens.depth.trans hready.empty)
  -- Where the second body and the end of the block stand.
  obtain ⟨hjump, helse, -⟩ := placed_of_leads hf₂ h₃ hlead₃ hfinish
  obtain ⟨hend, -⟩ := placed_of_leads hf₄ h₅ hlead hfinish
  have hsize₃ : a₃.instructions.size = a₂.instructions.size + 1 := h₃.size hf₂
  have hsize₅ : b.instructions.size = a₄.instructions.size := h₅.size hf₄
  have hguard := carries_opening hready heq hreads hkind h₁ (h₂.leads.trans hlead₂) hfinish hagree
    hsize
  rw [exec]
  cases hr : guard.eval (c.environment m) m.world with
  | error e world =>
    simp only [hr] at hguard ⊢
    exact ⟨hguard _, nofun⟩
  | ok v world =>
    simp only [hr] at hguard hkinds ⊢
    obtain ⟨n, m₁, hsize₁, hagree₁, hreach⟩ := hguard
    cases hv : v.isTruthy with
    | true =>
      simp only [hv, ↓reduceIte] at hreach hkinds ⊢
      have hbody := htrue a₁ a₂ _ m₁ h₂ hlead₂ hready₁ hagree₁ hsize₁ hkinds
      cases hexec : execAll c onTrue { m with world } with
      | ended ending m₂ =>
        rw [hexec] at hbody
        exact ⟨hbody.carries.from hreach, nofun⟩
      | done m₂ =>
        rw [hexec] at hbody
        obtain ⟨k, m₂', hreach₂, hagree₂⟩ := hbody.carries
        -- The branch behind the first body skips the second.
        obtain ⟨form, hj⟩ := hjump.eq_branch
        have hskip : Reaches (c.running code) (a₂.instructions.size, m₂') 1
            (b.instructions.size, m₂') := by
          rw [hsize₅, ← hend]
          exact .single hj rfl
        exact ⟨⟨_, m₂', hreach.trans (hreach₂.trans hskip), hagree₂⟩, fun _ _ =>
          (hbody.ready m₂ rfl).endIf_of_true h₃ h₄.leads h₅⟩
    | false =>
      simp only [hv, Bool.false_eq_true, ↓reduceIte] at hreach hkinds ⊢
      have hready₃ := hready.onFalse hopens hf₁ hopened h₂.leads h₃
      have hbody := hfalse a₃ a₄ _ m₁ h₄ hlead₄ hready₃ hagree₁ hsize₁ hkinds
      rw [show code.target (a.labels.size + 4) = a₃.instructions.size from helse.trans hsize₃.symm]
        at hreach
      have hcarries := hbody.carries.from hreach
      rw [← hsize₅] at hcarries
      exact ⟨hcarries, fun m₂ hdone => (hbody.ready m₂ hdone).endIf_of_false h₅⟩

theorem runs_statement {s : Statement} (hcode : code.returnsValue = c.returnsValue)
    (hfinish : final.finish = .ok code) (hs : s.Proper count c.returnsValue) :
    s.Runs c code count limit final := by
  induction hs with
  | group hstraight hdepth => exact runs_group hcode hfinish hstraight hdepth
  | answer hstraight => exact runs_answer hcode hfinish hstraight
  | choice heq hreads _ _ ihtrue ihfalse =>
    exact runs_choice hfinish heq hreads (runsAll ihtrue) (runsAll ihfalse)

/-- The end of a run is that of structured code: the same return, or the same error whatever
instruction that blames, in the same world and with the same fields and the same locals below a number.
Code that goes on behind its last statement falls off the end. -/
def Outcome.Seen (count : Nat) (outcome : Outcome σ) (ending : Ending) (m : Machine σ) : Prop :=
  match outcome with
  | .done m₀ => ending = .error .fellOffEnd ∧ m₀.Observed count m
  | .ended ending₀ m₀ => ending.plain = ending₀.plain ∧ m₀.Observed count m

/-- Runs from the first instruction, once they end. -/
theorem Carries.run {m : Machine σ} {outcome : Outcome σ}
    (h : Carries c code count (0, m) code.instructions.size outcome) :
    ∃ steps ending m', outcome.Seen count ending m' ∧ ∀ fuel, steps ≤ fuel →
      Machine.run (c.running code) fuel m = some (ending, m') := by
  cases outcome with
  | done m₀ =>
    obtain ⟨n, m', hreach, hagree⟩ := h
    refine ⟨n + 1, _, m', ⟨rfl, hagree.observed⟩, fun fuel hfuel => ?_⟩
    obtain ⟨extra, rfl⟩ : ∃ extra, fuel = extra + 1 + n := ⟨fuel - n - 1, by omega⟩
    rw [Machine.run, Machine.resume_of_reaches rfl hreach (extra + 1) 0, Machine.resume]
    simp [Context.running]
  | ended ending₀ m₀ =>
    obtain ⟨n, position, m₁, i, ending, m', hreach, hi, hs, hending, hobserved⟩ := h
    exact ⟨n + 1, ending, m', ⟨hending, hobserved⟩, fun fuel hfuel =>
      Machine.run_of_reaches rfl hreach hi hs hfuel⟩

end

end Statement

/-- A body in which nothing has been written yet. Locals may have been declared. -/
structure MethodBody.Unwritten (body : MethodBody) : Prop where
  instructions : body.assembly.instructions = #[]
  unfrozen : body.assembly.frozen = false
  reachable : body.assembly.reachable = true
  empty : body.assembly.depth = 0

theorem MethodBody.unwritten_ofSignature (signature : Signature) (options : Options) :
    (ofSignature signature options).Unwritten :=
  ⟨rfl, rfl, rfl, rfl⟩

theorem MethodBody.Unwritten.declare {body after : MethodBody} {name : String} {type : Ty}
    {slot : Slot} (h : body.Unwritten) (hd : declare name type body = .ok slot after) :
    after.Unwritten := by
  unfold MethodBody.declare Assembly.declare at hd
  split at hd
  · rename_i hok
    split at hok
    · cases hok
    · cases hok
      cases hd
      exact ⟨h.instructions, h.unfrozen, h.reachable, h.empty⟩
  · cases hd

open Statement in
/-- A run of a finished body does what its structured code says. -/
theorem structured_code_runs {σ : Type} {body : MethodBody} (hbody : body.Unwritten)
    {program : List Statement}
    (hprogram : ∀ s ∈ program,
      s.Proper body.assembly.locals.size body.assembly.returnsValue)
    {code : Code} (hcode : (writeAll program body).finish = .ok code) (host : Host σ)
    (args : Array Value) (m : Machine σ) (hlocals : m.locals.size = code.locals.size)
    (hkinds : KindedAll ⟨host, args, body.assembly.returnsValue⟩ program m) :
    ∃ steps ending m',
      (execAll ⟨host, args, body.assembly.returnsValue⟩ program m).Seen body.assembly.locals.size
        ending m' ∧
      ∀ fuel, steps ≤ fuel → Machine.run { code, host, args } fuel m = some (ending, m') := by
  obtain ⟨b, hwrites, hfinish⟩ := writesAll_of_finish hcode
  have hready : Ready (σ := σ) ⟨host, args, body.assembly.returnsValue⟩ body.assembly.locals.size
      body.assembly := ⟨hbody.unfrozen, hbody.reachable, hbody.empty, rfl, Nat.le_refl _⟩
  obtain ⟨-, hrelax, -, -, -, hreturns⟩ := Assembly.finish_eq_ok hfinish
  have hsize : code.instructions.size = b.instructions.size := (Relaxation.relax_allAlike hrelax).1
  have hreturned : code.returnsValue = body.assembly.returnsValue := by
    obtain ⟨ds, hds⟩ := hwrites.leads
    exact hreturns.trans (hds.returnsValue hbody.unfrozen)
  have hcarries := (runsAll (fun s hs => runs_statement hreturned hfinish (hprogram s hs))
    body.assembly b m m hwrites (.refl b) hready (.refl _ m) hlocals hkinds).carries
  rw [hbody.instructions, ← hsize] at hcarries
  exact hcarries.run

/-- The guard that an argument is positive. -/
def isPositive (index : Nat) : Expr :=
  .binary .gt (.member (.arg ⟨index, .i32⟩)) (.literal (.i32 0))

/-- A block within a block: the local becomes 2 if both arguments are positive. -/
def nestedBlocks : List Statement :=
  [.choice (isPositive 0) [.choice (isPositive 1) [.group [[.pushInt 2], [.storeLocal 0]]] []] [],
    .answer [[.loadLocal 0]]]

/-- A body with a local for the result. -/
def nestedBody : MethodBody :=
  let start := MethodBody.ofSignature ⟨[.i32, .i32], .i32⟩ {}
  { start with
    assembly := { start.assembly with locals := #[.i32] }
    scope := start.scope.addNamedLocal "result" ⟨0, .i32⟩ }

theorem isPositive_proper (index count : Nat) :
    (isPositive index).EqualitiesProper ∧ (isPositive index).ReadsBelow count := by
  constructor
  · intro op left right method hp hop hm
    simp only [isPositive, Expr.part_binary, Expr.part_member, Expr.part_literal, reduceCtorEq,
      or_false, Expr.binary.injEq] at hp
    obtain ⟨rfl, -⟩ := hp
    simp at hop
  · intro slot h
    simp [isPositive] at h

theorem isPositive_wellKinded {σ : Type} {env : Environment σ} {index : Nat} {v : Int32}
    (h : env.args[index]? = some (.int32 v)) : (isPositive index).WellKinded env where
  operands op left right hp _ := by
    simp only [isPositive, Expr.part_binary, Expr.part_member, Expr.part_literal, reduceCtorEq,
      or_false, Expr.binary.injEq] at hp
    obtain ⟨-, rfl, rfl⟩ := hp
    constructor
    · rintro w ⟨before, after, hw⟩
      simp only [Expr.eval, Environment.load, h, Environment.fetch] at hw
      cases hw
      exact ⟨rfl, rfl⟩
    · rintro w ⟨before, after, hw⟩
      cases hw
      exact ⟨rfl, rfl⟩
  differences left right method hp := by
    simp [isPositive] at hp
  chains p c v hp hlogical hc hchain := by
    simp only [isPositive, Expr.part_binary, Expr.part_member, Expr.part_literal] at hp
    rcases hp with rfl | rfl | rfl <;> simp [Expr.children] at hc
    rcases hc with rfl | rfl <;> cases hchain

theorem nestedBlocks_proper : ∀ s ∈ nestedBlocks, s.Proper 1 true := by
  have hset : Statement.Proper 1 true (.group [[.pushInt 2], [.storeLocal 0]]) :=
    .group (by simp [Statement.Straight, Instruction.pushInt, Instruction.target?,
      Instruction.local?]) rfl
  have hinner : Statement.Proper 1 true
      (.choice (isPositive 1) [.group [[.pushInt 2], [.storeLocal 0]]] []) :=
    .choice (isPositive_proper 1 1).1 (isPositive_proper 1 1).2 (by simpa using hset) (by simp)
  have houter : Statement.Proper 1 true (.choice (isPositive 0)
      [.choice (isPositive 1) [.group [[.pushInt 2], [.storeLocal 0]]] []] []) :=
    .choice (isPositive_proper 0 1).1 (isPositive_proper 0 1).2 (by simpa using hinner) (by simp)
  have hanswer : Statement.Proper 1 true (.answer [[.loadLocal 0]]) :=
    .answer (by simp [Statement.Straight, Instruction.target?, Instruction.local?])
  simpa [nestedBlocks] using ⟨houter, hanswer⟩

/-- With two positive arguments the inner group runs, and the local is returned. -/
theorem nestedBlocks_run :
    ∃ code, (Statement.writeAll nestedBlocks nestedBody).finish = .ok code ∧
      ∃ steps m, m.locals[0]? = some (.int32 2) ∧ ∀ fuel, steps ≤ fuel →
        Machine.run { code, host := {}, args := #[.int32 1, .int32 1] } fuel
          (Machine.start code #[] ()) = some (.ok (some (.int32 2)), m) := by
  have hdeclared : MethodBody.declare "result" .i32 (.ofSignature ⟨[.i32, .i32], .i32⟩ {}) =
      .ok ⟨0, .i32⟩ nestedBody := rfl
  have hlocals : (Statement.writeAll nestedBlocks nestedBody).finish.toOption.map (·.locals) =
      some #[.i32, .bool, .bool] := by decide +kernel
  cases hcode : (Statement.writeAll nestedBlocks nestedBody).finish with
  | error e =>
    rw [hcode] at hlocals
    cases hlocals
  | ok code =>
    rw [hcode] at hlocals
    have hstart : Machine.start code #[] () = ⟨[], #[.int32 0, .int32 0, .int32 0], #[], ()⟩ := by
      have hcodeLocals : code.locals = #[.i32, .bool, .bool] := Option.some.inj hlocals
      simp [Machine.start, hcodeLocals, Value.zero]
    have hkinds : Statement.KindedAll ⟨{}, #[.int32 1, .int32 1], true⟩ nestedBlocks
        (Machine.start code #[] ()) := by
      rw [hstart]
      have hpositive : ∀ index < 2, ∀ m : Machine Unit, (isPositive index).WellKinded
          (Statement.Context.environment ⟨{}, #[.int32 1, .int32 1], true⟩ m) := by
        intro index hindex m
        refine isPositive_wellKinded (v := 1) ?_
        match index, hindex with
        | 0, _ => rfl
        | 1, _ => rfl
      exact ⟨⟨hpositive 0 (by omega) _, ⟨hpositive 1 (by omega) _, trivial, trivial⟩, trivial⟩,
        trivial, trivial⟩
    obtain ⟨steps, ending, m, hseen, hrun⟩ := structured_code_runs
      ((MethodBody.unwritten_ofSignature _ {}).declare hdeclared) nestedBlocks_proper hcode {}
      #[.int32 1, .int32 1] (Machine.start code #[] ()) (by simp [Machine.start]) hkinds
    rw [hstart] at hseen
    obtain ⟨hending, hobserved⟩ := hseen
    refine ⟨code, rfl, steps, m, hobserved.locals 0 (by decide), ?_⟩
    cases ending with
    | ok returned =>
      cases hending
      exact hrun
    | error e => cases hending

end GuardCode
