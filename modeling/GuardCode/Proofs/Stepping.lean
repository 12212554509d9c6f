import GuardCode.Proofs.Code.Placed
import GuardCode.Proofs.Emission.Shape
import GuardCode.Proofs.Machine.Run
import GuardCode.Proofs.Relaxation

/-! Stepping a local. Sums and differences with one are brought back into the range of the type for
sixteen bits, and words of 32 and 64 bits wrap by themselves, so such a local always holds the number of
steps up less the number of steps down, reduced to its range. A local of eight bits is stepped as an
int32: it holds the reduced number just as long as it holds a value of its type. -/
namespace GuardCode

/-- The integer of a range that differs from a number by a multiple of the size of the range. -/
def wrap (range : Int × Int) (n : Int) : Int :=
  range.1 + (n - range.1) % (range.2 - range.1 + 1)

namespace Ty

/-- The least and the greatest value of an integer type. -/
def range? : Ty → Option (Int × Int)
  | u8 => some (0, 255)
  | i8 => some (-128, 127)
  | i16 => some (-32768, 32767)
  | u16 => some (0, 65535)
  | i32 => some (-2147483648, 2147483647)
  | i64 => some (-9223372036854775808, 9223372036854775807)
  | _ => none

/-- The range that steps of a local of a type keep to. -/
def steppedRange? : Ty → Option (Int × Int)
  | u8 | i8 => i32.range?
  | type => type.range?

end Ty

/-- The value is a number in the kind of stack slot that an integer type takes. -/
def Value.IsInt (type : Ty) (n : Int) : Value → Prop
  | .int32 x => type ≠ .i64 ∧ x.toInt = n
  | .int64 x => type = .i64 ∧ x.toInt = n
  | _ => False

theorem Value.IsInt.unique {type : Ty} {n k : Int} {v : Value} (h : v.IsInt type n)
    (h' : v.IsInt type k) : n = k := by
  cases v with
  | int32 x => exact h.2.symm.trans h'.2
  | int64 x => exact h.2.symm.trans h'.2
  | _ => exact h.elim

theorem Value.IsInt.int32 {type : Ty} {n : Int} {v : Value} (h : v.IsInt type n) (hword : type ≠ .i64) :
    ∃ x : Int32, v = .int32 x ∧ x.toInt = n := by
  cases v with
  | int32 x => exact ⟨x, rfl, h.2⟩
  | int64 x => exact absurd h.1 hword
  | _ => exact h.elim

/-- A step of a local by one. -/
inductive Stepping where
  | up
  | down
  deriving DecidableEq

namespace Stepping

/-- The instructions that a step is emitted as. -/
def instructions (slot : Slot) : Stepping → List Instruction
  | up => Instruction.increment slot
  | down => Instruction.decrement slot

def change : Stepping → Int
  | up => 1
  | down => -1

/-- Steps one behind the other. -/
def row (slot : Slot) (steps : List Stepping) : List Instruction := steps.flatMap (instructions slot)

/-- The number of steps up less the number of steps down. -/
def tally (steps : List Stepping) : Int := (steps.count up : Int) - steps.count down

@[simp] theorem tally_nil : tally [] = 0 := rfl

@[simp] theorem tally_cons (step : Stepping) (steps : List Stepping) :
    tally (step :: steps) = step.change + tally steps := by
  cases step <;> simp [tally, change] <;> omega

theorem row_cons (slot : Slot) (step : Stepping) (steps : List Stepping) :
    row slot (step :: steps) = step.instructions slot ++ row slot steps := rfl

theorem row_append (slot : Slot) (steps more : List Stepping) :
    row slot (steps ++ more) = row slot steps ++ row slot more := List.flatMap_append

end Stepping

/-! ## Words -/

section

variable {x : Int32} {n : Int}

theorem toInt_signed16 : (x.toInt16.toInt32).toInt = wrap (-32768, 32767) x.toInt := by
  rw [Int16.toInt_toInt32, Int32.toInt_toInt16, Int.bmod_def]
  show _ = -32768 + (x.toInt - -32768) % 65536
  omega

theorem toInt_unsigned16 :
    (Int32.ofNat x.toInt16.toUInt16.toNat).toInt = wrap (0, 65535) x.toInt := by
  have hlt : x.toInt16.toUInt16.toNat < 65536 := UInt16.toNat_lt _
  have hbits : (x.toInt16.toUInt16.toNat : Int) = x.toInt16.toInt % 65536 := by
    show (x.toInt16.toBitVec.toNat : Int) = x.toInt16.toBitVec.toInt % 65536
    rw [BitVec.toInt_eq_toNat_bmod, Int.bmod_def]
    have := x.toInt16.toBitVec.isLt
    omega
  rw [Int32.toInt_ofNat_of_lt (by omega), hbits, Int32.toInt_toInt16, Int.bmod_def]
  show _ = 0 + (x.toInt - 0) % 65536
  omega

theorem bmod_word : n.bmod 4294967296 = wrap (-2147483648, 2147483647) n := by
  rw [Int.bmod_def]
  show _ = -2147483648 + (n - -2147483648) % 4294967296
  omega

theorem bmod_long :
    n.bmod 18446744073709551616 = wrap (-9223372036854775808, 9223372036854775807) n := by
  rw [Int.bmod_def]
  show _ = -9223372036854775808 + (n - -9223372036854775808) % 18446744073709551616
  omega

end

/-- Only what is left over by the smaller range counts. -/
theorem wrap_wrap {range larger : Int × Int} (n k : Int)
    (h : range.2 - range.1 + 1 ∣ larger.2 - larger.1 + 1) :
    wrap range (wrap larger n + k) = wrap range (n + k) := by
  have hshift : larger.1 + (n - larger.1) % (larger.2 - larger.1 + 1) + k - range.1 =
      (n - larger.1) % (larger.2 - larger.1 + 1) + (larger.1 + k - range.1) := by omega
  have hback : n - larger.1 + (larger.1 + k - range.1) = n + k - range.1 := by omega
  rw [wrap, wrap, hshift, Int.add_emod, Int.emod_emod_of_dvd _ h, ← Int.add_emod, hback, wrap]

theorem wrap_again {range larger : Int × Int} (n : Int)
    (h : range.2 - range.1 + 1 ∣ larger.2 - larger.1 + 1) :
    wrap range (wrap larger n) = wrap range n := by
  have hzero := wrap_wrap n 0 h
  rwa [Int.add_zero, Int.add_zero] at hzero

theorem wrap_mem {range : Int × Int} (n : Int) (h : range.1 ≤ range.2) :
    range.1 ≤ wrap range n ∧ wrap range n ≤ range.2 := by
  have hpos : 0 < range.2 - range.1 + 1 := by omega
  have hlow := Int.emod_nonneg (n - range.1) (Int.ne_of_gt hpos)
  have hhigh := Int.emod_lt_of_pos (n - range.1) hpos
  rw [wrap]
  omega

theorem wrap_of_mem {range : Int × Int} {n : Int} (h : range.1 ≤ n ∧ n ≤ range.2) :
    wrap range n = n := by
  rw [wrap, Int.emod_eq_of_lt (by omega) (by omega)]
  omega

/-! ## One step -/

namespace Ty

/-- The range of the word in which sums of a type are computed. -/
def wordRange : Ty → Int × Int
  | i64 => (-9223372036854775808, 9223372036854775807)
  | _ => (-2147483648, 2147483647)

end Ty

namespace Stepping

def op : Stepping → Instruction
  | up => .add
  | down => .sub

theorem instructions_eq (slot : Slot) (step : Stepping) :
    step.instructions slot = [.loadLocal slot.index, Instruction.pushOne slot.type, step.op] ++
      (Instruction.renormalize slot.type ++ [.storeLocal slot.index]) := by
  cases step <;> simp [instructions, Instruction.increment, Instruction.decrement, Instruction.step, op]

end Stepping

namespace Machine

open Directive (Placed)

variable {σ : Type} {s : Setting σ} {position : Nat} {m : Machine σ} {slot : Slot}
  {range : Int × Int} {v : Value} {n : Int}

/-- The local and one are pushed, and their sum or difference replaces them. -/
theorem reaches_sum (hrange : slot.type.steppedRange? = some range) (step : Stepping)
    (hplaced : Placed s.code position
      ([.loadLocal slot.index, Instruction.pushOne slot.type, step.op].map .emit))
    (hv : m.locals[slot.index]? = some v) (hint : v.IsInt slot.type n) :
    ∃ v' : Value, v'.IsInt slot.type (wrap slot.type.wordRange (n + step.change)) ∧
      Reaches s (position, m) 3 (position + 3, m.push v') := by
  obtain ⟨hload, hone, hop, -⟩ := hplaced
  have hgoto : Machine.step s position (.loadLocal slot.index) m = .goto (position + 1) (m.push v) := by
    simp only [Machine.step, hv, pushSlot]
  have hstart := Reaches.single (hload.eq_some rfl) hgoto
  have htarget : step.op.target? = none := by cases step <;> rfl
  cases v with
  | int32 x =>
    obtain ⟨hword, rfl⟩ := hint
    have hpush : Instruction.pushOne slot.type = .loadSmall 1 := by
      cases htype : slot.type <;> simp [htype, Ty.steppedRange?, Ty.range?] at hrange hword <;> decide
    have hwide : slot.type.wordRange = (-2147483648, 2147483647) := by
      unfold Ty.wordRange
      split
      · exact absurd ‹_› hword
      · rfl
    rw [hpush] at hone
    have hmiddle : Reaches s (position + 1, m.push (.int32 x)) 1
        (position + 2, (m.push (.int32 x)).push (.int32 1)) := .single (hone.eq_some rfl) rfl
    have hend : ∀ v', Machine.step s (position + 2) step.op ((m.push (.int32 x)).push (.int32 1)) =
        .goto (position + 3) (m.push v') → Reaches s (position, m) 3 (position + 3, m.push v') :=
      fun v' hs => (hstart.trans hmiddle).trans (.single (hop.eq_some htarget) hs)
    rw [hwide, ← bmod_word]
    cases step with
    | up => exact ⟨.int32 (x + 1), ⟨hword, Int32.toInt_add x 1⟩, hend _ rfl⟩
    | down => exact ⟨.int32 (x - 1), ⟨hword, Int32.toInt_sub x 1⟩, hend _ rfl⟩
  | int64 x =>
    obtain ⟨hlong, rfl⟩ := hint
    rw [hlong] at hone ⊢
    have hmiddle : Reaches s (position + 1, m.push (.int64 x)) 1
        (position + 2, (m.push (.int64 x)).push (.int64 1)) := .single (hone.eq_some rfl) rfl
    have hend : ∀ v', Machine.step s (position + 2) step.op ((m.push (.int64 x)).push (.int64 1)) =
        .goto (position + 3) (m.push v') → Reaches s (position, m) 3 (position + 3, m.push v') :=
      fun v' hs => (hstart.trans hmiddle).trans (.single (hop.eq_some htarget) hs)
    rw [Ty.wordRange, ← bmod_long]
    cases step with
    | up => exact ⟨.int64 (x + 1), ⟨rfl, Int64.toInt_add x 1⟩, hend _ rfl⟩
    | down => exact ⟨.int64 (x - 1), ⟨rfl, Int64.toInt_sub x 1⟩, hend _ rfl⟩
  | _ => exact hint.elim

/-- The sum is brought into the range that the steps keep to. -/
theorem reaches_renormalized (hrange : slot.type.steppedRange? = some range)
    (hplaced : Placed s.code position ((Instruction.renormalize slot.type).map .emit))
    (hint : v.IsInt slot.type (wrap slot.type.wordRange n)) :
    ∃ v' : Value, v'.IsInt slot.type (wrap range n) ∧
      Reaches s (position, m.push v) (Instruction.renormalize slot.type).length
        (position + (Instruction.renormalize slot.type).length, m.push v') := by
  cases htype : slot.type with
  | u8 | i8 | i32 | i64 =>
    rw [htype] at hrange hint
    cases hrange
    exact ⟨v, hint, .refl _⟩
  | i16 =>
    rw [htype] at hrange hint hplaced
    cases hrange
    obtain ⟨x, rfl, hx⟩ := hint.int32 nofun
    refine ⟨.int32 x.toInt16.toInt32, ⟨nofun, ?_⟩, .single (hplaced.1.eq_some rfl) rfl⟩
    rw [toInt_signed16, hx]
    exact wrap_again n (by decide)
  | u16 =>
    rw [htype] at hrange hint hplaced
    cases hrange
    obtain ⟨x, rfl, hx⟩ := hint.int32 nofun
    refine ⟨.int32 (Int32.ofNat x.toInt16.toUInt16.toNat), ⟨nofun, ?_⟩,
      .single (hplaced.1.eq_some rfl) rfl⟩
    rw [toInt_unsigned16, hx]
    exact wrap_again n (by decide)
  | _ =>
    rw [htype] at hrange
    cases hrange

/-- One step of a local, with the numbers that it holds before and after. -/
theorem reaches_step (hrange : slot.type.steppedRange? = some range) (step : Stepping)
    (hplaced : Placed s.code position ((step.instructions slot).map .emit))
    (hv : m.locals[slot.index]? = some v) (hint : v.IsInt slot.type (wrap range n)) :
    ∃ v' : Value, v'.IsInt slot.type (wrap range (n + step.change)) ∧
      Reaches s (position, m) (step.instructions slot).length
        (position + (step.instructions slot).length,
          { m with locals := m.locals.setIfInBounds slot.index v' }) := by
  rw [Stepping.instructions_eq] at hplaced ⊢
  rw [List.map_append, Directive.placed_append, List.map_append, Directive.placed_append] at hplaced
  obtain ⟨hsum, hrenormalize, hstore, -⟩ := hplaced
  simp only [Directive.length_map_emit, List.length_cons, List.length_nil] at hrenormalize hstore
  obtain ⟨v₁, hint₁, hreach₁⟩ := reaches_sum hrange step hsum hv hint
  obtain ⟨v₂, hint₂, hreach₂⟩ := reaches_renormalized (m := m) hrange hrenormalize hint₁
  have hlt : slot.index < m.locals.size := (Array.getElem?_eq_some_iff.mp hv).1
  have hgoto : ∀ p, Machine.step s p (.storeLocal slot.index) (m.push v₂) =
      .goto (p + 1) { m with locals := m.locals.setIfInBounds slot.index v₂ } := fun p => if_pos hlt
  have hreach₃ := Reaches.single (hstore.eq_some rfl) (hgoto _)
  refine ⟨v₂, ?_, ?_⟩
  · rwa [wrap_wrap n step.change (Int.dvd_refl _)] at hint₂
  · rw [List.length_append, List.length_append, ← Nat.add_assoc, ← Nat.add_assoc, ← Nat.add_assoc]
    exact (hreach₁.trans hreach₂).trans hreach₃

/-- Steps in a row, with the numbers that the local holds before and after. -/
theorem reaches_row (hrange : slot.type.steppedRange? = some range) (steps : List Stepping)
    (hplaced : Placed s.code position ((Stepping.row slot steps).map .emit))
    (hv : m.locals[slot.index]? = some v) (hint : v.IsInt slot.type (wrap range n)) :
    ∃ v' : Value, v'.IsInt slot.type (wrap range (n + Stepping.tally steps)) ∧
      Reaches s (position, m) (Stepping.row slot steps).length
        (position + (Stepping.row slot steps).length,
          { m with locals := m.locals.setIfInBounds slot.index v' }) := by
  induction steps generalizing position m v n with
  | nil =>
    have hsame : m.locals.setIfInBounds slot.index v = m.locals := by
      apply Array.ext_getElem?
      intro i
      rw [Array.getElem?_setIfInBounds]
      split
      · next heq => rw [← heq, if_pos (Array.getElem?_eq_some_iff.mp hv).1, hv]
      · rfl
    refine ⟨v, ?_, ?_⟩
    · rwa [Stepping.tally_nil, Int.add_zero]
    · rw [hsame]
      exact .refl _
  | cons step steps ih =>
    rw [Stepping.row_cons, List.map_append, Directive.placed_append, Directive.length_map_emit]
      at hplaced
    obtain ⟨v₁, hint₁, hreach₁⟩ := reaches_step hrange step hplaced.1 hv hint
    have hlt : slot.index < m.locals.size := (Array.getElem?_eq_some_iff.mp hv).1
    have hv₁ : (m.locals.setIfInBounds slot.index v₁)[slot.index]? = some v₁ := by
      rw [Array.getElem?_setIfInBounds, if_pos rfl, if_pos hlt]
    obtain ⟨v₂, hint₂, hreach₂⟩ :=
      ih (m := { m with locals := m.locals.setIfInBounds slot.index v₁ }) hplaced.2 hv₁ hint₁
    refine ⟨v₂, ?_, ?_⟩
    · rwa [Stepping.tally_cons, ← Int.add_assoc]
    · rw [Array.setIfInBounds_setIfInBounds] at hreach₂
      rw [Stepping.row_cons, List.length_append, ← Nat.add_assoc]
      exact hreach₁.trans hreach₂

end Machine

/-! ## Emitted steps -/

namespace Directive

/-- Instructions whose operands are there are emitted, if none of them branches. -/
theorem performs_of_depthAfter {is : List Instruction} {a : Assembly} {depth : Nat}
    (hf : a.frozen = false) (his : ∀ i ∈ is, i.target? = none ∧ i.endsBlock = false)
    (hdepth : Instruction.depthAfter a.returnsValue is a.depth = some depth) :
    ∃ b, Performs (is.map .emit) a b ∧ b.depth = depth := by
  induction is generalizing a with
  | nil => exact ⟨a, performs_nil.mpr rfl, Option.some.inj hdepth⟩
  | cons i is ih =>
    obtain ⟨htarget, hends⟩ := his i (by simp)
    simp only [Instruction.depthAfter] at hdepth
    split at hdepth
    · next hpops =>
      obtain ⟨b, hb⟩ := Assembly.emit_ok hf hpops fun label ht => by rw [htarget] at ht; cases ht
      have he := Assembly.emit_eq_ok hf hb
      obtain ⟨c, hc, hcdepth⟩ := ih (he.frozen.trans hf) (fun j hj => his j (by simp [hj]))
        (by rw [he.returnsValue, he.depth, hends]; exact hdepth)
      exact ⟨c, performs_cons.mpr ⟨b, perform_emit.mpr hb, hc⟩, hcdepth⟩
    · cases hdepth

end Directive

namespace Instruction

theorem depthAfter_append (returnsValue : Bool) (is js : List Instruction) (depth : Nat) :
    depthAfter returnsValue (is ++ js) depth =
      (depthAfter returnsValue is depth).bind (depthAfter returnsValue js) := by
  induction is generalizing depth with
  | nil => rfl
  | cons i is ih =>
    simp only [List.cons_append, depthAfter]
    split
    · exact ih _
    · rfl

end Instruction

namespace Stepping

theorem straight_instructions (slot : Slot) (step : Stepping) :
    Instruction.Straight [] 0 0 (step.instructions slot) := by
  cases step with
  | up => exact Emission.straight_step (.inl rfl) slot
  | down => exact Emission.straight_step (.inr rfl) slot

theorem depthAfter_row (returnsValue : Bool) (slot : Slot) (steps : List Stepping) (depth : Nat) :
    Instruction.depthAfter returnsValue (row slot steps) depth = some depth := by
  induction steps with
  | nil => rfl
  | cons step steps ih =>
    have hstep := (straight_instructions slot step).enough returnsValue depth
    rw [Nat.add_zero] at hstep
    rw [row_cons, Instruction.depthAfter_append, hstep]
    exact ih

theorem plain_row {slot : Slot} {steps : List Stepping} {i : Instruction} (hi : i ∈ row slot steps) :
    i.target? = none ∧ i.endsBlock = false := by
  obtain ⟨step, -, hi⟩ := List.mem_flatMap.mp hi
  have hstraight := straight_instructions slot step
  refine ⟨Option.eq_none_iff_forall_ne_some.mpr fun label ht => ?_, hstraight.onward i hi⟩
  cases hstraight.mem_of_target hi ht

/-! ## The number that a local holds -/

/-- What a local of a type holds when its steps come to a number. -/
structure Reduces (type : Ty) (range : Int × Int) (n : Int) (v : Value) : Prop where
  /-- From sixteen bits on, it is the number reduced to the range of the type. -/
  wide : type ≠ .u8 → type ≠ .i8 → v.IsInt type (wrap range n)
  /-- A local of eight bits is stepped as an int32. -/
  byte : type = .u8 ∨ type = .i8 → v.IsInt type (wrap type.wordRange n)
  /-- The number is reduced to the range of the type just where the local holds a value of the type. -/
  exact_iff : v.IsInt type (wrap range n) ↔ ∃ k, v.IsInt type k ∧ range.1 ≤ k ∧ k ≤ range.2

/-- The range that steps keep to is that of the type, or the one of an int32, of which it is a part. -/
theorem steppedRange_cases {type : Ty} {range : Int × Int} (h : type.range? = some range) :
    ∃ stepped, type.steppedRange? = some stepped ∧ range.1 ≤ range.2 ∧
      range.2 - range.1 + 1 ∣ stepped.2 - stepped.1 + 1 ∧
      (type ≠ .u8 → type ≠ .i8 → stepped = range) ∧
      (type = .u8 ∨ type = .i8 → stepped = type.wordRange) := by
  cases type with
  | u8 | i8 | i16 | u16 | i32 | i64 =>
    cases h
    exact ⟨_, rfl, by decide, by decide, by simp, by simp [Ty.wordRange]⟩
  | _ => cases h

theorem reduces_of_stepped {type : Ty} {range stepped : Int × Int} {n : Int} {v : Value}
    (h : type.range? = some range) (hstepped : type.steppedRange? = some stepped)
    (hv : v.IsInt type (wrap stepped n)) : Reduces type range n v := by
  obtain ⟨_, hstepped', hle, hdvd, hwide, hbyte⟩ := steppedRange_cases h
  cases hstepped.symm.trans hstepped'
  refine ⟨fun hu hi => hwide hu hi ▸ hv, fun htype => hbyte htype ▸ hv, ?_, ?_⟩
  · exact fun hreduced => ⟨_, hreduced, wrap_mem n hle⟩
  · rintro ⟨k, hk, hmem⟩
    have heq : wrap range n = k := by
      rw [← wrap_again n hdvd, hv.unique hk, wrap_of_mem hmem]
    rwa [heq]

/-- Steps of a local one behind the other, in the code of an assembly that goes on with them. -/
structure Counts (a : Assembly) (slot : Slot) (range : Int × Int) (steps : List Stepping) : Prop where
  emitted : ∃ b, Directive.Performs ((row slot steps).map .emit) a b
  /-- A machine for the code has the local at zero, and if it is at zero in front of the steps, each of
  them leaves the number of steps so far, reduced, in the local and all else as it was. -/
  counted : ∀ {b c : Assembly} {rest : List Directive} {code : Code},
    Directive.Performs ((row slot steps).map .emit) a b → Directive.Performs rest b c →
      c.finish = .ok code → ∀ {σ : Type} (s : Setting σ), s.code = code →
        (∀ fields (world : σ),
          (Machine.start code fields world).locals[slot.index]? = some (.zero slot.type)) ∧
        ∀ m : Machine σ, m.locals[slot.index]? = some (.zero slot.type) → ∀ k, k ≤ steps.length →
          ∃ v, Machine.Reaches s (a.instructions.size, m) (row slot (steps.take k)).length
              (a.instructions.size + (row slot (steps.take k)).length,
                { m with locals := m.locals.setIfInBounds slot.index v }) ∧
            Reduces slot.type range (tally (steps.take k)) v

end Stepping

theorem isInt_zero {type : Ty} {stepped : Int × Int} (h : type.steppedRange? = some stepped) :
    (Value.zero type).IsInt type (wrap stepped 0) := by
  cases type <;> cases h <;> exact ⟨by decide, by decide⟩

theorem Directive.Performs.localType {ds : List Directive} {a b : Assembly} {index : Nat} {type : Ty}
    (hf : a.frozen = false) (h : Performs ds a b) (hl : a.locals[index]? = some type) :
    b.locals[index]? = some type := by
  refine h.keeps (P := fun c => c.locals[index]? = some type) ?_ hf hl
  intro d c c' hp hc
  cases hp with
  | emit h => exact h.locals ▸ hc
  | mark h => exact h.locals ▸ hc
  | define => exact hc
  | declare =>
    have hlt := (Array.getElem?_eq_some_iff.mp hc).1
    rw [Array.getElem?_push_lt hlt, ← Array.getElem?_eq_getElem hlt, hc]

/-- A local of an integer type counts the steps up and down, reduced to the range of its type; one of
eight bits as long as it holds a value of its type. -/
theorem stepped_local_counts {returnsValue : Bool} {encoding : Encoding} {a : Assembly} {slot : Slot}
    {range : Int × Int} (hmade : Assembly.Made returnsValue encoding a)
    (hdeclared : a.locals[slot.index]? = some slot.type) (hrange : slot.type.range? = some range)
    (steps : List Stepping) : Stepping.Counts a slot range steps := by
  have hf := hmade.grounded.2
  constructor
  case emitted =>
    obtain ⟨b, hb, -⟩ := Directive.performs_of_depthAfter hf (fun i hi => Stepping.plain_row hi)
      (Stepping.depthAfter_row a.returnsValue slot steps a.depth)
    exact ⟨b, hb⟩
  case counted =>
    intro b c rest code hsteps hrest hfinish σ s hs
    subst hs
    have hwhole := Directive.performs_append.mpr ⟨b, hsteps, hrest⟩
    constructor
    · intro fields world
      obtain ⟨-, -, -, hlocals, -⟩ := Assembly.finish_eq_ok hfinish
      have hkept := hwhole.localType hf hdeclared
      simp only [Machine.start, Array.getElem?_map, hlocals, hkept, Option.map_some]
    · intro m hm k _
      obtain ⟨stepped, hstepped, -⟩ := Stepping.steppedRange_cases hrange
      have hplaced := hwhole.placed hf hfinish
      rw [← List.take_append_drop k steps, Stepping.row_append, List.map_append, List.append_assoc,
        Directive.placed_append] at hplaced
      obtain ⟨v, hint, hreach⟩ :=
        Machine.reaches_row hstepped (steps.take k) hplaced.1 hm (isInt_zero hstepped)
      rw [Int.zero_add] at hint
      exact ⟨v, hreach, Stepping.reduces_of_stepped hrange hstepped hint⟩

/-- A local of sixteen bits that is stepped over the ends of its range. -/
def turningLocal : Assembly where
  locals := #[.u16]
  returnsValue := true

theorem turningLocal_counts :
    Stepping.Counts turningLocal ⟨0, .u16⟩ (0, 65535) [.down, .up, .up] ∧
      wrap (0, 65535) (Stepping.tally [.down]) = 65535 ∧
      wrap (0, 65535) (Stepping.tally [.down, .up]) = 0 := by
  have hdeclare : Directive.Performs [.declare .u16] { returnsValue := true } turningLocal := by
    decide +kernel
  exact ⟨stepped_local_counts (.performs .start hdeclare) rfl rfl _, by decide, by decide⟩

/-- A local of eight bits is stepped down from zero and returned. -/
def stepsBelowZero : List Directive :=
  .declare .u8 :: (Stepping.row ⟨0, .u8⟩ [.down]).map .emit ++ [.emit (.loadLocal 0), .emit .ret]

def stepsBelowZeroAssembly : Assembly where
  instructions := #[.loadLocal 0, .loadSmall 1, .sub, .storeLocal 0, .loadLocal 0, .ret]
  locals := #[.u8]
  maxDepth := 2
  reachable := false
  returnsValue := true

def stepsBelowZeroCode : Code := stepsBelowZeroAssembly.codeWith stepsBelowZeroAssembly.instructions

/-- The local then holds -1, which is no value of its type: the one that it should hold is 255. -/
theorem byte_local_leaves_its_range :
    (Directive.Performs stepsBelowZero { returnsValue := true } stepsBelowZeroAssembly ∧
      stepsBelowZeroAssembly.finish = .ok stepsBelowZeroCode) ∧
    (Machine.run ({ code := stepsBelowZeroCode, host := {}, args := #[] } : Setting Unit) 10
        (Machine.start stepsBelowZeroCode #[] ())).any (fun (ending, m) =>
      ending.toOption = some (some (.int32 (-1))) ∧ m.locals[0]? = some (.int32 (-1))) ∧
    wrap (0, 255) (Stepping.tally [.down]) = 255 ∧ ¬ (Value.int32 (-1)).IsInt .u8 255 := by
  refine ⟨⟨by decide +kernel, rfl⟩, by decide +kernel, by decide, ?_⟩
  rintro ⟨-, h⟩
  exact absurd h (by decide)

end GuardCode
