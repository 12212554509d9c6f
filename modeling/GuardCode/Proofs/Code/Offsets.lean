import GuardCode.Proofs.Code.Forms

/-! Where instructions come to lie. The offset of an instruction is the size of all in front of it, so
a branch that is made long moves two places of the code apart if it lies between them and never moves
them closer. -/
namespace GuardCode

/-- The bytes that instructions take one behind the other. -/
def bytes : List Instruction → Nat
  | [] => 0
  | i :: is => i.size + bytes is

@[simp] theorem bytes_nil : bytes [] = 0 := rfl

@[simp] theorem bytes_cons (i : Instruction) (is : List Instruction) :
    bytes (i :: is) = i.size + bytes is := rfl

@[simp] theorem bytes_append (is js : List Instruction) : bytes (is ++ js) = bytes is + bytes js := by
  induction is with
  | nil => simp
  | cons i is ih => simp [ih, Nat.add_assoc]

/-- The bytes in front of an instruction; at the end of the code, the bytes of it all. -/
def byteOffset (is : Array Instruction) (position : Nat) : Nat :=
  bytes (is.toList.take position)

section

variable {is js : Array Instruction} {i : Instruction} {position : Nat}

theorem byteOffset_succ (h : is[position]? = some i) :
    byteOffset is (position + 1) = byteOffset is position + i.size := by
  have hi : is.toList[position]? = some i := by simpa using h
  simp [byteOffset, List.take_add_one, hi]

theorem byteOffset_mono (is : Array Instruction) {first last : Nat} (h : first ≤ last) :
    byteOffset is first ≤ byteOffset is last := by
  obtain ⟨between, rfl⟩ := Nat.exists_eq_add_of_le h
  simp [byteOffset, List.take_add]

theorem byteOffset_size (is : Array Instruction) :
    byteOffset is is.size = bytes is.toList := by
  rw [byteOffset, ← Array.length_toList, List.take_length]

/-- Behind the instructions of a list, the offsets are those of before and the new ones. -/
private theorem foldl_offsets (is : List Instruction) (offsets : Array Nat) (offset : Nat) :
    is.foldl (fun (offsets, offset) i => (offsets.push offset, offset + i.size))
        (offsets, offset) =
      (offsets ++ ((List.range is.length).map fun position =>
          offset + bytes (is.take position)).toArray,
        offset + bytes is) := by
  induction is generalizing offsets offset with
  | nil => simp
  | cons i is ih =>
    rw [List.foldl_cons, ih]
    refine Prod.ext ?_ (by simp [Nat.add_assoc])
    apply Array.toList_inj.mp
    simp [List.range_succ_eq_map, Function.comp_def, Nat.add_assoc]

/-- The list of offsets has the offset of each instruction and of the end. -/
theorem byteOffsets_getD (h : position ≤ is.size) :
    (byteOffsets is).getD position 0 = byteOffset is position := by
  have hfold := foldl_offsets is.toList #[] 0
  rw [Array.foldl_toList] at hfold
  simp only [byteOffsets, hfold, Array.getD_eq_getD_getElem?]
  rcases Nat.lt_or_eq_of_le h with hlt | rfl
  · rw [Array.getElem?_push_lt (by simpa using hlt)]
    simp [byteOffset]
  · have hsize : (#[] ++ ((List.range is.toList.length).map fun position =>
        0 + bytes (is.toList.take position)).toArray).size = is.size := by
      simp
    rw [byteOffset_size, ← hsize, Array.getElem?_push_size]
    simp

theorem Code.size_eq (code : Code) :
    code.size = byteOffset code.instructions code.instructions.size := by
  have hsum : ∀ (is : List Instruction) (total : Nat),
      is.foldl (fun total i => total + i.size) total = total + bytes is := by
    intro is
    induction is with
    | nil => simp
    | cons i is ih => simp [ih, Nat.add_assoc]
  rw [Code.size, ← Array.foldl_toList, hsum, byteOffset_size, Nat.zero_add]

end

namespace Relaxation

variable {is js ks : Array Instruction} {i j : Instruction} {position : Nat}

theorem AllAlike.symm (h : AllAlike is js) : AllAlike js is := by
  refine ⟨h.1.symm, fun position i hi => ?_⟩
  have hlt : position < js.size := by
    rw [h.1]
    exact (Array.getElem?_eq_some_iff.mp hi).1
  obtain ⟨i', hi', halike⟩ := h.2 position _ (Array.getElem?_eq_getElem hlt)
  rw [hi] at hi'
  cases hi'
  exact ⟨_, Array.getElem?_eq_getElem hlt, Eq.symm halike⟩

/-- The second differs from the first only in branches that became long. -/
structure Grows (is js : Array Instruction) : Prop where
  alike : AllAlike is js
  long : ∀ (position : Nat) (op : BranchOp) (label : Label),
    is[position]? = some (.branch op label .long) →
      js[position]? = some (.branch op label .long)

theorem Grows.refl (is : Array Instruction) : Grows is is := ⟨.refl is, fun _ _ _ h => h⟩

/-- An instruction that grows is a short branch that becomes long, by three bytes. -/
theorem Grows.cases_eq (h : Grows is js) (hi : is[position]? = some i)
    (hj : js[position]? = some j) :
    j = i ∨ ∃ op label, i = .branch op label .short ∧ j = .branch op label .long := by
  obtain ⟨i', hi', halike⟩ := h.alike.2 position j hj
  rw [hi] at hi'
  cases hi'
  obtain rfl | ⟨op, label, f, g, rfl, rfl⟩ := halike.cases_eq
  · exact .inl rfl
  · cases g with
    | long =>
      rw [h.long position op label hi] at hj
      exact .inl (Option.some.inj hj).symm
    | short =>
      cases f with
      | short => exact .inl rfl
      | long => exact .inr ⟨op, label, rfl, rfl⟩

theorem Grows.get (h : Grows is js) (hlt : position < is.size) :
    ∃ i j, is[position]? = some i ∧ js[position]? = some j ∧
      (j.size = i.size ∨ j.size = i.size + 3) := by
  have hlt' : position < js.size := by rw [h.alike.1]; exact hlt
  refine ⟨_, _, Array.getElem?_eq_getElem hlt, Array.getElem?_eq_getElem hlt', ?_⟩
  obtain heq | ⟨op, label, hi, hj⟩ :=
    h.cases_eq (Array.getElem?_eq_getElem hlt) (Array.getElem?_eq_getElem hlt')
  · exact .inl (by rw [heq])
  · exact .inr (by rw [hi, hj]; rfl)

/-- Two places of the code only move apart. -/
theorem Grows.apart (h : Grows is js) {first last : Nat} (hle : first ≤ last)
    (hlast : last ≤ is.size) :
    byteOffset is last + byteOffset js first ≤ byteOffset js last + byteOffset is first := by
  obtain ⟨between, rfl⟩ := Nat.exists_eq_add_of_le hle
  clear hle
  induction between with
  | zero => exact Nat.le_of_eq (Nat.add_comm _ _)
  | succ between ih =>
    have hlt : first + between < is.size := by omega
    obtain ⟨i, j, hi, hj, hsize⟩ := h.get hlt
    rw [← Nat.add_assoc, byteOffset_succ hi, byteOffset_succ hj]
    have := ih (by omega)
    omega

/-- The code only gets larger. -/
theorem Grows.byteOffset_le (h : Grows is js) :
    byteOffset is is.size ≤ byteOffset js js.size := by
  have := h.apart (Nat.zero_le is.size) (Nat.le_refl _)
  simpa [byteOffset, h.alike.1] using this

/-- With a branch that became long, it gets larger by three bytes at least. -/
theorem Grows.byteOffset_lt (h : Grows is js) {op : BranchOp} {label : Label}
    (hi : is[position]? = some (.branch op label .short))
    (hj : js[position]? = some (.branch op label .long)) :
    byteOffset is is.size + 3 ≤ byteOffset js js.size := by
  have hlt : position < is.size := (Array.getElem?_eq_some_iff.mp hi).1
  have hfront := h.apart (Nat.zero_le position) (Nat.le_of_lt hlt)
  have hbehind := h.apart hlt (Nat.le_refl _)
  rw [byteOffset_succ hi, byteOffset_succ hj] at hbehind
  rw [h.alike.1]
  simp only [byteOffset, List.take_zero, bytes_nil, Instruction.size] at hfront hbehind ⊢
  omega

/-- Alike instructions are the same with all branches long. -/
theorem AllAlike.map_lengthen (h : AllAlike is js) : js.map lengthen = is.map lengthen := by
  apply Array.ext (by simp [h.1])
  intro position hlt' hlt
  simp only [Array.size_map] at hlt' hlt
  obtain ⟨i, hi, halike⟩ := h.2 position _ (Array.getElem?_eq_getElem hlt')
  rw [Array.getElem?_eq_getElem hlt] at hi
  cases hi
  rw [Array.getElem_map, Array.getElem_map]
  exact halike

theorem grows_lengthen (is : Array Instruction) : Grows is (is.map lengthen) := by
  refine ⟨⟨by simp, fun position j hj => ?_⟩, fun position op label hi => by simp [hi, lengthen]⟩
  rw [Array.getElem?_map, Option.map_eq_some_iff] at hj
  obtain ⟨i, hi, rfl⟩ := hj
  exact ⟨i, hi, .lengthen i⟩

/-- Long branches make the code larger by three bytes an instruction at most. -/
theorem byteOffset_lengthen_le (is : Array Instruction) :
    byteOffset (is.map lengthen) (is.map lengthen).size ≤ byteOffset is is.size + 3 * is.size := by
  suffices h : ∀ last, last ≤ is.size →
      byteOffset (is.map lengthen) last ≤ byteOffset is last + 3 * last by
    simpa using h is.size (Nat.le_refl _)
  intro last hlast
  induction last with
  | zero => simp [byteOffset]
  | succ last ih =>
    obtain ⟨i, j, hi, hj, hsize⟩ := (grows_lengthen is).get hlast
    rw [byteOffset_succ hi, byteOffset_succ hj]
    have := ih (by omega)
    omega

end Relaxation

end GuardCode
