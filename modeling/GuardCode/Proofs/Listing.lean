import GuardCode.Code.Listing
import GuardCode.Proofs.Relaxation
import GuardCode.Proofs.Text.Lines

/-! The listing of a finished body. Behind its header stand a line for each instruction, with the
bytes in front of it, and a line for each label that some branch goes to. The lines are in strictly
increasing order if a label counts as standing just before its target, so each label has one line,
between the instructions in front of its target and the rest. -/
namespace GuardCode

open Text

/-! ## Lines of text -/

theorem labelText_inj {l m : Label} (h : labelText l = labelText m) : l = m := by
  have hdigits : Nat.toDigits 10 l = Nat.toDigits 10 m := by
    rw [labelText, labelText, String.append_right_inj, Nat.toString_eq_repr, Nat.toString_eq_repr] at h
    rw [← Nat.toList_repr, ← Nat.toList_repr, h]
  have hread := readNat?_toDigits l
  rw [hdigits, readNat?_toDigits] at hread
  exact (Option.some.inj hread).symm

theorem onOneLine_labelText (label : Label) : OnOneLine (labelText label) :=
  onOneLine_append.mpr ⟨by decide, onOneLine_nat label⟩

namespace Instruction

variable {i : Instruction}

/-- The name of a field or method that the text of an instruction shows. -/
def name? : Instruction → Option String
  | loadField field | storeField field => some field.name
  | call method => some method.name
  | _ => none

theorem onOneLine_slotText {mnemonic : String} (h : OnOneLine mnemonic) (index : Nat) :
    OnOneLine (slotText mnemonic index) := by
  have hindex := onOneLine_nat index
  unfold slotText
  split
  · simp only [onOneLine_append]
    exact ⟨⟨h, by decide⟩, hindex⟩
  · split
    · simp only [onOneLine_append]
      exact ⟨⟨h, by decide⟩, hindex⟩
    · simp only [onOneLine_append]
      exact ⟨⟨h, by decide⟩, hindex⟩

theorem onOneLine_mnemonic (op : BranchOp) : OnOneLine op.mnemonic := by
  cases op <;> decide

theorem onOneLine_text (h : ∀ name, i.name? = some name → OnOneLine name) : OnOneLine i.text := by
  cases i with
  | loadSmall value => exact onOneLine_append.mpr ⟨by decide, onOneLine_nat _⟩
  | loadInt value => exact onOneLine_append.mpr ⟨by decide, onOneLine_int _⟩
  | loadLong value => exact onOneLine_append.mpr ⟨by decide, onOneLine_int _⟩
  | loadSingle value => exact onOneLine_append.mpr ⟨by decide, Binary.onOneLine_text _⟩
  | loadDouble value => exact onOneLine_append.mpr ⟨by decide, Binary.onOneLine_text _⟩
  | loadString value => exact onOneLine_append.mpr ⟨by decide, onOneLine_quoted _⟩
  | loadArg index => exact onOneLine_slotText (by decide) index
  | loadLocal index => exact onOneLine_slotText (by decide) index
  | storeLocal index => exact onOneLine_slotText (by decide) index
  | loadField field => exact onOneLine_append.mpr ⟨by decide, h _ rfl⟩
  | storeField field => exact onOneLine_append.mpr ⟨by decide, h _ rfl⟩
  | call method => exact onOneLine_append.mpr ⟨by decide, h _ rfl⟩
  | branch op label form =>
    have hop := onOneLine_mnemonic op
    have hlabel := onOneLine_labelText label
    cases form <;> exact onOneLine_append.mpr ⟨onOneLine_append.mpr ⟨hop, by decide⟩, hlabel⟩
  | _ => decide

end Instruction

theorem Ty.onOneLine_name {type : Ty}
    (h : ∀ name equality?, type = .named name equality? → OnOneLine name) : OnOneLine type.name := by
  cases type with
  | named name equality? => exact h name equality? rfl
  | _ => decide

/-! ## Labels in order -/

/-- Numbers in order are in strict order when each is kept once. -/
theorem eraseDups_increasing (ns : List Nat) (h : ns.Pairwise (· ≤ ·)) :
    ns.eraseDups.Pairwise (· < ·) := by
  cases ns with
  | nil => exact .nil
  | cons n ns =>
    obtain ⟨hfirst, hrest⟩ := List.pairwise_cons.mp h
    rw [List.eraseDups_cons]
    apply List.pairwise_cons.mpr
    constructor
    · intro m hm
      obtain ⟨hmem, hne⟩ := List.mem_filter.mp (List.mem_eraseDups.mp hm)
      have hle := hfirst m hmem
      simp only [Bool.not_eq_true', beq_eq_false_iff_ne] at hne
      omega
    · exact eraseDups_increasing _ (hrest.filter _)
termination_by ns.length
decreasing_by
  have := List.length_filter_le (fun m => !m == n) ns
  simp_all only [List.length_cons]
  omega

namespace Code

variable {code : Code} {label : Label}

/-- Some branch of the code goes to a label. -/
def Branched (code : Code) (label : Label) : Prop :=
  ∃ i ∈ code.instructions, i.target? = some label

theorem mem_targeted : label ∈ code.targeted ↔ code.Branched label := by
  simp [targeted, Branched, List.mem_filterMap]

theorem mergeSort_increasing (ns : List Nat) : (ns.mergeSort (· ≤ ·)).Pairwise (· ≤ ·) := by
  have hsorted : (ns.mergeSort (· ≤ ·)).Pairwise fun a b => decide (a ≤ b) = true := by
    apply List.pairwise_mergeSort
    · intro a b c hab hbc
      have hab := of_decide_eq_true hab
      have hbc := of_decide_eq_true hbc
      exact decide_eq_true (Nat.le_trans hab hbc)
    · intro a b
      simp only [Bool.or_eq_true, decide_eq_true_eq]
      omega
  exact hsorted.imp fun hle => of_decide_eq_true hle

theorem targeted_increasing (code : Code) : code.targeted.Pairwise (· < ·) :=
  eraseDups_increasing _ (mergeSort_increasing _)

/-! ## Entries -/

/-- What a line behind the header of a listing stands for. -/
inductive Entry where
  | label (label : Label)
  | instruction (position : Nat)
  deriving DecidableEq

namespace Entry

def position? : Entry → Option Nat
  | .label _ => none
  | .instruction position => some position

/-- The order of entries: by position, a label before the instruction at its target, and labels at
one position by their numbers. -/
def Before (code : Code) : Entry → Entry → Prop
  | .instruction p, .instruction q => p < q
  | .instruction p, .label m => p < code.target m
  | .label l, .instruction q => code.target l ≤ q
  | .label l, .label m => code.target l < code.target m ∨ code.target l = code.target m ∧ l < m

end Entry

/-- The labels that stand at a position. -/
def labelsAt (code : Code) (labels : List Label) (position : Nat) : List Label :=
  labels.filter fun label => code.target label == position

/-- The entries for some instructions from a position on. -/
def entriesFrom (code : Code) (labels : List Label) : List Instruction → Nat → List Entry
  | [], position => (code.labelsAt labels position).map .label
  | _ :: is, position =>
    (code.labelsAt labels position).map .label ++
      .instruction position :: entriesFrom code labels is (position + 1)

/-- The line of an entry. -/
def entryLine (code : Code) : Entry → String
  | .label label => "  " ++ labelText label ++ ":"
  | .instruction position =>
    "    IL_" ++ padded 16 4 (byteOffset code.instructions position) ++ "  " ++
      (code.instructions.getD position .nop).text

/-- The lines in front of the entries. -/
def header (code : Code) : List String :=
  ["Code \x7b",
    "  locals: [" ++ String.intercalate ", " (code.locals.toList.map Ty.name) ++ "]",
    "  max_stack_size: " ++ toString code.maxStack,
    "  instructions:"]

section

variable {labels : List Label} {is : List Instruction} {position q : Nat}

theorem mem_labelsAt :
    label ∈ code.labelsAt labels position ↔ label ∈ labels ∧ code.target label = position := by
  simp [labelsAt]

theorem label_mem_entriesFrom :
    .label label ∈ code.entriesFrom labels is position ↔
      label ∈ labels ∧ position ≤ code.target label ∧
        code.target label ≤ position + is.length := by
  induction is generalizing position with
  | nil =>
    simp only [entriesFrom, List.mem_map, mem_labelsAt, Entry.label.injEq, exists_eq_right,
      List.length_nil]
    exact and_congr_right fun _ => by omega
  | cons i is ih =>
    simp only [entriesFrom, List.mem_append, List.mem_map, mem_labelsAt, Entry.label.injEq,
      exists_eq_right, List.mem_cons, reduceCtorEq, false_or, ih, List.length_cons]
    rw [← and_or_left]
    exact and_congr_right fun _ => by omega

theorem instruction_mem_entriesFrom :
    .instruction q ∈ code.entriesFrom labels is position ↔
      position ≤ q ∧ q < position + is.length := by
  induction is generalizing position with
  | nil =>
    simp only [entriesFrom, List.mem_map, reduceCtorEq, and_false, exists_false, List.length_nil,
      false_iff]
    omega
  | cons i is ih =>
    simp only [entriesFrom, List.mem_append, List.mem_map, reduceCtorEq, and_false, exists_false,
      List.mem_cons, Entry.instruction.injEq, false_or, ih, List.length_cons]
    omega

/-- The instructions come one after the other. -/
theorem positions_entriesFrom :
    (code.entriesFrom labels is position).filterMap Entry.position? =
      List.range' position is.length := by
  have hlabels : ∀ position,
      ((code.labelsAt labels position).map Entry.label).filterMap Entry.position? = [] := by
    intro position
    simp [List.filterMap_map, Function.comp_def, Entry.position?]
  induction is generalizing position with
  | nil => exact hlabels position
  | cons i is ih =>
    rw [entriesFrom, List.filterMap_append, hlabels, List.nil_append]
    simp only [List.filterMap_cons, Entry.position?, ih, List.length_cons, List.range'_succ]

theorem labelsAt_increasing (hlabels : labels.Pairwise (· < ·)) :
    ((code.labelsAt labels position).map Entry.label).Pairwise (Entry.Before code) := by
  rw [List.pairwise_map]
  apply (hlabels.filter _).imp_of_mem
  intro l m hl hm hlt
  have hl := (mem_labelsAt.mp hl).2
  have hm := (mem_labelsAt.mp hm).2
  exact .inr ⟨hl.trans hm.symm, hlt⟩

/-- Every entry comes before those behind it. -/
theorem entriesFrom_increasing (hlabels : labels.Pairwise (· < ·)) :
    (code.entriesFrom labels is position).Pairwise (Entry.Before code) := by
  induction is generalizing position with
  | nil => exact labelsAt_increasing hlabels
  | cons i is ih =>
    have hbehind : ∀ e ∈ code.entriesFrom labels is (position + 1),
        Entry.Before code (.instruction position) e ∧
          ∀ l, code.target l = position → Entry.Before code (.label l) e := by
      intro e he
      cases e with
      | label m =>
        have hm := (label_mem_entriesFrom.mp he).2.1
        refine ⟨hm, fun l hl => .inl ?_⟩
        omega
      | instruction q =>
        have hq := (instruction_mem_entriesFrom.mp he).1
        refine ⟨hq, fun l hl => ?_⟩
        show code.target l ≤ q
        omega
    rw [entriesFrom, List.pairwise_append, List.pairwise_cons]
    refine ⟨labelsAt_increasing hlabels, ⟨fun e he => (hbehind e he).1, ih⟩, ?_⟩
    intro e he e' he'
    obtain ⟨l, hl, rfl⟩ := List.mem_map.mp he
    have htarget := (mem_labelsAt.mp hl).2
    rcases List.mem_cons.mp he' with rfl | he'
    · exact Nat.le_of_eq htarget
    · exact (hbehind e' he').2 l htarget

/-- The lines of a listing are those of its entries. -/
theorem linesFrom_eq (front : List Instruction) (his : code.instructions.toList = front ++ is) :
    code.linesFrom labels is front.length (bytes front) =
      (code.entriesFrom labels is front.length).map fun e => code.entryLine e ++ "\n" := by
  have hlabels : ∀ position, code.labelLines labels position =
      ((code.labelsAt labels position).map Entry.label).map fun e => code.entryLine e ++ "\n" := by
    intro position
    simp [labelLines, labelsAt, entryLine, Function.comp_def, String.append_assoc]
  induction is generalizing front with
  | nil => exact hlabels _
  | cons i is ih =>
    have hoffset : byteOffset code.instructions front.length = bytes front := by
      simp [byteOffset, his]
    have hi : code.instructions.getD front.length .nop = i := by
      rw [Array.getD_eq_getD_getElem?, ← Array.getElem?_toList, his]
      simp
    have hrest := ih (front ++ [i]) (by rw [his]; simp)
    simp only [List.length_append, List.length_cons, List.length_nil, bytes_append, bytes_cons,
      bytes_nil, Nat.add_zero, Nat.zero_add] at hrest
    rw [linesFrom, entriesFrom, hlabels, hrest, List.map_append, List.map_cons]
    simp [entryLine, instructionLine, hoffset, hi, String.append_assoc]

end

/-- The entries of the listing of a code. -/
def entries (code : Code) : List Entry :=
  code.entriesFrom code.targeted code.instructions.toList 0

theorem listing_eq (code : Code) :
    code.listing =
      String.join ((code.header ++ code.entries.map code.entryLine).map (· ++ "\n")) ++ "\x7d" := by
  have hlines : code.linesFrom code.targeted code.instructions.toList 0 0 =
      code.entries.map fun e => code.entryLine e ++ "\n" := linesFrom_eq [] (List.nil_append _).symm
  unfold listing
  rw [hlines, header, ← String.toList_inj]
  simp [String.join_cons, Function.comp_def]

/-- No name that the listing of a code shows has a line break in it. -/
structure NamesOnOneLine (code : Code) : Prop where
  fields : ∀ field, .loadField field ∈ code.instructions ∨ .storeField field ∈ code.instructions →
    OnOneLine field.name
  methods : ∀ method, .call method ∈ code.instructions → OnOneLine method.name
  classes : ∀ name equality?, .named name equality? ∈ code.locals → OnOneLine name

theorem onOneLine_header (h : code.NamesOnOneLine) : ∀ line ∈ code.header, OnOneLine line := by
  have hlocals : OnOneLine (String.intercalate ", " (code.locals.toList.map Ty.name)) := by
    apply onOneLine_intercalate (by decide)
    intro part hpart
    obtain ⟨type, htype, rfl⟩ := List.mem_map.mp hpart
    apply Ty.onOneLine_name
    rintro name equality? rfl
    exact h.classes name equality? (Array.mem_toList_iff.mp htype)
  intro line hline
  simp only [header, List.mem_cons, List.not_mem_nil, or_false] at hline
  obtain rfl | rfl | rfl | rfl := hline
  · decide
  · exact onOneLine_append.mpr ⟨onOneLine_append.mpr ⟨by decide, hlocals⟩, by decide⟩
  · exact onOneLine_append.mpr ⟨by decide, onOneLine_nat _⟩
  · decide

theorem onOneLine_entryLine (h : code.NamesOnOneLine) (e : Entry) :
    OnOneLine (code.entryLine e) := by
  cases e with
  | label label =>
    exact onOneLine_append.mpr
      ⟨onOneLine_append.mpr ⟨by decide, onOneLine_labelText label⟩, by decide⟩
  | instruction position =>
    have hoffset : OnOneLine (padded 16 4 (byteOffset code.instructions position)) :=
      onOneLine_padded (by decide) (by decide) 4 _
    have htext : OnOneLine (code.instructions.getD position .nop).text := by
      rw [Array.getD_eq_getD_getElem?]
      cases hi : code.instructions[position]? with
      | none => decide
      | some i =>
        have hmem := Array.mem_of_getElem? hi
        apply Instruction.onOneLine_text
        intro name hname
        cases i with
        | loadField field =>
          cases hname
          exact h.fields field (.inl hmem)
        | storeField field =>
          cases hname
          exact h.fields field (.inr hmem)
        | call method =>
          cases hname
          exact h.methods method hmem
        | _ => cases hname
    simp only [entryLine, onOneLine_append]
    exact ⟨⟨⟨by decide, hoffset⟩, by decide⟩, htext⟩

/-- The line of a label is that of no other entry: the lines of instructions are indented further. -/
theorem entryLine_eq_label_iff {e : Entry} :
    code.entryLine e = code.entryLine (.label label) ↔ e = .label label := by
  refine ⟨fun h => ?_, fun h => by rw [h]⟩
  cases e with
  | label other =>
    simp only [entryLine, String.append_left_inj, String.append_right_inj] at h
    rw [labelText_inj h]
  | instruction position =>
    have hchars := congrArg String.toList h
    simp [entryLine, labelText] at hchars

/-- The labels of branches stand in the code or at its end. -/
def Reaching (code : Code) : Prop :=
  ∀ label, code.Branched label →
    code.labels[label]? = some (code.target label) ∧ code.target label ≤ code.instructions.size

/-- The entries behind the header of a code's listing: which there are, in which order they stand,
and what their lines show. -/
structure Lists (code : Code) (entries : List Entry) : Prop where
  /-- The listing is the header, the lines of the entries and a closing brace. -/
  lines : code.listing.toList.splitOn '\n' =
    (code.header ++ entries.map code.entryLine ++ ["\x7d"]).map String.toList
  /-- Every instruction has one line, in order. -/
  instructions : entries.filterMap Entry.position? = List.range code.instructions.size
  /-- The line of an instruction shows the bytes in front of it and its text. -/
  offsets : ∀ (position : Nat) (i : Instruction), code.instructions[position]? = some i →
    ∃ digits, IsHex 4 (byteOffset code.instructions position) digits ∧
      code.entryLine (.instruction position) =
        "    IL_" ++ String.ofList digits ++ "  " ++ i.text
  /-- The line of a label shows its name, which is an L and the number in decimal digits. -/
  names : ∀ label : Label, code.entryLine (.label label) = "  L" ++ toString label ++ ":"
  /-- A label has a line if a branch goes to it, and only then. -/
  branched : ∀ label, .label label ∈ entries ↔ code.Branched label
  once : ∀ label, code.Branched label → entries.count (.label label) = 1
  /-- No other line shows the name of the label: of the lines themselves, one is its line if a branch
  goes to it, and none otherwise. -/
  lineBranched : ∀ label, code.entryLine (.label label) ∈ entries.map code.entryLine ↔
    code.Branched label
  lineOnce : ∀ label, code.Branched label →
    (entries.map code.entryLine).count (code.entryLine (.label label)) = 1
  /-- In front of a label stand the instructions in front of its target, behind it all others. -/
  placed : ∀ (label : Label) (front behind : List Entry),
    entries = front ++ .label label :: behind →
      front.filterMap Entry.position? = List.range (code.target label) ∧
        behind.filterMap Entry.position? =
          List.range' (code.target label) (code.instructions.size - code.target label)
  /-- Labels at one position are in increasing order. -/
  ordered : ∀ l m : Label, [.label l, .label m].Sublist entries →
    code.target l = code.target m → l < m

/-- A list whose front is below a bound and whose rest is not is cut by the bound. -/
theorem filter_below {front behind : List Nat} {target : Nat} (hfront : ∀ n ∈ front, n < target)
    (hbehind : ∀ n ∈ behind, target ≤ n) : (front ++ behind).filter (· < target) = front := by
  have hkept : front.filter (· < target) = front := by
    apply List.filter_eq_self.mpr
    intro n hn
    exact decide_eq_true (hfront n hn)
  have hdropped : behind.filter (· < target) = [] := by
    apply List.filter_eq_nil_iff.mpr
    intro n hn hlt
    have hle := hbehind n hn
    have hlt := of_decide_eq_true hlt
    omega
  rw [List.filter_append, hkept, hdropped, List.append_nil]

theorem cut_range {front behind : List Nat} {size target : Nat}
    (h : front ++ behind = List.range size) (hle : target ≤ size)
    (hfront : ∀ n ∈ front, n < target) (hbehind : ∀ n ∈ behind, target ≤ n) :
    front = List.range target ∧ behind = List.range' target (size - target) := by
  have hcut : List.range size = List.range target ++ List.range' target (size - target) := by
    have happend := List.range'_append_1 (s := 0) (m := target) (n := size - target)
    rw [Nat.zero_add, Nat.add_sub_cancel' hle] at happend
    rw [List.range_eq_range', List.range_eq_range', happend]
  have hbelow : front = List.range target := by
    rw [← filter_below hfront hbehind, h, hcut]
    apply filter_below
    · intro n hn
      exact List.mem_range.mp hn
    · intro n hn
      exact (List.mem_range'_1.mp hn).1
  rw [hcut, hbelow] at h
  exact ⟨hbelow, List.append_cancel_left h⟩

theorem mem_entries_iff (h : code.Reaching) : .label label ∈ code.entries ↔ code.Branched label := by
  rw [entries, label_mem_entriesFrom, mem_targeted]
  refine ⟨fun hmem => hmem.1, fun hbranched => ⟨hbranched, Nat.zero_le _, ?_⟩⟩
  have := (h label hbranched).2
  simpa using this

theorem entries_increasing (code : Code) : code.entries.Pairwise (Entry.Before code) :=
  entriesFrom_increasing code.targeted_increasing

theorem positions_entries (code : Code) :
    code.entries.filterMap Entry.position? = List.range code.instructions.size := by
  rw [entries, positions_entriesFrom, List.range_eq_range', Array.length_toList]

theorem entries_nodup (code : Code) : code.entries.Nodup := by
  apply code.entries_increasing.imp
  rintro e e' hbefore rfl
  cases e with
  | label l =>
    rcases hbefore with hlt | ⟨-, hlt⟩
    · exact Nat.lt_irrefl _ hlt
    · exact Nat.lt_irrefl _ hlt
  | instruction q => exact Nat.lt_irrefl _ hbefore

theorem count_entries (h : code.Reaching) (hbranched : code.Branched label) :
    code.entries.count (.label label) = 1 := by
  rw [code.entries_nodup.count, if_pos ((mem_entries_iff h).mpr hbranched)]

theorem label_mem_lines_iff {entries : List Entry} :
    code.entryLine (.label label) ∈ entries.map code.entryLine ↔ .label label ∈ entries := by
  simp only [List.mem_map, entryLine_eq_label_iff, exists_eq_right]

theorem count_label_lines (entries : List Entry) :
    (entries.map code.entryLine).count (code.entryLine (.label label)) =
      entries.count (.label label) := by
  rw [List.count_eq_countP, List.countP_map, List.count_eq_countP]
  apply List.countP_congr
  intro e _
  simp only [Function.comp_apply, beq_iff_eq, entryLine_eq_label_iff]

theorem entries_placed {front behind : List Entry}
    (h : code.entries = front ++ .label label :: behind) :
    front.filterMap Entry.position? = List.range (code.target label) ∧
      behind.filterMap Entry.position? =
        List.range' (code.target label) (code.instructions.size - code.target label) := by
  have hmem : .label label ∈ code.entries := by
    rw [h]
    exact List.mem_append_right _ List.mem_cons_self
  have hle : code.target label ≤ code.instructions.size := by
    have := (label_mem_entriesFrom.mp hmem).2.2
    simpa using this
  have hpositions := code.positions_entries
  have hincreasing := code.entries_increasing
  rw [h, List.filterMap_append, List.filterMap_cons_none (by rfl)] at hpositions
  rw [h, List.pairwise_append, List.pairwise_cons] at hincreasing
  obtain ⟨-, ⟨hbehind, -⟩, hfront⟩ := hincreasing
  apply cut_range hpositions hle
  · intro n hn
    obtain ⟨e, he, hposition⟩ := List.mem_filterMap.mp hn
    cases e with
    | label m => cases hposition
    | instruction q =>
      cases hposition
      exact hfront _ he _ List.mem_cons_self
  · intro n hn
    obtain ⟨e, he, hposition⟩ := List.mem_filterMap.mp hn
    cases e with
    | label m => cases hposition
    | instruction q =>
      cases hposition
      exact hbehind _ he

end Code

/-- In a finished code the labels of branches stand in it or at its end. -/
theorem Assembly.Made.reaching {returnsValue : Bool} {encoding : Encoding} {a : Assembly}
    {code : Code} (hmade : Assembly.Made returnsValue encoding a) (hfinish : a.finish = .ok code) :
    code.Reaching := by
  obtain ⟨hbound, hrelax, hlabels, -⟩ := Assembly.finish_eq_ok hfinish
  have hgrounded :=
    (hmade.grounded.1.targets hbound).alike (Relaxation.relax_allAlike hrelax)
  rintro label ⟨i, hi, ht⟩
  obtain ⟨position, hposition⟩ := Array.getElem?_of_mem hi
  obtain ⟨target, htarget, hle⟩ := hgrounded position i label hposition ht
  have heq : code.target label = target := by
    simp [Code.target, hlabels, Array.getD_eq_getD_getElem?, htarget]
  rw [heq, hlabels]
  exact ⟨htarget, hle⟩

/-- The listing of a finished code places every label where its branches go. -/
theorem listing_places_labels {returnsValue : Bool} {encoding : Encoding} {a : Assembly}
    {code : Code} (hmade : Assembly.Made returnsValue encoding a) (hfinish : a.finish = .ok code)
    (hnames : code.NamesOnOneLine) : code.Lists code.entries := by
  have hreaching := hmade.reaching hfinish
  constructor
  case lines =>
    rw [Code.listing_eq]
    apply lines_join
    · intro line hline
      rcases List.mem_append.mp hline with hline | hline
      · exact Code.onOneLine_header hnames line hline
      · obtain ⟨e, -, rfl⟩ := List.mem_map.mp hline
        exact Code.onOneLine_entryLine hnames e
    · decide
  case instructions => exact code.positions_entries
  case offsets =>
    intro position i hi
    refine ⟨_, isHex_padded 4 (byteOffset code.instructions position), ?_⟩
    simp [Code.entryLine, Array.getD_eq_getD_getElem?, hi]
  case names =>
    intro label
    simp [Code.entryLine, labelText, ← String.append_assoc]
  case branched => exact fun label => Code.mem_entries_iff hreaching
  case once => exact fun label => Code.count_entries hreaching
  case lineBranched =>
    exact fun label => Code.label_mem_lines_iff.trans (Code.mem_entries_iff hreaching)
  case lineOnce =>
    exact fun label hbranched =>
      (Code.count_label_lines code.entries).trans (Code.count_entries hreaching hbranched)
  case placed => exact fun label front behind h => Code.entries_placed h
  case ordered =>
    intro l m hsublist heq
    rcases List.pairwise_iff_forall_sublist.mp code.entries_increasing hsublist with hlt | ⟨-, hlt⟩
    · exact absurd heq (Nat.ne_of_lt hlt)
    · exact hlt

/-- Two labels in front of the last instruction, one at the end, and one that no branch goes to. -/
def signposts : List Directive :=
  [.define, .define, .define, .define,
    .emit (.loadSmall 0), .emit (.jump .ifTrue 2),
    .emit (.loadField ⟨0, "count", .i32⟩), .emit (.jump .ifTrue 1), .emit (.jump .always 0),
    .mark 2, .mark 1, .mark 3, .emit .ret, .mark 0]

def signpostAssembly : Assembly where
  instructions := #[.loadSmall 0, .jump .ifTrue 2, .loadField ⟨0, "count", .i32⟩,
    .jump .ifTrue 1, .jump .always 0, .ret]
  labels := #[⟨some 6, some 0⟩, ⟨some 5, some 0⟩, ⟨some 5, some 0⟩, ⟨some 5, some 0⟩]
  maxDepth := 1
  returnsValue := false

theorem signposts_listed :
    ∃ code, signpostAssembly.finish = .ok code ∧ code.Lists code.entries ∧
      code.entries = [.instruction 0, .instruction 1, .instruction 2, .instruction 3,
        .instruction 4, .label 1, .label 2, .instruction 5, .label 0] := by
  have hds : Directive.Performs signposts { returnsValue := false } signpostAssembly := by
    decide +kernel
  have hmade : Assembly.Made false .auto signpostAssembly := .performs .start hds
  have hbound : signpostAssembly.Bound := Assembly.unmarked?_eq_none_iff.mp (by decide +kernel)
  have hsettled : Relaxation.settle signpostAssembly.targets signpostAssembly.instructions.size
      signpostAssembly.instructions = signpostAssembly.instructions := by decide +kernel
  have hfinish : signpostAssembly.finish =
      .ok (signpostAssembly.codeWith signpostAssembly.instructions) := by
    rw [Assembly.finish_eq hbound]
    show Except.map _ (Except.ok (Relaxation.settle _ _ _)) = _
    rw [hsettled]
    rfl
  have hsorted : [2, 1, 0].mergeSort (· ≤ ·) = [0, 1, 2] := by
    apply List.Perm.eq_of_pairwise (fun a b _ _ => Nat.le_antisymm)
      (Code.mergeSort_increasing _) (by decide)
    exact (List.mergeSort_perm _ _).trans (by decide)
  have htargeted :
      (signpostAssembly.codeWith signpostAssembly.instructions).targeted = [0, 1, 2] := by
    show ([2, 1, 0].mergeSort (· ≤ ·)).eraseDups = _
    rw [hsorted]
    rfl
  refine ⟨_, hfinish, ?_, ?_⟩
  · apply listing_places_labels hmade hfinish
    constructor
    case fields =>
      intro field hfield
      have heq : field = ⟨0, "count", .i32⟩ := by
        simpa [Assembly.codeWith, signpostAssembly, Instruction.jump] using hfield
      rw [heq]
      decide
    case methods =>
      intro method hmethod
      simp [Assembly.codeWith, signpostAssembly, Instruction.jump] at hmethod
    case classes =>
      intro name equality? hname
      simp [Assembly.codeWith, signpostAssembly] at hname
  · rw [Code.entries, htargeted]
    decide +kernel

end GuardCode
