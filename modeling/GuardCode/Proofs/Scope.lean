import GuardCode.Proofs.Grammar.Tokens
import GuardCode.Proofs.Text.ReadBack
import GuardCode.Scope

/-! Names and slot names. In a scope whose locals have numbers of their own, and in which no given
name looks like the slot name of a local, the slot name of a resolved member resolves to the same
member. -/
namespace GuardCode.Scope

/-- The scopes that can be put together; slots are numbered with 16 bits. -/
inductive Built : Scope → Prop where
  | ofArgs (args : List Ty) : Built (ofArgs args)
  | addLocal {scope : Scope} {slot : Slot} (h : Built scope) (hslot : slot.index < 65536) :
      Built (scope.addLocal slot)
  | addNamedLocal {scope : Scope} {name : String} {slot : Slot} (h : Built scope)
      (hslot : slot.index < 65536) : Built (scope.addNamedLocal name slot)
  | addField {scope : Scope} {field : Field} (h : Built scope) : Built (scope.addField field)
  | addMethod {scope : Scope} {method : Method} {returns : Ty} (h : Built scope) :
      Built (scope.addMethod method returns)

/-- No two locals have the same number, and no given name is the slot name of a local. One local
may be declared under several names. -/
structure Unclouded (scope : Scope) : Prop where
  distinct : ∀ slot ∈ scope.locals, ∀ other ∈ scope.locals, other.index = slot.index → other = slot
  noSlotName : ∀ entry ∈ scope.names, slotIndex? "loc" entry.1 = none

instance (scope : Scope) : Decidable scope.Unclouded :=
  decidable_of_iff
    ((∀ slot ∈ scope.locals, ∀ other ∈ scope.locals, other.index = slot.index → other = slot) ∧
      ∀ entry ∈ scope.names, slotIndex? "loc" entry.1 = none)
    ⟨fun h => ⟨h.1, h.2⟩, fun h => ⟨h.1, h.2⟩⟩

variable {scope : Scope} {name : String} {m : Member}

/-- A given name stands for a declared local or for the field of that name. -/
theorem Built.names (h : scope.Built) : ∀ entry ∈ scope.names,
    (∃ slot ∈ scope.locals, entry.2 = .loc slot) ∨
      ∃ field : Field, entry.2 = .field field ∧ entry.1 = field.name := by
  have hmore : ∀ {locals locals' : List Slot} {entry : String × Member},
      (∀ slot ∈ locals, slot ∈ locals') →
      ((∃ slot ∈ locals, entry.2 = .loc slot) ∨
        ∃ field : Field, entry.2 = .field field ∧ entry.1 = field.name) →
      (∃ slot ∈ locals', entry.2 = .loc slot) ∨
        ∃ field : Field, entry.2 = .field field ∧ entry.1 = field.name := by
    rintro locals locals' entry hsub (⟨slot, hslot, heq⟩ | hfield)
    · exact .inl ⟨slot, hsub slot hslot, heq⟩
    · exact .inr hfield
  induction h with
  | ofArgs => nofun
  | addLocal _ _ ih =>
    exact fun entry hentry => hmore (fun _ => List.mem_append_left _) (ih entry hentry)
  | addNamedLocal _ _ ih =>
    refine List.forall_mem_cons.mpr ⟨.inl ⟨_, List.mem_append_right _ (by simp), rfl⟩, ?_⟩
    exact fun entry hentry => hmore (fun _ => List.mem_append_left _) (ih entry hentry)
  | addField _ ih => exact List.forall_mem_cons.mpr ⟨.inr ⟨_, rfl, rfl⟩, ih⟩
  | addMethod _ ih => exact ih

theorem Built.locals (h : scope.Built) : ∀ slot ∈ scope.locals, slot.index < 65536 := by
  induction h with
  | ofArgs => nofun
  | addLocal _ hslot ih => exact List.forall_mem_append.mpr ⟨ih, by simpa using hslot⟩
  | addNamedLocal _ hslot ih => exact List.forall_mem_append.mpr ⟨ih, by simpa using hslot⟩
  | addField _ ih => exact ih
  | addMethod _ ih => exact ih

/-! Slot names. -/

theorem toList_slotName (kind : String) (n : Nat) :
    (kind ++ toString n).toList = kind.toList ++ Nat.toDigits 10 n := by
  simp

theorem slotIndex?_slotName (kind : String) {n : Nat} (hn : n < 65536) :
    slotIndex? kind (kind ++ toString n) = some n := by
  have hdrop : (kind.toList ++ Nat.toDigits 10 n).drop kind.length = Nat.toDigits 10 n := by
    rw [← String.length_toList, List.drop_left]
  simp only [slotIndex?, toList_slotName, hdrop, if_neg (Text.no_leading_zero n)]
  simp [Text.readNat?_toDigits, hn]

theorem eq_slotName {kind : String} {n : Nat} (h : slotIndex? kind name = some n) :
    name = kind ++ toString n ∧ n < 65536 := by
  simp only [slotIndex?] at h
  split at h
  · cases h
  · next hprefix =>
    split at h
    · cases h
    · next hzero =>
      obtain ⟨index, hread, h⟩ := Option.bind_eq_some_iff.mp h
      split at h
      · next hlt =>
        cases h
        refine ⟨?_, hlt⟩
        have hdigits := Text.toDigits_of_readNat? hread hzero
        have hpre : kind.toList <+: name.toList := by simpa using hprefix
        obtain ⟨digits, heq⟩ := hpre
        have hdrop : name.toList.drop kind.length = digits := by
          rw [← heq, ← String.length_toList, List.drop_left]
        rw [← String.toList_inj, toList_slotName, hdigits, hdrop, heq]
      · cases h

theorem not_slotName {kind kind' : String} (n : Nat) (hlength : kind'.length = kind.length)
    (hne : kind' ≠ kind) : slotIndex? kind (kind' ++ toString n) = none := by
  cases h : slotIndex? kind (kind' ++ toString n) with
  | none => rfl
  | some index =>
    have heq := congrArg String.toList (eq_slotName h).1
    rw [toList_slotName, toList_slotName] at heq
    have hkind := (List.append_inj heq (by rwa [String.length_toList, String.length_toList])).1
    exact absurd (String.toList_inj.mp hkind) hne

/-- A slot name is a name, and no keyword. -/
theorem isName_slotName {kind : String} (n : Nat) (hname : Token.isName kind.toList)
    (hkeywords : ∀ w ∈ Token.keywords, ¬kind.toList <+: w) :
    Token.isName (kind ++ toString n).toList ∧ (kind ++ toString n).toList ∉ Token.keywords := by
  rw [toList_slotName]
  refine ⟨?_, fun hmem => hkeywords _ hmem (List.prefix_append _ _)⟩
  have hdigits : (Nat.toDigits 10 n).all Token.isNameChar := by
    rw [List.all_eq_true]
    intro c hc
    exact Token.isNameChar_of_isDigit (List.all_eq_true.mp (Text.all_isDigit_toDigits n) c hc)
  cases hkind : kind.toList with
  | nil =>
    rw [hkind] at hname
    cases hname
  | cons c cs =>
    rw [hkind] at hname
    obtain ⟨hc, hcs⟩ := (Bool.and_eq_true _ _).mp hname
    simp only [List.cons_append, Token.isName, hc, List.all_append, hcs, hdigits, Bool.and_self]

/-! Resolution. -/

theorem find?_local (hscope : scope.Unclouded) {slot : Slot} (hslot : slot ∈ scope.locals) :
    scope.locals.find? (fun other => other.index == slot.index) = some slot := by
  cases hfind : scope.locals.find? (fun other => other.index == slot.index) with
  | none => simpa using List.find?_eq_none.mp hfind slot hslot
  | some other =>
    have hindex : other.index = slot.index := by simpa using List.find?_some hfind
    rw [hscope.distinct slot hslot other (List.mem_of_find?_eq_some hfind) hindex]

/-- What a name can resolve to. -/
theorem resolve?_cases (hbuilt : scope.Built) (h : scope.resolve? name = some m) :
    (∃ slot ∈ scope.locals, m = .loc slot) ∨ m.text = name := by
  simp only [resolve?] at h
  split at h
  · next member hlookup =>
    cases h
    obtain ⟨before, after, hnames, -⟩ := List.lookup_eq_some_iff.mp hlookup
    have hmem : (name, m) ∈ scope.names := by simp [hnames]
    rcases hbuilt.names _ hmem with ⟨slot, hslot, heq⟩ | ⟨field, heq, hname⟩
    · exact .inl ⟨slot, hslot, heq⟩
    · obtain rfl : m = .field field := heq
      exact .inr hname.symm
  · split at h
    · next index hindex =>
      obtain ⟨type, -, rfl⟩ := Option.map_eq_some_iff.mp h
      exact .inr (eq_slotName hindex).1.symm
    · split at h
      · next index hindex =>
        obtain ⟨slot, hfind, rfl⟩ := Option.map_eq_some_iff.mp h
        exact .inl ⟨slot, List.mem_of_find?_eq_some hfind, rfl⟩
      · cases h

theorem resolve?_local (hbuilt : scope.Built) (hscope : scope.Unclouded) {slot : Slot}
    (hslot : slot ∈ scope.locals) : scope.resolve? (Member.loc slot).text = some (.loc slot) := by
  have hindex := slotIndex?_slotName "loc" (hbuilt.locals slot hslot)
  have hlookup : scope.names.lookup ("loc" ++ toString slot.index) = none := by
    rw [List.lookup_eq_none_iff]
    intro entry hentry
    simp only [bne_iff_ne]
    rintro heq
    have hnone := hscope.noSlotName entry hentry
    rw [← heq, hindex] at hnone
    cases hnone
  have hargs : slotIndex? "arg" ("loc" ++ toString slot.index) = none :=
    not_slotName slot.index (by decide) (by decide)
  simp only [resolve?, Member.text, hlookup, hargs, hindex,
    find?_local hscope hslot, Option.map_some]

/-- Members are written under names that resolve to them. -/
theorem resolve?_text (hbuilt : scope.Built) (hscope : scope.Unclouded)
    (h : scope.resolve? name = some m) : scope.resolve? m.text = some m := by
  rcases resolve?_cases hbuilt h with ⟨slot, hslot, rfl⟩ | htext
  · exact resolve?_local hbuilt hscope hslot
  · rw [htext, h]

theorem isName_text (hbuilt : scope.Built) (h : scope.resolve? name = some m)
    (hname : Token.isName name.toList) (hkeyword : name.toList ∉ Token.keywords) :
    Token.isName m.text.toList ∧ m.text.toList ∉ Token.keywords := by
  rcases resolve?_cases hbuilt h with ⟨slot, -, rfl⟩ | htext
  · exact isName_slotName slot.index (by decide) (by decide)
  · rw [htext]
    exact ⟨hname, hkeyword⟩

theorem method?_name {method : Method} {returns : Ty}
    (h : scope.method? name = some (method, returns)) : method.name = name := by
  simpa using List.find?_some h

end GuardCode.Scope
