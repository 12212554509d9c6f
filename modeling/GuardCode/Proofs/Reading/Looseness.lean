import GuardCode.Proofs.Expr.Spelling
import GuardCode.Reading

/-! Loose literals. The text of a literal is read back as that literal, except that `i8` and `u16`
have no suffix: they come back loose, and it takes their partner to give them their type again. -/
namespace GuardCode

/-- What the text of a literal is read as. -/
def Literal.reread : Literal → Literal × Option Loose
  | .i8 v => (.i32 v.toInt.toInt32, some (.int v.toInt))
  | .u16 v => (.i32 (v.toNat : Int).toInt32, some (.int v.toNat))
  | .i32 v => (.i32 v, some (.int v.toInt))
  | l => (l, none)

/-- What the text of an expression is read as, with the loose value if it is a loose literal. -/
def Expr.reread : Expr → Expr × Option Loose
  | .literal l => (.literal l.reread.1, l.reread.2)
  | e => (e, none)

/-- The node of an expression that was read back. -/
def Expr.asNode (e : Expr) (span : Span) : Node :=
  { expr := e.reread.1, span, loose? := e.reread.2 }

/-- Whether two operands are an `i32` and an `i64` literal. -/
def Expr.mixes : Expr → Expr → Bool
  | .literal (.i32 _), .literal (.i64 _) | .literal (.i64 _), .literal (.i32 _) => true
  | _, _ => false

/-- How the nodes of parsed text and their loose values go together. -/
inductive Node.Proper (n : Node) : Prop where
  | firm (hloose : n.loose? = none) (h : n.expr.reread = (n.expr, none))
  | small {v : Int} (hloose : n.loose? = some (.int v)) (hleast : -2147483648 ≤ v)
      (hgreatest : v ≤ 2147483647) (h : n.expr = .literal (.i32 v.toInt32))
  | large {v : Int} (hloose : n.loose? = some (.int v)) (h : n.expr = .literal (.i64 v.toInt64))
  | float {x : Double} (hloose : n.loose? = some (.float x)) (h : n.expr = .literal (.f64 x))

/-- A node whose expression is no literal that cannot be read back. -/
def Node.Legible (n : Node) : Prop := ∀ l, n.expr = .literal l → l.isLegible

theorem Node.Proper.reread {n : Node} (h : n.Proper) : n.expr.reread.1 = n.expr := by
  cases h with
  | firm _ h => rw [h]
  | small _ _ _ h => rw [h]; rfl
  | large _ h => rw [h]; rfl
  | float _ h => rw [h]; rfl

/-- The place of a node has no part in this. -/
theorem Node.Proper.congr {n n' : Node} (h : n.Proper) (hexpr : n'.expr = n.expr)
    (hloose : n'.loose? = n.loose?) : n'.Proper := by
  cases h with
  | firm hnone h => exact .firm (hloose.trans hnone) (by rw [hexpr, h])
  | small hsome hleast hgreatest h =>
    exact .small (hloose.trans hsome) hleast hgreatest (hexpr.trans h)
  | large hsome h => exact .large (hloose.trans hsome) (hexpr.trans h)
  | float hsome h => exact .float (hloose.trans hsome) (hexpr.trans h)

namespace Reading

/-! Integers. -/

theorem getLast?_toString (v : Int) :
    ∃ d, (toString v).toList.getLast? = some d ∧ d.isDigit := by
  obtain ⟨d, hd⟩ := Option.ne_none_iff_exists'.mp
    (mt List.getLast?_eq_none_iff.mp (Text.magnitude_ne_nil v))
  have hdigit := List.all_eq_true.mp (Text.all_isDigit_magnitude v) d (List.mem_of_getLast? hd)
  refine ⟨d, ?_, hdigit⟩
  rw [Text.toList_int]
  split
  · exact hd
  · rw [List.getLast?_cons, hd]
    rfl

theorem integer_plain {v : Int} (hleast : -2147483648 ≤ v) (hgreatest : v ≤ 2147483647) :
    integer (toString v).toList = .ok (.i32 v.toInt32, some (.int v)) := by
  obtain ⟨d, hd, hdigit⟩ := getLast?_toString v
  have hne : ∀ c, c.isDigit = false → d ≠ c := by
    rintro c hc rfl
    simp [hdigit] at hc
  have hread : Text.readInt64? (toString v).toList = some v :=
    Text.readInt64?_toString (by omega) (by omega)
  generalize (toString v).toList = text at hd hread
  have hsuffix : (text.getLast?.filter fun c => c == 'L' || c == 's' || c == 'b') = none := by
    simp [hd, Option.filter, hne 'L' (by decide), hne 's' (by decide), hne 'b' (by decide)]
  simp only [integer, hsuffix, Option.isSome_none, Bool.false_eq_true, if_false, hread, hleast,
    hgreatest, and_self, if_true]
  rfl

/-- The suffix decides how the number before it is taken. -/
theorem integer_suffixed {v : Int} {c : Char} (hc : c = 'L' ∨ c = 's' ∨ c = 'b')
    (hleast : -9223372036854775808 ≤ v) (hgreatest : v ≤ 9223372036854775807) :
    integer ((toString v).toList ++ [c]) =
      if c = 'L' then .ok (.i64 v.toInt64, none)
      else if c = 's' then
        if -32768 ≤ v ∧ v ≤ 32767 then .ok (.i16 v.toInt16, none) else .error (.beyondSuffix .i16)
      else
        if 0 ≤ v ∧ v ≤ 255 then .ok (.u8 (UInt8.ofNat v.toNat), none)
        else .error (.beyondSuffix .u8) := by
  have hread := Text.readInt64?_toString hleast hgreatest
  generalize (toString v).toList = text at hread
  have hsuffix : ((text ++ [c]).getLast?.filter fun c => c == 'L' || c == 's' || c == 'b') =
      some c := by
    simp [Option.filter, or_assoc, hc]
  simp only [integer, hsuffix, Option.isSome_some, if_true, List.dropLast_concat, hread]
  rcases hc with rfl | rfl | rfl <;> rfl

/-! Quoted literals. -/

theorem body_between {quote : Char} {units cs : List Char} (h : Text.unescape units = some cs) :
    body (quote :: (units ++ [quote])) = .ok cs := by
  have hdrop : ((quote :: (units ++ [quote])).drop 1).dropLast = units := by simp
  simp only [body, hdrop, h]

theorem body_quoted {quote : Char} {cs : List Char} (hquote : quote = '"' ∨ quote = '\'')
    (h : ∀ c ∈ cs, Text.isNumbered quote c = false) :
    body (quote :: (Text.escaped quote cs ++ [quote])) = .ok cs :=
  body_between (Text.unescape_escaped hquote h)

/-- The text of a literal is read back. -/
theorem literal_text {l : Literal} (h : l.isLegible) :
    literal l.kind l.text.toList = .ok l.reread := by
  cases l with
  | null => rfl
  | bool value => cases value <;> rfl
  | u8 value =>
    have hlt := value.toNat_lt
    have hread := integer_suffixed (v := value.toNat) (c := 'b') (by decide) (by omega) (by omega)
    have hrange : (0 : Int) ≤ value.toNat ∧ (value.toNat : Int) ≤ 255 := by omega
    rw [if_neg (by decide), if_neg (by decide), if_pos hrange, Int.toNat_natCast,
      UInt8.ofNat_toNat] at hread
    rw [Literal.text, String.toList_append]
    exact hread
  | i8 value =>
    have hleast := value.le_toInt
    have hlt := value.toInt_lt
    exact integer_plain (by omega) (by omega)
  | i16 value =>
    have hleast := value.le_toInt
    have hlt := value.toInt_lt
    have hread := integer_suffixed (v := value.toInt) (c := 's') (by decide) (by omega) (by omega)
    have hrange : -32768 ≤ value.toInt ∧ value.toInt ≤ 32767 := by omega
    rw [if_neg (by decide), if_pos rfl, if_pos hrange, Int.toInt16, Int16.ofInt_toInt] at hread
    rw [Literal.text, String.toList_append]
    exact hread
  | u16 value =>
    have hlt := value.toNat_lt
    exact integer_plain (v := value.toNat) (by omega) (by omega)
  | i32 value =>
    have hleast := value.le_toInt
    have hlt := value.toInt_lt
    have hread := integer_plain (v := value.toInt) (by omega) (by omega)
    rw [Int.toInt32, Int32.ofInt_toInt] at hread
    exact hread
  | char value =>
    have hnumbered : ∀ c ∈ [value], Text.isNumbered '\'' c = false := by
      simpa [Literal.isLegible] using h
    have hbody := body_quoted (.inr rfl) hnumbered
    rw [Literal.text, Text.toList_quotedChar]
    simp only [Text.escaped, List.flatMap_cons, List.flatMap_nil, List.append_nil] at hbody
    simp only [literal, Literal.kind, hbody]
    rfl
  | i64 value =>
    have hleast := value.le_toInt
    have hlt := value.toInt_lt
    have hread := integer_suffixed (v := value.toInt) (c := 'L') (by decide) (by omega) (by omega)
    rw [if_pos rfl, Int.toInt64, Int64.ofInt_toInt] at hread
    rw [Literal.text, String.toList_append]
    exact hread
  | f32 value => cases h
  | f64 value => cases h
  | string value =>
    have hnumbered : ∀ c ∈ value.toList, Text.isNumbered '"' c = false := by
      simpa [Literal.isLegible] using h
    have hbody := body_quoted (.inl rfl) hnumbered
    rw [Literal.text, Text.toList_quoted]
    simp only [literal, Literal.kind, hbody]
    simp [bind, Except.bind, Literal.reread]
    rfl

/-! What literals are read as. -/

theorem integer_proper {text : List Char} {l : Literal} {loose? : Option Loose}
    (h : integer text = .ok (l, loose?)) (span : Span) :
    Node.Proper { expr := .literal l, span, loose? } := by
  simp only [integer] at h
  split at h
  · cases h
  · next v _ =>
    split at h
    · cases h
      exact .firm rfl rfl
    · split at h
      · cases h
        exact .firm rfl rfl
      · cases h
    · split at h
      · cases h
        exact .firm rfl rfl
      · cases h
    · split at h
      · next hrange =>
        cases h
        exact .small rfl hrange.1 hrange.2 rfl
      · cases h
        exact .large rfl rfl

theorem literal_proper {kind : LiteralKind} {text : List Char} {l : Literal} {loose? : Option Loose}
    (h : literal kind text = .ok (l, loose?)) (span : Span) :
    Node.Proper { expr := .literal l, span, loose? } := by
  cases kind with
  | null =>
    cases h
    exact .firm rfl rfl
  | boolean =>
    cases h
    exact .firm rfl rfl
  | integer => exact integer_proper h span
  | float =>
    simp only [literal, float] at h
    split at h
    · split at h
      · cases h
        exact .firm rfl rfl
      · cases h
    · split at h
      · cases h
        exact .float rfl rfl
      · cases h
  | character =>
    simp only [literal, bind, Except.bind] at h
    split at h
    · cases h
    · split at h
      · cases h
        exact .firm rfl rfl
      · cases h
  | string =>
    simp only [literal, bind, Except.bind] at h
    split at h
    · cases h
    · cases h
      exact .firm rfl rfl

/-! Adoption. -/

/-- A literal that a loose integer became is read back firm, or loose with the same value. -/
theorem reread_of_adopt {v : Int} {type : Ty} {l : Literal}
    (h : (Loose.int v).adopt type = .adopted l) (hl : l.isLegible) :
    l.reread = (l, none) ∨ l.reread.2 = some (.int v) := by
  have within : ∀ {least greatest : Int} {l' : Literal},
      Adoption.within least greatest v l' = .adopted l → least ≤ v ∧ v ≤ greatest ∧ l' = l := by
    intro least greatest l' h
    simp only [Adoption.within] at h
    split at h
    · next hrange =>
      cases h
      exact ⟨hrange.1, hrange.2, rfl⟩
    · cases h
  cases type with
  | u8 =>
    obtain ⟨-, -, rfl⟩ := within h
    exact .inl rfl
  | i8 =>
    obtain ⟨hleast, hgreatest, rfl⟩ := within h
    have hv : v.toInt8.toInt = v := Int8.toInt_ofInt_of_le (by omega) (by omega)
    exact .inr (by simp only [Literal.reread, hv])
  | i16 =>
    obtain ⟨-, -, rfl⟩ := within h
    exact .inl rfl
  | u16 =>
    obtain ⟨hleast, hgreatest, rfl⟩ := within h
    have hv : ((UInt16.ofNat v.toNat).toNat : Int) = v := by
      rw [UInt16.toNat_ofNat_of_lt' (by simp only [UInt16.size]; omega)]
      omega
    exact .inr (by simp only [Literal.reread, hv])
  | i32 =>
    obtain ⟨hleast, hgreatest, rfl⟩ := within h
    have hv : v.toInt32.toInt = v := Int32.toInt_ofInt_of_le (by omega) (by omega)
    exact .inr (by simp only [Literal.reread, hv])
  | char =>
    simp only [Loose.adopt] at h
    split at h
    · cases h
      exact .inl rfl
    · cases h
  | i64 =>
    cases h
    exact .inl rfl
  | f32 =>
    cases h
    cases hl
  | f64 =>
    cases h
    cases hl
  | _ => cases h

variable {source : List Char} {left right left' right' n n' : Node} {type : Ty}

theorem coerce_cases (h : coerce source n type = .ok n') :
    n.loose? = none ∧ n' = n ∨
      (∃ loose, n.loose? = some loose ∧ loose.adopt type = .unchanged ∧ n' = n) ∨
      ∃ loose l, n.loose? = some loose ∧ loose.adopt type = .adopted l ∧ n'.expr = .literal l := by
  simp only [coerce] at h
  split at h
  · next hfirm =>
    cases h
    exact .inl ⟨hfirm, rfl⟩
  · next loose hloose =>
    split at h
    · next hadopt =>
      cases h
      exact .inr (.inl ⟨loose, hloose, hadopt, rfl⟩)
    · next l hadopt =>
      cases h
      exact .inr (.inr ⟨loose, l, hloose, hadopt, rfl⟩)
    · cases h

theorem coerce_firm (h : n.loose? = none) : coerce source n type = .ok n := by
  simp only [coerce, h]

theorem coerce_kept {loose : Loose} (h : n.loose? = some loose)
    (hadopt : loose.adopt type = .unchanged) : coerce source n type = .ok n := by
  simp only [coerce, h, hadopt]

theorem coerce_adopted {loose : Loose} {l : Literal} (h : n.loose? = some loose)
    (hadopt : loose.adopt type = .adopted l) :
    coerce source n type = .ok { expr := .literal l, span := n.span } := by
  simp only [coerce, h, hadopt]

theorem adopt_float {x : Double} {l : Literal} (h : (Loose.float x).adopt type = .adopted l) :
    l.isLegible = false := by
  cases type with
  | f32 =>
    cases h
    rfl
  | _ => cases h

/-- What a loose literal became beside a type, its text becomes again. -/
theorem coerce_again (hn : n.Proper) (h : coerce source n type = .ok n') (hl : n'.Legible)
    (source' : List Char) (span : Span) :
    ∃ x, coerce source' (n'.expr.asNode span) type = .ok x ∧ x.expr = n'.expr := by
  rcases coerce_cases h with ⟨hfirm, rfl⟩ | ⟨loose, hloose, hadopt, rfl⟩ |
    ⟨loose, l, hloose, hadopt, hexpr⟩
  · cases hn with
    | firm _ hreread =>
      exact ⟨_, coerce_firm (congrArg Prod.snd hreread), congrArg Prod.fst hreread⟩
    | small hsome | large hsome | float hsome =>
      rw [hfirm] at hsome
      cases hsome
  · cases hn with
    | firm hnone _ =>
      rw [hloose] at hnone
      cases hnone
    | @small v hsome hleast hgreatest hexpr =>
      obtain rfl : loose = .int v := Option.some.inj (hloose.symm.trans hsome)
      have hv : v.toInt32.toInt = v := Int32.toInt_ofInt_of_le (by omega) (by omega)
      rw [hexpr]
      refine ⟨_, coerce_kept ?_ hadopt, rfl⟩
      simp only [Expr.asNode, Expr.reread, Literal.reread, hv]
    | large _ hexpr =>
      rw [hexpr]
      exact ⟨_, coerce_firm rfl, rfl⟩
    | float _ hexpr => cases hl _ hexpr
  · have hlegible := hl l hexpr
    cases loose with
    | float x =>
      rw [adopt_float hadopt] at hlegible
      cases hlegible
    | int v =>
      rw [hexpr]
      rcases reread_of_adopt hadopt hlegible with hfirm | hsame
      · refine ⟨_, coerce_firm (congrArg Prod.snd hfirm), ?_⟩
        exact congrArg Expr.literal (congrArg Prod.fst hfirm)
      · exact ⟨_, coerce_adopted hsame hadopt, rfl⟩

/-! Two operands. -/

theorem unify_firm_right (h : right.loose? = none) :
    unify source left right =
      (coerce source left right.expr.type).map fun node => (node, right) := by
  cases hleft : left.loose? with
  | none =>
    rw [coerce_firm hleft]
    simp only [unify, hleft, h]
    rfl
  | some loose =>
    simp only [unify, hleft, h]
    cases coerce source left right.expr.type <;> rfl

theorem unify_firm_left (h : left.loose? = none) :
    unify source left right =
      (coerce source right left.expr.type).map fun node => (left, node) := by
  cases hright : right.loose? with
  | none =>
    rw [coerce_firm hright]
    simp only [unify, hright, h]
    rfl
  | some loose =>
    simp only [unify, hright, h]
    cases coerce source right left.expr.type <;> rfl

theorem unify_loose {loose loose' : Loose} (hleft : left.loose? = some loose)
    (hright : right.loose? = some loose') : unify source left right = .ok (left, right) := by
  simp only [unify, hleft, hright]

theorem map_eq_ok {ε α β : Type} {f : α → β} {e : Except ε α} {b : β} (h : e.map f = .ok b) :
    ∃ a, e = .ok a ∧ b = f a := by
  cases e with
  | error => cases h
  | ok a =>
    cases h
    exact ⟨a, rfl, rfl⟩

theorem unify_ok (h : unify source left right = .ok (left', right')) :
    (right.loose? = none ∧ coerce source left right.expr.type = .ok left' ∧ right' = right) ∨
      (left.loose? = none ∧ coerce source right left.expr.type = .ok right' ∧ left' = left) ∨
      ∃ loose loose', left.loose? = some loose ∧ right.loose? = some loose' ∧ left' = left ∧
        right' = right := by
  cases hright : right.loose? with
  | none =>
    rw [unify_firm_right hright] at h
    obtain ⟨node, hcoerce, heq⟩ := map_eq_ok h
    cases heq
    exact .inl ⟨rfl, hcoerce, rfl⟩
  | some loose' =>
    cases hleft : left.loose? with
    | none =>
      rw [unify_firm_left hleft] at h
      obtain ⟨node, hcoerce, heq⟩ := map_eq_ok h
      cases heq
      exact .inr (.inl ⟨rfl, hcoerce, rfl⟩)
    | some loose =>
      rw [unify_loose hleft hright] at h
      cases h
      exact .inr (.inr ⟨loose, loose', rfl, rfl, rfl, rfl⟩)

/-- Each operand stays as it is or becomes another literal. -/
theorem unify_cases (h : unify source left right = .ok (left', right')) :
    (left'.expr = left.expr ∨ ∃ l, left'.expr = .literal l) ∧
      (right'.expr = right.expr ∨ ∃ l, right'.expr = .literal l) := by
  have hcoerce : ∀ {n n' : Node} {type : Ty}, coerce source n type = .ok n' →
      n'.expr = n.expr ∨ ∃ l, n'.expr = .literal l := by
    intro n n' type h
    rcases coerce_cases h with ⟨-, rfl⟩ | ⟨_, _, _, rfl⟩ | ⟨_, l, _, _, hexpr⟩
    · exact .inl rfl
    · exact .inl rfl
    · exact .inr ⟨l, hexpr⟩
  rcases unify_ok h with ⟨-, hleft, rfl⟩ | ⟨-, hright, rfl⟩ | ⟨_, _, _, _, rfl, rfl⟩
  · exact ⟨hcoerce hleft, .inl rfl⟩
  · exact ⟨.inl rfl, hcoerce hright⟩
  · exact ⟨.inl rfl, .inl rfl⟩

/-- A loose node is a literal of 32 or 64 bits, unless it cannot be read back. -/
theorem loose_cases {loose : Loose} (hn : n.Proper) (hloose : n.loose? = some loose)
    (hl : n.Legible) : (∃ v, n.expr = .literal (.i32 v)) ∨ ∃ v, n.expr = .literal (.i64 v) := by
  cases hn with
  | firm hnone _ =>
    rw [hloose] at hnone
    cases hnone
  | small _ _ _ h => exact .inl ⟨_, h⟩
  | large _ h => exact .inr ⟨_, h⟩
  | float _ h => cases hl _ h

theorem firm_reread (hn : n.Proper) (hfirm : n.loose? = none) :
    n.expr.reread = (n.expr, none) := by
  cases hn with
  | firm _ h => exact h
  | small hsome | large hsome | float hsome =>
    rw [hfirm] at hsome
    cases hsome

/-- Two operands that met in the source meet in the same way when they are read back. -/
theorem unify_again (hleft : left.Proper) (hright : right.Proper)
    (h : unify source left right = .ok (left', right')) (hl : left'.Legible)
    (hr : right'.Legible) (hmix : left'.expr.mixes right'.expr = false) (source' : List Char)
    (span span' : Span) :
    ∃ x y, unify source' (left'.expr.asNode span) (right'.expr.asNode span') = .ok (x, y) ∧
      x.expr = left'.expr ∧ y.expr = right'.expr := by
  rcases unify_ok h with ⟨hfirm, hcoerce, rfl⟩ | ⟨hfirm, hcoerce, rfl⟩ |
    ⟨loose, loose', hloose, hloose', rfl, rfl⟩
  · have hreread := firm_reread hright hfirm
    have hexpr : (right'.expr.asNode span').expr = right'.expr := congrArg Prod.fst hreread
    obtain ⟨x, hx, heq⟩ := coerce_again hleft hcoerce hl source' span
    refine ⟨x, right'.expr.asNode span', ?_, heq, hexpr⟩
    rw [unify_firm_right (congrArg Prod.snd hreread), hexpr, hx]
    rfl
  · have hreread := firm_reread hleft hfirm
    have hexpr : (left'.expr.asNode span).expr = left'.expr := congrArg Prod.fst hreread
    obtain ⟨y, hy, heq⟩ := coerce_again hright hcoerce hr source' span'
    refine ⟨left'.expr.asNode span, y, ?_, hexpr, heq⟩
    rw [unify_firm_left (congrArg Prod.snd hreread), hexpr, hy]
    rfl
  · -- both were loose: two literals of one width, both with a suffix now or both without
    rcases loose_cases hleft hloose hl with ⟨v, hv⟩ | ⟨v, hv⟩ <;>
      rcases loose_cases hright hloose' hr with ⟨w, hw⟩ | ⟨w, hw⟩ <;> rw [hv, hw] at hmix ⊢
    · exact ⟨_, _, unify_loose rfl rfl, rfl, rfl⟩
    · cases hmix
    · cases hmix
    · exact ⟨_, _, rfl, rfl, rfl⟩

end Reading

end GuardCode
