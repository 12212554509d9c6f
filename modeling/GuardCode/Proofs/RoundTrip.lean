import GuardCode.Proofs.Grammar.Soundness
import GuardCode.Proofs.Reading.Parsed

/-! The text of a parsed guard is read back as the same guard, within the same nesting limit. -/
namespace GuardCode

namespace Reading

variable {scope : Scope} {source : List Char} {left right left' right' n : Node}

/-! Operands and arguments that were read together are read together again. -/

theorem legible_of_parts (h : ∀ x, Expr.Part x n.expr → x.isLegible) : n.Legible := by
  intro l hexpr
  exact h (.literal l) (by rw [hexpr]; exact Expr.part_literal.mpr rfl)

theorem not_meets_of_mixes {a b : Expr} (h : a.mixes b) : ¬a.type.meets b.type := by
  unfold Expr.mixes at h
  split at h
  · exact (by decide : ¬Ty.i32.meets .i64)
  · exact (by decide : ¬Ty.i64.meets .i32)
  · cases h

theorem rejoins {op : BinaryOp} (hleft : left.Proper) (hright : right.Proper) (hl : left'.Legible)
    (hr : right'.Legible) (hshift : op.isShift → left'.expr.mixes right'.expr = false)
    (h : op.isLogical ∧ left' = left ∧ right' = right ∨
      op.isLogical = false ∧ unify source left right = .ok (left', right') ∧
        (op.isShift = false → left'.expr.type.meets right'.expr.type)) :
    Expr.Rejoins op left'.expr right'.expr := by
  intro source' span span'
  rcases h with ⟨hlogical, rfl, rfl⟩ | ⟨hlogical, hunify, hmeet⟩
  · refine ⟨_, binary_logical hlogical _ _, ?_, rfl⟩
    simp only [Expr.asNode, hleft.reread, hright.reread]
  · have hmix : left'.expr.mixes right'.expr = false := by
      cases hop : op.isShift with
      | true => exact hshift hop
      | false =>
        rw [Bool.eq_false_iff]
        exact fun hmixes => not_meets_of_mixes hmixes (hmeet hop)
    obtain ⟨x, y, hagain, hx, hy⟩ := unify_again hleft hright hunify hl hr hmix source' span span'
    refine ⟨_, binary_met hlogical hagain (fun hop => ?_), ?_, rfl⟩
    · rw [hx, hy]
      exact hmeet hop
    · simp only [hx, hy]

theorem restores {c : Capability} {ns ns' : List Node} (hns : ∀ m ∈ ns, m.Proper)
    (h : capabilityArgs source c ns = .ok ns') (hl : ∀ m ∈ ns', m.Legible)
    (hmix : Expr.mixedPair (placed c.params (ns'.map (·.expr))) = false) :
    Expr.Restores c (ns'.map (·.expr)) := by
  intro source' nodes hview
  rcases capabilityArgs_ok h with ⟨a, b, a', b', rfl, rfl, hunify, hmeet⟩ | ⟨rfl, hne⟩
  · obtain ⟨x, rest, rfl, hx, hrest⟩ := List.map_eq_cons_iff.mp hview
    obtain ⟨y, rest', rfl, hy, hrest'⟩ := List.map_eq_cons_iff.mp hrest
    obtain rfl := List.map_eq_nil_iff.mp hrest'
    simp only [List.map_cons, List.map_nil, Expr.mixedPair_placed] at hmix
    obtain ⟨x', y', hagain, hx', hy'⟩ := unify_again (hns a (by simp)) (hns b (by simp)) hunify
      (hl a' (by simp)) (hl b' (by simp)) hmix source' x.span y.span
    rw [← eq_asNode (congrArg Prod.fst hx) (congrArg Prod.snd hx),
      ← eq_asNode (congrArg Prod.fst hy) (congrArg Prod.snd hy)] at hagain
    refine ⟨[x', y'], capabilityArgs_pair hagain (fun harith => ?_), ?_⟩
    · rw [hx', hy']
      exact hmeet harith
    · simp only [List.map_cons, List.map_nil, hx', hy']
  · refine ⟨nodes, capabilityArgs_other ?_, ?_⟩
    · rintro x y rfl
      rw [List.map_map] at hview
      obtain ⟨a, rest, rfl, -, hrest⟩ := List.map_eq_cons_iff.mp hview.symm
      obtain ⟨b, rest', rfl, -, hrest'⟩ := List.map_eq_cons_iff.mp hrest
      obtain rfl := List.map_eq_nil_iff.mp hrest'
      exact hne a b rfl
    · have hfst := congrArg (List.map Prod.fst) hview
      rw [List.map_map, List.map_map, List.map_map] at hfst
      exact hfst.trans (List.map_congr_left fun m hm => (hns m hm).reread)

/-! Readability. -/

/-- An operand is the expression that was read or a literal with its type changed. -/
theorem readable_operand {e e' : Expr} (h : e' = e ∨ ∃ l, e' = .literal l)
    (he : (∀ x, Expr.Part x e → x.isLegible) → e.Readable scope)
    (hl : ∀ x, Expr.Part x e' → x.isLegible) : e'.Readable scope := by
  rcases h with rfl | ⟨l, rfl⟩
  · exact he hl
  · exact .literal (hl _ (Expr.part_literal.mpr rfl))

theorem readable_node (hbuilt : scope.Built) (hscope : scope.Unclouded) {p : Phrase}
    (hp : p.Regular fun _ _ => True) (h : node scope source p = .ok n)
    (hl : ∀ x, Expr.Part x n.expr → x.isLegible) : n.expr.Readable scope := by
  induction hp generalizing n with
  | @binary op _ _ _ _ _ _ ihl ihr =>
    obtain ⟨l, r, hleft, hright, hbinary⟩ := node_binary h
    obtain ⟨l', r', hexpr, -, hmet⟩ := binary_ok hbinary
    rw [hexpr] at hl ⊢
    have hlegible : (Expr.binary op l'.expr r'.expr).isLegible :=
      hl _ (Expr.part_binary.mpr (.inl rfl))
    have hl' : ∀ x, Expr.Part x l'.expr → x.isLegible :=
      fun x hx => hl x (Expr.part_binary.mpr (.inr (.inl hx)))
    have hr' : ∀ x, Expr.Part x r'.expr → x.isLegible :=
      fun x hx => hl x (Expr.part_binary.mpr (.inr (.inr hx)))
    obtain ⟨hcasesl, hcasesr⟩ := operands_cases hmet
    refine .binary (readable_operand hcasesl (ihl hleft) hl')
      (readable_operand hcasesr (ihr hright) hr') ?_
    refine rejoins (proper_node hleft) (proper_node hright) (legible_of_parts hl')
      (legible_of_parts hr') (fun hshift => ?_) hmet
    simpa [Expr.isLegible, hshift] using hlegible
  | group _ ih =>
    obtain ⟨m, hm, hexpr, -⟩ := node_group h
    rw [hexpr] at hl ⊢
    exact ih hm hl
  | name hname hkeyword =>
    obtain ⟨m, hresolve, hexpr, -⟩ := node_name h
    rw [hexpr]
    obtain ⟨hname', hkeyword'⟩ := Scope.isName_text hbuilt hresolve
      (by rwa [String.toList_ofList]) (by rwa [String.toList_ofList])
    exact .member (Scope.resolve?_text hbuilt hscope hresolve) hname' hkeyword'
  | literal _ =>
    obtain ⟨l, -, hexpr⟩ := node_literal h
    rw [hexpr] at hl ⊢
    exact .literal (hl _ (Expr.part_literal.mpr rfl))
  | method hname _ ih =>
    obtain ⟨m, returns, ns, hmethod, hns, hexpr, -⟩ := node_method h
    rw [hexpr] at hl ⊢
    have hcallee := Scope.method?_name hmethod
    refine .method (by rwa [hcallee]) (by rwa [hcallee, String.toList_ofList]) ?_ ?_
    · refine List.forall_mem_map.mpr fun m hm => ?_
      obtain ⟨p, hp, hnode⟩ := nodes_ok hns m hm
      refine ih p hp hnode fun x hx => hl x (Expr.part_call.mpr (.inr ⟨m.expr, ?_, hx⟩))
      exact List.mem_map_of_mem hm
    · refine List.forall_mem_map.mpr fun m hm => ?_
      obtain ⟨p, -, hnode⟩ := nodes_ok hns m hm
      exact (proper_node hnode).reread
  | capability _ _ ih =>
    obtain ⟨c, ns, ns', hns, hargs, hexpr, -⟩ := node_capability h
    rw [hexpr] at hl ⊢
    have hproper : ∀ m ∈ ns, m.Proper := by
      intro m hm
      obtain ⟨p, -, hnode⟩ := nodes_ok hns m hm
      exact proper_node hnode
    have hplaced : ∀ b ∈ placed c.params (ns'.map (·.expr)), ∀ x, Expr.Part x b → x.isLegible :=
      fun b hb x hx => hl x (Expr.part_call.mpr (.inr ⟨b, hb, hx⟩))
    have hparts : ∀ m ∈ ns', ∀ x, Expr.Part x m.expr → x.isLegible :=
      List.forall_mem_map.mp (Expr.parts_placed (fun _ => rfl) hplaced)
    have hmix := hl _ (Expr.part_call.mpr (.inl rfl))
    refine .capability (List.forall_mem_map.mpr fun m' hm' => ?_)
      (restores hproper hargs (fun m hm => legible_of_parts (hparts m hm))
        (by simpa [Expr.isLegible] using hmix))
    obtain ⟨m, hm, hcases⟩ := arguments_cases hargs m' hm'
    obtain ⟨p, hp, hnode⟩ := nodes_ok hns m hm
    exact readable_operand hcases (ih p hp hnode) (hparts m' hm')

/-! Nesting. -/

theorem levels_enclosed (parens : Bool) (p : Phrase) :
    (Expr.enclosed parens p).levels ≤ p.levels + 1 := by
  cases parens with
  | false => exact Nat.le_succ _
  | true => exact Nat.le_refl _

theorem levels_operand {e e' : Expr} {op : BinaryOp} {onRight : Bool} {depth : Nat}
    (h : e' = e ∨ ∃ l, e' = .literal l)
    (he : (Expr.enclosed (e.needsParens op onRight) e.phrase).levels ≤ depth) :
    (Expr.enclosed (e'.needsParens op onRight) e'.phrase).levels ≤ depth := by
  rcases h with rfl | ⟨l, rfl⟩
  · exact he
  · exact Nat.zero_le depth

theorem levels_call {callee : Callee} {args : List Expr} {type : Ty} {depth : Nat}
    (h : ∀ q ∈ args.map Expr.phrase, q.levels ≤ depth) :
    (Expr.call callee args type).phrase.levels ≤ depth + 1 := by
  have hall : Phrase.levelsAll (Expr.phrases args) ≤ depth := by
    rw [Phrase.levelsAll_le, Expr.phrases_eq_map]
    exact h
  cases callee <;> exact Nat.succ_le_succ hall

/-- Parentheses are written only where the source had some: it needs them wherever the text does. -/
theorem levels_node {p : Phrase} (hp : p.Regular fun _ _ => True)
    (h : node scope source p = .ok n) :
    n.expr.phrase.levels ≤ p.levels ∧ ∀ op onRight, p.needsParens op onRight = false →
      (Expr.enclosed (n.expr.needsParens op onRight) n.expr.phrase).levels ≤ p.levels := by
  induction hp generalizing n with
  | @binary op left right _ _ hl hr ihl ihr =>
    obtain ⟨l, r, hleft, hright, hbinary⟩ := node_binary h
    obtain ⟨l', r', hexpr, -, hmet⟩ := binary_ok hbinary
    obtain ⟨hcasesl, hcasesr⟩ := operands_cases hmet
    have hlevels : n.expr.phrase.levels ≤ max left.levels right.levels := by
      have hlevelsl := levels_operand hcasesl ((ihl hleft).2 op false hl)
      have hlevelsr := levels_operand hcasesr ((ihr hright).2 op true hr)
      rw [hexpr]
      simp only [Expr.phrase, Phrase.levels]
      omega
    refine ⟨hlevels, fun op' onRight hparens => ?_⟩
    have hsame : n.expr.needsParens op' onRight = false := by
      rw [hexpr]
      exact hparens
    rw [hsame]
    exact hlevels
  | group _ ih =>
    obtain ⟨m, hm, hexpr, -⟩ := node_group h
    have hlevels := (ih hm).1
    rw [hexpr]
    simp only [Phrase.levels]
    refine ⟨by omega, fun op onRight _ => ?_⟩
    have henclosed := levels_enclosed (m.expr.needsParens op onRight) m.expr.phrase
    omega
  | name _ _ =>
    obtain ⟨m, -, hexpr, -⟩ := node_name h
    rw [hexpr]
    exact ⟨Nat.le_refl 0, fun _ _ _ => Nat.le_refl 0⟩
  | literal _ =>
    obtain ⟨l, -, hexpr⟩ := node_literal h
    rw [hexpr]
    exact ⟨Nat.le_refl 0, fun _ _ _ => Nat.le_refl 0⟩
  | @method span callee args _ _ ih =>
    obtain ⟨m, returns, ns, -, hns, hexpr, -⟩ := node_method h
    have hlevels : n.expr.phrase.levels ≤ Phrase.levelsAll args + 1 := by
      rw [hexpr]
      refine levels_call (List.forall_mem_map.mpr (List.forall_mem_map.mpr fun m hm => ?_))
      obtain ⟨p, hp, hnode⟩ := nodes_ok hns m hm
      exact Nat.le_trans (ih p hp hnode).1 (Phrase.levelsAll_le.mp (Nat.le_refl _) p hp)
    refine ⟨hlevels, fun op onRight _ => ?_⟩
    rw [hexpr] at hlevels ⊢
    exact hlevels
  | @capability span callee args _ _ ih =>
    obtain ⟨c, ns, ns', hns, hargs, hexpr, -⟩ := node_capability h
    have hlevels : n.expr.phrase.levels ≤ Phrase.levelsAll args + 1 := by
      rw [hexpr]
      refine levels_call ?_
      rw [Expr.map_phrase_placed]
      refine List.forall_mem_map.mpr (List.forall_mem_map.mpr fun m' hm' => ?_)
      obtain ⟨m, hm, hcases⟩ := arguments_cases hargs m' hm'
      obtain ⟨p, hp, hnode⟩ := nodes_ok hns m hm
      rcases hcases with heq | ⟨l, heq⟩ <;> rw [heq]
      · exact Nat.le_trans (ih p hp hnode).1 (Phrase.levelsAll_le.mp (Nat.le_refl _) p hp)
      · exact Nat.zero_le _
    refine ⟨hlevels, fun op onRight _ => ?_⟩
    rw [hexpr] at hlevels ⊢
    exact hlevels

end Reading

namespace Expr

variable {scope : Scope} {limit : Nat} {source : String} {e : Expr}

/-- The text of a parsed guard parses to the same guard, in the same scope and within the same
limit, if all its parts can be read back. -/
theorem parse_text (hbuilt : scope.Built) (hscope : scope.Unclouded)
    (h : parse scope limit source = .ok e) (hl : ∀ x, Part x e → x.isLegible) :
    parse scope limit e.text = .ok e := by
  obtain ⟨hcheck, p, n, hphrase, hnode, rfl⟩ := parse_eq_ok.mp h
  obtain ⟨hregular, hlevels⟩ := Grammar.accounts_phrase hphrase
  have hreadable := Reading.readable_node hbuilt hscope hregular hnode hl
  -- the text spells the phrase of the expression, which is not nested deeper than the source
  obtain ⟨q, hq, hbare⟩ := Grammar.phrase_text hreadable.regular
  rw [text_phrase] at hq
  rw [bare_phrase] at hbare
  have hdepth : q.levels ≤ limit := by
    calc q.levels = n.expr.phrase.levels := by rw [← Phrase.levels_bare, hbare]
      _ ≤ p.levels := (Reading.levels_node hregular hnode).1
      _ ≤ limit := hlevels.mp hcheck
  have hreads : Reading.Reads scope n.expr.text.toList q n.expr.reread.1 n.expr.reread.2 :=
    Reading.reads_phrase hreadable hbare
  obtain ⟨n', hnode', hexpr, -⟩ := hreads
  refine parse_eq_ok.mpr ⟨(Grammar.accounts_phrase hq).2.mpr hdepth, q, n', hq, hnode', ?_⟩
  rw [hexpr, (Reading.proper_node hnode).reread]

def countScope : Scope := (Scope.ofArgs [.i8, .i64]).addNamedLocal "count" ⟨2, .u16⟩

/-- Literals without a suffix that took three types, and a reference to a named local. -/
def countGuard : Expr :=
  let arg0 : Expr := .member (.arg ⟨0, .i8⟩)
  let arg1 : Expr := .member (.arg ⟨1, .i64⟩)
  let count : Expr := .call (.capability .load) [.carried (.member (.loc ⟨2, .u16⟩))] .u16
  .binary .and
    (.binary .eq (.binary .sub arg0 (.binary .sub (.literal (.i8 (-5))) arg0)) (.literal (.i8 3)))
    (.binary .or (.binary .le count (.literal (.u16 9)))
      (.binary .ne arg1 (.literal (.i64 2))))

theorem parse_text_countGuard :
    parse countScope 2 "arg0-((-5-arg0))==3 && (@load(count) <= 9||arg1 != 2)" = .ok countGuard ∧
      countGuard.text = "arg0 - (-5 - arg0) == 3 && (@load(loc2) <= 9 || arg1 != 2L)" ∧
      parse countScope 2 countGuard.text = .ok countGuard := by
  have hparse : parse countScope 2 "arg0-((-5-arg0))==3 && (@load(count) <= 9||arg1 != 2)" =
      .ok countGuard := ok_of_toOption (by decide +kernel)
  have hlegible : ∀ x, Part x countGuard → x.isLegible := by
    simp [countGuard, or_imp, forall_and, isLegible, Literal.isLegible, mixedPair,
      BinaryOp.isShift]
  have hbuilt : countScope.Built := .addNamedLocal (.ofArgs _) (by decide)
  exact ⟨hparse, by decide +kernel, parse_text hbuilt (by decide +kernel) hparse hlegible⟩

end Expr

end GuardCode
