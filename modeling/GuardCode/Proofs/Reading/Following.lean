import GuardCode.Proofs.Expr.Parts
import GuardCode.Proofs.Reading.Meaning

/-! From a place of a phrase to the same place of its expression. Parentheses leave no trace there, and
only a literal or a member can be another in the expression than what it was read as by itself. -/
namespace GuardCode

/-- What stands in an expression where the part in the frame stands in the phrase. -/
def Phrase.Frame.child? : Phrase.Frame → Expr → Option Expr
  | .inner _, e => some e
  | .left _ _, e => e.children[0]?
  | .right _ _, e => e.children[1]?
  | .method _ _ before _, e | .capability _ _ before _, e => e.children[before.length]?

/-- What stands in an expression at a place of the phrase. -/
def Expr.follow : List Phrase.Frame → Expr → Option Expr
  | [], e => some e
  | frame :: place, e => (frame.child? e).bind (follow place)

/-- An expression without parts. -/
def Expr.isLeaf : Expr → Bool
  | member _ | literal _ | carried _ => true
  | _ => false

theorem Expr.follow_leaf {place : List Phrase.Frame} {e x : Expr} (he : e.isLeaf)
    (h : e.follow place = some x) : x = e := by
  have hempty : e.children = [] := by
    cases e with
    | member | literal | carried => rfl
    | _ => cases he
  induction place with
  | nil =>
    cases h
    rfl
  | cons frame place ih =>
    cases frame with
    | inner => exact ih h
    | _ => simp [follow, Phrase.Frame.child?, hempty] at h

namespace Reading

open Phrase (Frame)

variable {scope : Scope} {source : List Char} {n n' l r l' r' : Node} {p : Phrase}

/-- The expression has come from another one, which is the same unless it is a leaf. -/
def Keeps (e e' : Expr) : Prop := e' = e ∨ e.isLeaf

theorem leaf_of_loose {loose : Loose} (hn : n.Proper) (h : n.loose? = some loose) :
    n.expr.isLeaf := by
  cases hn with
  | firm hnone =>
    rw [h] at hnone
    cases hnone
  | small _ _ _ hexpr => rw [hexpr]; rfl
  | large _ hexpr => rw [hexpr]; rfl
  | float _ hexpr => rw [hexpr]; rfl

theorem keeps_coerce {type : Ty} (hn : n.Proper) (h : coerce source n type = .ok n') :
    Keeps n.expr n'.expr := by
  rcases coerce_cases h with ⟨-, rfl⟩ | ⟨_, -, -, rfl⟩ | ⟨loose, _, hloose, -, -⟩
  · exact .inl rfl
  · exact .inl rfl
  · exact .inr (leaf_of_loose hn hloose)

theorem keeps_unify (hl : l.Proper) (hr : r.Proper) (h : unify source l r = .ok (l', r')) :
    Keeps l.expr l'.expr ∧ Keeps r.expr r'.expr := by
  rcases unify_ok h with ⟨-, hcoerce, rfl⟩ | ⟨-, hcoerce, rfl⟩ | ⟨_, _, -, -, rfl, rfl⟩
  · exact ⟨keeps_coerce hl hcoerce, .inl rfl⟩
  · exact ⟨.inl rfl, keeps_coerce hr hcoerce⟩
  · exact ⟨.inl rfl, .inl rfl⟩

theorem asTarget_cases (e : Expr) : asTarget e = e ∨ e.isLeaf := by
  cases e with
  | member m => exact .inr rfl
  | _ => exact .inl rfl

/-- A target place changes an argument at most to the same member as a reference. -/
def Given (e e' : Expr) : Prop := e' = e ∨ e' = asTarget e

theorem Keeps.given {e e' e'' : Expr} (h : Keeps e e') (h' : Given e' e'') : Keeps e e'' := by
  rcases h with rfl | hleaf
  · rcases h' with rfl | rfl
    · exact .inl rfl
    · exact asTarget_cases e'
  · exact .inr hleaf

theorem getElem?_placed (kinds : List ParamKind) {es : List Expr} {i : Nat} {e : Expr}
    (h : es[i]? = some e) : ∃ e', (placed kinds es)[i]? = some e' ∧ Given e e' := by
  induction es generalizing kinds i with
  | nil => cases h
  | cons first es ih =>
    obtain ⟨first', kinds', hfirst, hplaced⟩ := Expr.placed_cons kinds first es
    rw [hplaced]
    cases i with
    | zero =>
      cases h
      exact ⟨first', rfl, hfirst⟩
    | succ i => exact ih kinds' h

theorem nodes_at {before after : List Phrase} {ns : List Node}
    (h : nodes scope source (before ++ p :: after) = .ok ns) :
    ∃ n, node scope source p = .ok n ∧ ns[before.length]? = some n := by
  induction before generalizing ns with
  | nil =>
    obtain ⟨first, others, hp, -, rfl⟩ := nodes_cons h
    exact ⟨first, hp, rfl⟩
  | cons q before ih =>
    obtain ⟨first, others, -, hothers, rfl⟩ := nodes_cons h
    exact ih hothers

theorem proper_nodes {ps : List Phrase} {ns : List Node} (h : nodes scope source ps = .ok ns) :
    ∀ n ∈ ns, n.Proper := by
  intro n hn
  obtain ⟨p, -, hp⟩ := nodes_ok h n hn
  exact proper_node hp

theorem keeps_capabilityArgs {c : Capability} {ns ns' : List Node} (hns : ∀ n ∈ ns, n.Proper)
    (h : capabilityArgs source c ns = .ok ns') {i : Nat} (hn : ns[i]? = some n) :
    ∃ n', ns'[i]? = some n' ∧ Keeps n.expr n'.expr := by
  rcases capabilityArgs_ok h with ⟨a, b, a', b', rfl, rfl, hunify, -⟩ | ⟨rfl, -⟩
  · obtain ⟨ha, hb⟩ := keeps_unify (hns a (by simp)) (hns b (by simp)) hunify
    cases i with
    | zero =>
      cases hn
      exact ⟨a', rfl, ha⟩
    | succ i =>
      cases i with
      | zero =>
        cases hn
        exact ⟨b', rfl, hb⟩
      | succ i => cases hn
  · exact ⟨n, hn, .inl rfl⟩

/-- The part in a frame is read by itself, and keeps its place in the expression. -/
theorem node_frame {frame : Frame} (h : node scope source (frame.fill p) = .ok n) :
    ∃ m e, node scope source p = .ok m ∧ frame.child? n.expr = some e ∧ Keeps m.expr e := by
  cases frame with
  | left op other =>
    obtain ⟨l, r, hl, hr, hbinary⟩ := node_binary h
    obtain ⟨l', r', hexpr, -, hmet⟩ := binary_ok hbinary
    refine ⟨l, l'.expr, hl, by rw [hexpr]; rfl, ?_⟩
    rcases hmet with ⟨-, rfl, -⟩ | ⟨-, hunify, -⟩
    · exact .inl rfl
    · exact (keeps_unify (proper_node hl) (proper_node hr) hunify).1
  | right op other =>
    obtain ⟨l, r, hl, hr, hbinary⟩ := node_binary h
    obtain ⟨l', r', hexpr, -, hmet⟩ := binary_ok hbinary
    refine ⟨r, r'.expr, hr, by rw [hexpr]; rfl, ?_⟩
    rcases hmet with ⟨-, -, rfl⟩ | ⟨-, hunify, -⟩
    · exact .inl rfl
    · exact (keeps_unify (proper_node hl) (proper_node hr) hunify).2
  | inner span =>
    obtain ⟨m, hm, hexpr, -⟩ := node_group h
    exact ⟨m, n.expr, hm, rfl, .inl hexpr⟩
  | method span callee before after =>
    obtain ⟨_, _, ns, -, hns, hexpr, -⟩ := node_method h
    obtain ⟨m, hm, hat⟩ := nodes_at hns
    refine ⟨m, m.expr, hm, ?_, .inl rfl⟩
    simp [hexpr, Frame.child?, Expr.children, hat]
  | capability span callee before after =>
    obtain ⟨c, ns, ns', hns, hargs, hexpr, -, -⟩ := node_capability h
    obtain ⟨m, hm, hat⟩ := nodes_at hns
    obtain ⟨m', hat', hkeeps⟩ := keeps_capabilityArgs (proper_nodes hns) hargs hat
    have hmap : (ns'.map (·.expr))[before.length]? = some m'.expr := by simp [hat']
    obtain ⟨e, he, hgiven⟩ := getElem?_placed c.params hmap
    exact ⟨m, e, hm, by rw [hexpr]; exact he, hkeeps.given hgiven⟩

/-- What has parts is found in the expression as it was read by itself. -/
theorem follow_node {place : List Frame} (h : node scope source (Phrase.fill place p) = .ok n)
    (hp : ∀ m, node scope source p = .ok m → m.expr.isLeaf = false) :
    ∃ m, node scope source p = .ok m ∧ n.expr.follow place = some m.expr := by
  induction place generalizing n with
  | nil => exact ⟨n, h, rfl⟩
  | cons frame place ih =>
    obtain ⟨inner, e, hinner, hchild, hkeeps⟩ := node_frame h
    obtain ⟨m, hm, hfollow⟩ := ih hinner
    refine ⟨m, hm, ?_⟩
    rcases hkeeps with rfl | hleaf
    · simpa [Expr.follow, hchild] using hfollow
    · have hsame := Expr.follow_leaf hleaf hfollow
      have hcompound := hp m hm
      rw [hsame, hleaf] at hcompound
      cases hcompound

end Reading

end GuardCode
