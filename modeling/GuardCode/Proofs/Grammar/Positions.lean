import GuardCode.Proofs.Grammar.Matching
import GuardCode.Proofs.Grammar.Scanning

/-! Places in a source. Positions count bytes, and every position that matching works with is one where
a character of the source begins or where the source ends: a match leads from one such place to another,
and failures go on record at such places only. -/
namespace GuardCode

/-! ## Lengths in bytes -/

theorem byteLength_append (a b : List Char) :
    byteLength (a ++ b) = byteLength a + byteLength b := by
  induction a with
  | nil => simp [byteLength]
  | cons c a ih => simp [byteLength, ih, Nat.add_assoc]

theorem utf8ByteSize_ofList (cs : List Char) :
    (String.ofList cs).utf8ByteSize = byteLength cs := by
  induction cs with
  | nil => rfl
  | cons c cs ih =>
    rw [String.ofList_cons, String.utf8ByteSize_append, String.utf8ByteSize_singleton, ih]
    rfl

theorem dropBytes_append (front rest : List Char) :
    dropBytes (byteLength front) (front ++ rest) = rest := by
  induction front with
  | nil =>
    cases rest with
    | nil => rfl
    | cons c rest => simp [byteLength, dropBytes]
  | cons c front ih =>
    have hpos := c.utf8Size_pos
    rw [byteLength, List.cons_append, dropBytes, if_neg (by omega), Nat.add_sub_cancel_left, ih]

theorem takeBytes_append (text rest : List Char) :
    takeBytes (byteLength text) (text ++ rest) = text := by
  induction text with
  | nil =>
    cases rest with
    | nil => rfl
    | cons c rest => simp [byteLength, takeBytes]
  | cons c text ih =>
    have hpos := c.utf8Size_pos
    rw [byteLength, List.cons_append, takeBytes, if_neg (by omega), Nat.add_sub_cancel_left, ih]

/-! ## What a span holds -/

/-- The text stands in the source, from one end of the span to the other. -/
def Span.Holds (source : List Char) (span : Span) (text : List Char) : Prop :=
  ∃ front back, source = front ++ (text ++ back) ∧
    span = ⟨byteLength front, byteLength (front ++ text)⟩

/-- A position between two characters of the source, or at one of its ends. -/
def IsBoundary (source : List Char) (position : Nat) : Prop :=
  ∃ front back, source = front ++ back ∧ position = byteLength front

theorem IsBoundary.isValid {source : String} {position : Nat}
    (h : IsBoundary source.toList position) : String.Pos.Raw.IsValid source ⟨position⟩ := by
  obtain ⟨front, back, hsource, rfl⟩ := h
  rw [String.Pos.Raw.isValid_iff_exists_append]
  refine ⟨.ofList front, .ofList back, ?_, ?_⟩
  · rw [← String.ofList_append, ← hsource, String.ofList_toList]
  · rw [← utf8ByteSize_ofList]
    rfl

theorem IsBoundary.holds_nil {source : List Char} {position : Nat} (h : IsBoundary source position) :
    Span.Holds source ⟨position, position⟩ [] := by
  obtain ⟨front, back, hsource, rfl⟩ := h
  exact ⟨front, back, hsource, by rw [List.append_nil]⟩

namespace Span.Holds

variable {source text : List Char} {span : Span}

theorem start_boundary (h : span.Holds source text) : IsBoundary source span.start := by
  obtain ⟨front, back, rfl, rfl⟩ := h
  exact ⟨front, text ++ back, rfl, rfl⟩

theorem stop_boundary (h : span.Holds source text) : IsBoundary source span.stop := by
  obtain ⟨front, back, rfl, rfl⟩ := h
  exact ⟨front ++ text, back, by simp, rfl⟩

theorem start_le_stop (h : span.Holds source text) : span.start ≤ span.stop := by
  obtain ⟨front, back, -, rfl⟩ := h
  simp [byteLength_append]

/-- Slicing the source with the span gives the text. -/
theorem slice (h : span.Holds source text) : span.slice source = .ofList text := by
  obtain ⟨front, back, rfl, rfl⟩ := h
  have hlength : byteLength (front ++ text) - byteLength front = byteLength text := by
    rw [byteLength_append, Nat.add_sub_cancel_left]
  simp only [Span.slice, hlength, dropBytes_append, takeBytes_append]

end Span.Holds

/-! ## Cursors -/

namespace Cursor

/-- The way from one cursor to a later one leads across the text. -/
structure Crosses (c : Cursor) (text : List Char) (c' : Cursor) : Prop where
  rest : c.rest = text ++ c'.rest
  position : c'.position = c.position + byteLength text

/-- A cursor that has come from the start of the source. -/
def On (source : List Char) (c : Cursor) : Prop := ∃ front, Crosses ⟨source, 0⟩ front c

variable {source text more rest : List Char} {c c' c'' : Cursor}

theorem Crosses.refl (c : Cursor) : c.Crosses [] c := ⟨rfl, rfl⟩

theorem Crosses.trans (h : c.Crosses text c') (h' : c'.Crosses more c'') :
    c.Crosses (text ++ more) c'' where
  rest := by rw [h.rest, h'.rest, List.append_assoc]
  position := by rw [h'.position, h.position, byteLength_append, Nat.add_assoc]

theorem crosses_advance (h : c.rest = text ++ rest) : c.Crosses text (c.advance rest) where
  rest := h
  position := by simp [advance, h]

theorem crosses_skip (c : Cursor) : c.Crosses (c.rest.takeWhile Token.isSpace) c.skip :=
  crosses_advance List.takeWhile_append_dropWhile.symm

theorem on_start (source : List Char) : On source ⟨source, 0⟩ := ⟨[], .refl _⟩

theorem On.crosses (h : c.On source) (htext : c.Crosses text c') : c'.On source := by
  obtain ⟨front, hfront⟩ := h
  exact ⟨front ++ text, hfront.trans htext⟩

theorem On.isBoundary (h : c.On source) : IsBoundary source c.position := by
  obtain ⟨front, hrest, hposition⟩ := h
  exact ⟨front, c.rest, hrest, by simpa using hposition⟩

theorem On.holds (h : c.On source) (htext : c.Crosses text c') :
    Span.Holds source ⟨c.position, c'.position⟩ text := by
  obtain ⟨front, hrest, hposition⟩ := h
  refine ⟨front, c'.rest, ?_, ?_⟩
  · rw [← htext.rest]
    exact hrest
  · rw [byteLength_append, htext.position, hposition, Nat.zero_add]

end Cursor

/-! ## Matching keeps to the places of a source -/

namespace Matcher

variable {α β : Type} {source : List Char} {m k : Matcher α}

/-- From a place of the source a match leads to a place of the source, and what goes on record is about
places of the source. -/
def Keeps (source : List Char) (m : Matcher α) : Prop :=
  ∀ c far, c.On source → IsBoundary source far.position →
    IsBoundary source (m c far).2.position ∧
      ∀ a c', (m c far).1 = some (a, c') → c'.On source

/-- A scanner leaves the end of what it is given. -/
def LeavesEnd (scan : List Char → Option (List Char)) : Prop :=
  ∀ cs rest, scan cs = some rest → ∃ text, cs = text ++ rest

theorem keeps_pure (a : α) : Keeps source (pure a : Matcher α) := by
  intro c far hc hfar
  refine ⟨hfar, fun a c' h => ?_⟩
  cases h
  exact hc

theorem keeps_failure : Keeps source (failure : Matcher α) :=
  fun _ _ _ hfar => ⟨hfar, nofun⟩

theorem keeps_position : Keeps source position := by
  intro c far hc hfar
  refine ⟨hfar, fun a c' h => ?_⟩
  cases h
  exact hc

theorem keeps_skip : Keeps source skip := by
  intro c far hc hfar
  refine ⟨hfar, fun a c' h => ?_⟩
  cases h
  exact hc.crosses c.crosses_skip

theorem Keeps.bind {next : α → Matcher β} (h : Keeps source m) (hnext : ∀ a, Keeps source (next a)) :
    Keeps source (m >>= next) := by
  intro c far hc hfar
  obtain ⟨hrecord, hfound⟩ := h c far hc hfar
  simp only [Bind.bind]
  cases hrun : m c far with
  | mk found? far' =>
    rw [hrun] at hrecord hfound
    cases found? with
    | none => exact ⟨hrecord, nofun⟩
    | some found =>
      obtain ⟨a, between⟩ := found
      exact hnext a between far' (hfound a between rfl) hrecord

theorem Keeps.map {f : α → β} (h : Keeps source m) : Keeps source (f <$> m) :=
  h.bind fun a => keeps_pure (f a)

theorem Keeps.orElse (h : Keeps source m) (h' : Keeps source k) :
    Keeps source (Matcher.orElse m k) := by
  intro c far hc hfar
  obtain ⟨hrecord, hfound⟩ := h c far hc hfar
  simp only [Matcher.orElse]
  cases hrun : m c far with
  | mk found? far' =>
    rw [hrun] at hrecord hfound
    cases found? with
    | none => exact h' c far' hc hrecord
    | some found => exact ⟨hrecord, hfound⟩

theorem keeps_choice {ms : List (Matcher α)} (h : ∀ m ∈ ms, Keeps source m) :
    Keeps source (choice ms) := by
  induction ms with
  | nil => exact keeps_failure
  | cons m ms ih =>
    obtain ⟨hm, hms⟩ := List.forall_mem_cons.mp h
    exact hm.orElse (ih hms)

/-- A failure goes on record where the rule began, if it does. -/
theorem isBoundary_fail {far : Furthest} {position : Nat} (r : Rule) (before : Nat)
    (hfar : IsBoundary source far.position) (hposition : IsBoundary source position) :
    IsBoundary source (far.fail r position before).position := by
  unfold Furthest.fail
  split
  · exact hfar
  · split
    · exact hposition
    · split
      · exact hposition
      · exact hfar

theorem Keeps.rule {r : Rule} (h : Keeps source m) : Keeps source (Matcher.rule r m) := by
  intro c far hc hfar
  obtain ⟨hrecord, hfound⟩ := h c far hc hfar
  simp only [Matcher.rule]
  cases hrun : m c far with
  | mk found? far' =>
    rw [hrun] at hrecord hfound
    cases found? with
    | some found => exact ⟨hrecord, hfound⟩
    | none => exact ⟨isBoundary_fail r _ hrecord hc.isBoundary, fun _ _ h => by cases h⟩

theorem keeps_token {scan : List Char → Option (List Char)} (hscan : LeavesEnd scan) :
    Keeps source (token scan) := by
  intro c far hc hfar
  simp only [token]
  cases hrest : scan c.rest with
  | none => exact ⟨hfar, fun _ _ h => by cases h⟩
  | some rest =>
    obtain ⟨text, heq⟩ := hscan c.rest rest hrest
    refine ⟨hfar, fun a c' h => ?_⟩
    cases h
    exact hc.crosses (Cursor.crosses_advance heq)

theorem Keeps.optional (h : Keeps source m) : Keeps source (optional m) :=
  h.map.orElse (keeps_pure none)

theorem Keeps.repeated (h : Keeps source m) (bound : Nat) : Keeps source (repeated m bound) := by
  induction bound with
  | zero => exact keeps_pure []
  | succ bound ih =>
    refine Keeps.orElse ?_ (keeps_pure [])
    exact keeps_skip.bind fun _ => h.bind fun _ => ih.bind fun _ => keeps_pure _

theorem Keeps.followers (h : Keeps source m) : Keeps source (followers m) := by
  refine keeps_skip.bind fun _ => Keeps.orElse (h.bind fun _ => ?_) (keeps_pure [])
  have hothers : Keeps source fun c far => Matcher.repeated m (c.rest.length + 1) c far :=
    fun c far => h.repeated (c.rest.length + 1) c far
  exact hothers.bind fun _ => keeps_pure _

end Matcher

namespace Grammar

open Matcher

variable {source : List Char} {nested : Matcher Phrase}

theorem leavesEnd_word (w : List Char) : LeavesEnd (Token.word w) :=
  fun _ _ h => ⟨w, Token.eq_of_word h⟩

theorem leavesEnd_name : LeavesEnd Token.name := by
  intro cs rest h
  obtain ⟨n, heq, -⟩ := Token.of_name h
  exact ⟨n, heq⟩

theorem leavesEnd_literal (kind : LiteralKind) : LeavesEnd (literalScan kind) := by
  intro cs rest h
  obtain ⟨text, heq, -⟩ := isToken_of_scan h
  exact ⟨text, heq⟩

theorem keeps_symbol (text : String) : Keeps source (symbol text) :=
  keeps_token (leavesEnd_word text.toList)

theorem keeps_name : Keeps source name := (keeps_token leavesEnd_name).rule

theorem keeps_literal : Keeps source literal := by
  refine keeps_choice fun m hm => ?_
  obtain ⟨kind, -, rfl⟩ := List.mem_map.mp hm
  exact (keeps_token (leavesEnd_literal kind)).map.rule

theorem keeps_operator : Keeps source operator := by
  refine keeps_choice fun m hm => ?_
  obtain ⟨op, -, rfl⟩ := List.mem_map.mp hm
  exact (keeps_symbol op.symbol).map.rule

theorem keeps_grouped (h : Keeps source nested) : Keeps source (grouped nested) :=
  Keeps.rule <| keeps_position.bind fun _ => (keeps_symbol "(").bind fun _ =>
    keeps_skip.bind fun _ => h.bind fun _ => keeps_skip.bind fun _ =>
      (keeps_symbol ")").bind fun _ => keeps_position.bind fun _ => keeps_pure _

theorem keeps_arguments (h : Keeps source nested) : Keeps source (arguments nested) :=
  h.bind fun _ => (Keeps.followers ((keeps_symbol ",").bind fun _ => keeps_skip.bind fun _ => h)).bind
    fun _ => keeps_pure _

theorem keeps_argumentList (h : Keeps source nested) : Keeps source (argumentList nested) :=
  (keeps_symbol "(").bind fun _ => keeps_skip.bind fun _ =>
    (keeps_arguments h).optional.bind fun _ => keeps_skip.bind fun _ =>
      (keeps_symbol ")").bind fun _ => keeps_pure _

theorem keeps_capabilityCall (h : Keeps source nested) : Keeps source (capabilityCall nested) :=
  Keeps.rule <| keeps_position.bind fun _ => (keeps_symbol "@").bind fun _ =>
    keeps_skip.bind fun _ => keeps_name.bind fun _ => keeps_skip.bind fun _ =>
      (keeps_argumentList h).bind fun _ => keeps_position.bind fun _ => keeps_pure _

theorem keeps_methodCall (h : Keeps source nested) : Keeps source (methodCall nested) :=
  Keeps.rule <| keeps_position.bind fun _ => keeps_name.bind fun _ => keeps_skip.bind fun _ =>
    (keeps_argumentList h).bind fun _ => keeps_position.bind fun _ => keeps_pure _

theorem keeps_primary (h : Keeps source nested) : Keeps source (primary nested) := by
  refine keeps_choice fun m hm => ?_
  simp only [List.mem_cons, List.not_mem_nil, or_false] at hm
  rcases hm with rfl | rfl | rfl | rfl | rfl
  · exact keeps_grouped h
  · exact keeps_capabilityCall h
  · exact keeps_methodCall h
  · exact keeps_literal
  · exact keeps_name.map

theorem keeps_expression (depth : Nat) : Keeps source (expression depth) := by
  induction depth with
  | zero => exact keeps_failure
  | succ depth ih =>
    have hprimary := keeps_primary ih
    have hmore : Keeps source
        (do let op ← operator; skip; let operand ← primary (expression depth); return (op, operand)) :=
      keeps_operator.bind fun _ => keeps_skip.bind fun _ => hprimary.bind fun _ => keeps_pure _
    exact Keeps.rule <| hprimary.bind fun _ => hmore.followers.bind fun _ => keeps_pure _

theorem keeps_endOfInput : Keeps source endOfInput := by
  refine Keeps.rule fun c far hc hfar => ?_
  split
  · refine ⟨hfar, fun a c' h => ?_⟩
    cases h
    exact hc
  · exact ⟨hfar, nofun⟩

theorem keeps_main (depth : Nat) : Keeps source (main depth) :=
  Keeps.rule <| keeps_skip.bind fun _ => (keeps_expression depth).bind fun _ =>
    keeps_skip.bind fun _ => keeps_endOfInput.bind fun _ => keeps_pure _

/-- Where a text matches no further is a place of the text. -/
theorem isBoundary_furthest {far : Furthest} (h : phrase source = .error far) :
    IsBoundary source far.position := by
  have hstart : IsBoundary source ({} : Furthest).position := ⟨[], source, rfl, rfl⟩
  obtain ⟨hrecord, -⟩ := keeps_main (depthOf source) ⟨source, 0⟩ {} (Cursor.on_start source) hstart
  simp only [phrase, runAt] at h
  cases hrun : main (depthOf source) ⟨source, 0⟩ {} with
  | mk found? far' =>
    rw [hrun] at h hrecord
    cases found? with
    | some found => cases h
    | none =>
      cases h
      exact hrecord

end Grammar

end GuardCode
