import LayoutLint.Proofs.Layout.Ending
import LayoutLint.Proofs.Layout.Programs
import LayoutLint.Proofs.Layout.Trimmed
import LayoutLint.Proofs.Lexing.Closing
/-!
# Ended — texts that end as they should

Nothing is wrong with the end of a text that ends in the line break of its last line (`finalBreak?_of_line`), and of one
of which the last word or comment ends in a line break and nothing follows (`finalBreak?_of_bare`). Which of the blanks
at the end are what, and where a line starts in them, does not change when white space at the ends of lines is taken
away (`content_of_joinGap`, `getLast?_contentChars_eq`).
-/
namespace LayoutLint

open Piece (Reads charsOf)

/-- Trivia without line breaks has none to be joined. -/
theorem joinGap_eq_self {g : List Trivia} (h : ∀ t ∈ g, t.isEndOfLine = false) : joinGap g = g := by
  induction g with
  | nil => rfl
  | cons t g ih =>
    rw [joinGap_cons, ih fun u hu => h u (List.mem_cons_of_mem t hu)]
    rcases glueGap_cases t g with hg | ⟨r, -, ht, -⟩
    · exact hg
    · rw [h t List.mem_cons_self] at ht
      cases ht

theorem isBlank_joinGap {g : List Trivia} (h : ∀ t ∈ g, t.isBlank = true) : ∀ t ∈ joinGap g, t.isBlank = true := by
  induction g with
  | nil => exact h
  | cons t g ih =>
    have ih := ih fun u hu => h u (List.mem_cons_of_mem t hu)
    rw [joinGap_cons]
    rcases glueGap_cases t (joinGap g) with hg | ⟨r, hr, -, hg⟩
    · rw [hg]
      exact List.forall_mem_cons.2 ⟨h t List.mem_cons_self, ih⟩
    · rw [hr] at ih
      rw [hg]
      exact List.forall_mem_cons.2 ⟨rfl, (List.forall_mem_cons.1 ih).2⟩

theorem mem_of_mem_dropAt {p : Nat → Bool} {g : List Trivia} {t : Trivia} (h : t ∈ dropAt p g) : t ∈ g := by
  induction g generalizing p with
  | nil => cases h
  | cons u g ih =>
    rw [dropAt] at h
    split at h
    · exact List.mem_cons_of_mem u (ih h)
    · rcases List.mem_cons.1 h with rfl | h
      · exact List.mem_cons_self
      · exact List.mem_cons_of_mem u (ih h)

namespace Document

variable {d q : Document} {last : Bool} {p : Nat → Bool}

/-! ### The last piece of the text -/

/-- A piece of the trivia after the last word is read with what stands behind it. -/
theorem Parsed.reads_tail (h : d.Parsed) {a r : List Trivia} {t : Trivia} (htail : d.tail = a ++ t :: r) :
    ∃ b b', Trivia.scan? b (t.text.toList ++ charsOf (r.map .trivia)) = some (t.kind, t.text.toList.length) ∧
      t.text.toList ≠ [] ∧ Reads b' (r.map .trivia) := by
  obtain ⟨b, hreads⟩ := (h.proper.parts_eq ▸ h.reads : Reads true (d.body ++ d.tail.map .trivia)).of_append _
  rw [htail, List.map_append] at hreads
  obtain ⟨b', hne, hheads, hrest⟩ := hreads.of_append
  exact ⟨_, _, hheads, hne, hrest⟩

/-- A block comment that nothing closes is the last piece of the text. -/
theorem Parsed.getLast?_of_unclosed (h : d.Parsed) {t : Trivia} (ht : t ∈ d.tail) (hu : Unclosed t.text.toList) :
    d.tail.getLast? = some t ∧ (t.kind = .comment ∨ t.kind = .structured) := by
  obtain ⟨a, r, hsplit⟩ := List.append_of_mem ht
  obtain ⟨b, b', hheads, -, hrest⟩ := h.reads_tail hsplit
  obtain ⟨hnil, hkind⟩ := eq_nil_of_unclosed hu hheads
  obtain rfl : r = [] := List.map_eq_nil_iff.1 ((Piece.charsOf_eq_nil hrest).1 hnil)
  exact ⟨by rw [hsplit, List.getLast?_concat], hkind⟩

/-- A comment or directive that ends in a line break is the last piece of the text. -/
theorem Parsed.eq_nil_of_endsInBreak (h : d.Parsed) {a r : List Trivia} {t : Trivia} (htail : d.tail = a ++ t :: r)
    (ht : t.isBlank = false) {e : Char} (hlast : t.text.toList.getLast? = some e) (he : isBreakChar e = true) :
    r = [] := by
  obtain ⟨b, b', hheads, -, hrest⟩ := h.reads_tail htail
  obtain ⟨hw, hl⟩ := Bool.or_eq_false_iff.1 ht
  have hnil := LayoutLint.eq_nil_of_endsInBreak hheads (beq_eq_false_iff_ne.1 hw) (beq_eq_false_iff_ne.1 hl) hlast he
  exact List.map_eq_nil_iff.1 ((Piece.charsOf_eq_nil hrest).1 hnil)

/-! ### The last character in front of the blanks -/

theorem Proper.getLast?_body (h : d.Proper) {m : Nat} (hm : d.endOfFile = m + 1) :
    (charsOf d.body).getLast? = (d.wordAt m).toList.getLast? := by
  have hne : (d.wordAt m).toList ≠ [] := fun hnil => h.word m (by omega) (String.ext hnil)
  rw [body, hm]
  dsimp only
  rw [← List.append_assoc, Piece.charsOf_append, Piece.charsOf_cons, Piece.charsOf_nil, List.append_nil]
  exact List.getLast?_append_of_ne_nil _ hne

theorem body_eq_nil (h : d.endOfFile = 0) : d.body = [] := by rw [body, h]

theorem Parsed.getLast?_contentChars (h : d.Parsed) {a : List Trivia} {t : Trivia} (hc : d.content = a ++ [t]) :
    d.contentChars.getLast? = t.text.toList.getLast? := by
  have htail : d.tail = a ++ t :: d.blanks := by
    rw [← d.content_append_blanks, hc, List.append_assoc]
    rfl
  obtain ⟨-, -, -, hne, -⟩ := h.reads_tail htail
  rw [contentChars, hc, List.map_append, Piece.charsOf_append, List.map_singleton, Piece.charsOf_cons,
    Piece.charsOf_nil, List.append_nil, ← List.append_assoc]
  exact List.getLast?_append_of_ne_nil _ hne

theorem contentChars_of_nil (hc : d.content = []) : d.contentChars = charsOf d.body := by
  rw [contentChars, hc, List.map_nil, Piece.charsOf_nil, List.append_nil]

/-- What is taken away of the trivia up to the last comment or directive does not reach its end. -/
theorem dropAt_content (d : Document) (hp : PicksRuns last p d.content) :
    (d.content = [] ∧ dropAt p d.content = []) ∨ ∃ a a' t, d.content = a ++ [t] ∧ dropAt p d.content = a' ++ [t] ∧
      t.isBlank = false := by
  rcases List.eq_nil_or_concat d.content with hnil | ⟨a, t, hc⟩
  · exact .inl ⟨hnil, by rw [hnil]; rfl⟩
  · rw [List.concat_eq_append] at hc
    have ht := d.isBlank_getLast?_content t (by rw [hc, List.getLast?_concat]; rfl)
    rw [hc] at hp
    refine .inr ⟨a, dropAt p a, t, hc, ?_, ht⟩
    rw [hc, dropAt_concat t (hp.eq_false (by simp) (Bool.or_eq_false_iff.1 ht).1)]

/-- **Where the blanks at the end start** does not change when white space at the ends of lines is taken away in front
of them. -/
theorem content_of_joinGap (hp : PicksRuns last p d.content) {z : List Trivia} (hz : ∀ t ∈ z, t.isBlank = true)
    (hq : q.tail = joinGap (dropAt p d.content ++ z)) :
    q.content = joinGap (dropAt p d.content) ∧ q.blanks = joinGap z := by
  rcases d.dropAt_content hp with ⟨-, hnil⟩ | ⟨a, a', t, -, hdrop, ht⟩
  · rw [hnil, List.nil_append] at hq
    rw [hnil]
    exact content_blanks_of_append hq (isBlank_joinGap hz) (by simp [joinGap])
  · have heol : t.isEndOfLine = false := (Bool.or_eq_false_iff.1 ht).2
    have hlast : ∀ u ∈ (a' ++ [t]).getLast?, u.isEndOfLine = false := by
      intro u hu
      rw [List.getLast?_concat] at hu
      exact Option.some.inj hu ▸ heol
    rw [hdrop] at hq ⊢
    rw [joinGap_append (.inl hlast)] at hq
    refine content_blanks_of_append hq (isBlank_joinGap hz) fun u hu => ?_
    rw [joinGap_concat (.inl heol), List.getLast?_concat] at hu
    exact Option.some.inj hu ▸ ht

theorem getLast?_contentChars_eq (hd : d.Parsed) (hq : q.Parsed) (heof : q.endOfFile = d.endOfFile)
    (hword : ∀ m, d.endOfFile = m + 1 → q.wordAt m = d.wordAt m) (hp : PicksRuns last p d.content)
    (hc : q.content = joinGap (dropAt p d.content)) : q.contentChars.getLast? = d.contentChars.getLast? := by
  rcases d.dropAt_content hp with ⟨hnil, hdrop⟩ | ⟨a, a', t, hcontent, hdrop, ht⟩
  · rw [hdrop] at hc
    rw [contentChars_of_nil hc, contentChars_of_nil hnil]
    cases hm : d.endOfFile with
    | zero => rw [body_eq_nil hm, body_eq_nil (heof.trans hm)]
    | succ m => rw [hd.proper.getLast?_body hm, hq.proper.getLast?_body (heof.trans hm), hword m hm]
  · rw [hdrop, joinGap_concat (.inl (Bool.or_eq_false_iff.1 ht).2)] at hc
    rw [hd.getLast?_contentChars hcontent, hq.getLast?_contentChars hc]

theorem Parsed.head?_blankChars (h : d.Parsed) {t : Trivia} {r : List Trivia} (hb : d.blanks = t :: r) :
    d.blankChars.head? = t.text.toList.head? := by
  obtain ⟨-, -, -, hne, -⟩ := h.reads_tail (a := d.content) (t := t) (by rw [← d.content_append_blanks, hb])
  rw [blankChars, hb, List.map_cons, Piece.charsOf_cons]
  exact List.head?_append_of_ne_nil _ hne

/-! ### Ends with nothing wrong -/

theorem not_freshEnd_iff : ¬ d.FreshEnd ↔ ∃ c, d.contentChars.getLast? = some c ∧
    (isBreakChar c = false ∨ (c = '\r' ∧ d.blankChars.head? = some '\n')) := by
  rw [FreshEnd, Fresh]
  cases d.contentChars.getLast? with
  | none => simp
  | some c =>
    simp only [Option.mem_some_iff, forall_eq', Option.some.injEq, exists_eq_left', not_and_or, Bool.not_eq_true,
      Classical.not_imp, not_not]

/-- Nothing is wrong with the end of an empty text. -/
theorem Parsed.finalBreak?_of_empty (h : d.Parsed) (hd : d.text = "") : d.finalBreak? = none := by
  have hends := h.endsAs
  generalize d.finalBreak? = b at hends
  cases hends with
  | empty => rfl
  | missing hne => exact absurd hd hne
  | bare => rfl
  | rows hb => exact absurd hd hb.1
  | line => rfl
  | lines hb => exact absurd hd hb.1

/-- **Nothing is wrong with the end when the last word or comment ends in a line break.** -/
theorem Parsed.finalBreak?_of_bare (h : d.Parsed) (hblanks : d.blanks = [])
    (hlast : ∀ c ∈ d.contentChars.getLast?, isBreakChar c = true) : d.finalBreak? = none := by
  have htext : d.text.toList = d.contentChars := by
    rw [h.proper.text_eq_content, blankChars, hblanks, List.map_nil, Piece.charsOf_nil, List.append_nil]
  have hends := h.endsAs
  generalize d.finalBreak? = b at hends
  cases hends with
  | empty => rfl
  | missing hne hb => exact absurd ⟨hne, htext ▸ hlast⟩ hb
  | bare => rfl
  | rows _ _ hne => exact absurd hblanks hne
  | line => rfl
  | lines _ _ hb =>
    rw [hblanks] at hb
    exact absurd hb.symm (List.append_ne_nil_of_right_ne_nil _ (List.cons_ne_nil _ _))

/-- **Nothing is wrong with the end when the last line has its line break and no other one follows.** -/
theorem Parsed.finalBreak?_of_line (h : d.Parsed) {u : List Trivia} {e : Trivia} (hblanks : d.blanks = u ++ [e])
    (hu : ∀ t ∈ u, t.isWhitespace = true) (he : e.isEndOfLine = true) (hfresh : ¬ d.FreshEnd) :
    d.finalBreak? = none := by
  have htail : d.tail = (d.content ++ u) ++ [e] := by rw [← d.content_append_blanks, hblanks, List.append_assoc]
  have hbreak := h.isBreak_of_mem_gap (j := d.endOfFile) (t := e)
    (by rw [show d.gap d.endOfFile = _ from htail]; exact List.mem_append_right _ List.mem_cons_self) he
  have hlast : d.text.toList.getLast? = e.text.toList.getLast? := by
    rw [h.proper.text_eq, htail, List.map_append, Piece.charsOf_append, List.map_singleton, Piece.charsOf_cons,
      Piece.charsOf_nil, List.append_nil, ← List.append_assoc]
    exact List.getLast?_append_of_ne_nil _ hbreak.ne_nil
  have hends := h.endsAs
  generalize d.finalBreak? = b at hends
  cases hends with
  | empty => rfl
  | missing hne hb =>
    refine absurd ⟨hne, fun c hc => ?_⟩ hb
    rw [hlast] at hc
    exact hbreak.all c (List.mem_of_getLast? hc)
  | bare => rfl
  | rows _ hf => exact absurd hf hfresh
  | line => rfl
  | @lines u' r e' _ _ hb _ he' hr =>
    -- The first break would stand in front of the last piece.
    obtain ⟨r', x, rfl⟩ := List.eq_nil_or_concat r |>.resolve_left hr
    rw [hblanks, List.concat_eq_append, ← List.cons_append, ← List.append_assoc] at hb
    obtain ⟨rfl, -⟩ := List.append_inj' hb rfl
    have hw := hu e' (List.mem_append_right _ List.mem_cons_self)
    rw [Trivia.isWhitespace, beq_iff_eq.1 he'] at hw
    cases hw

end Document

end LayoutLint
