import LayoutLint.Proofs.Fix.Reread
import LayoutLint.Proofs.Layout.Ended
/-!
# EndMended — how rounds mend the end of a text

When nothing is wrong with the end of a text nothing is after a round either (`Turn.finalBreak?_of_none`), and when the
edit for the end is made the end is as it should be (`Turn.finalBreak?_of_endsMended`). The second does not hold of a
text that ends in trivia behind a literal which itself ends in a line break: it needs that the end is sound
(`SoundEnd`).
-/
namespace LayoutLint

open Piece (Reads charsOf)

namespace Document

variable {d q : Document} {last : Bool} {p : Nat → Bool}

/-- Nothing follows the last word, or that word does not end in a line break. -/
def SoundEnd (d : Document) : Prop :=
  d.tail = [] ∨ ∀ m, d.endOfFile = m + 1 → ∀ c ∈ (d.wordAt m).toList.getLast?, isBreakChar c = false

/-- A document with the words of another one. -/
def SamePieces (d q : Document) : Prop := q.endOfFile = d.endOfFile ∧ ∀ i < d.endOfFile, q.piece i = d.piece i

theorem SamePieces.wordAt (h : d.SamePieces q) {m : Nat} (hm : d.endOfFile = m + 1) : q.wordAt m = d.wordAt m :=
  (Piece.word.inj (h.2 m (by omega))).2

theorem picksRuns_content (hp : PicksRuns last p d.tail) : PicksRuns true p d.content := by
  rw [← d.content_append_blanks] at hp
  exact hp.of_append fun t ht => (Bool.or_eq_false_iff.1 (d.isBlank_getLast?_content t ht)).1

/-- The blanks that a line ends in, and its break, when white space at the ends of lines is taken away. -/
theorem dropAt_line {u : List Trivia} (e : Trivia) (hu : ∀ t ∈ u, t.isWhitespace = true) (hp : p u.length = false) :
    ∃ u', (∀ t ∈ u', t.isWhitespace = true) ∧ (u = [] → u' = []) ∧
      dropAt p (u ++ [e]) = u' ++ [e] ∧ joinGap (u' ++ [e]) = u' ++ [e] := by
  have hw : ∀ t ∈ dropAt p u, t.isWhitespace = true := fun t ht => hu t (mem_of_mem_dropAt ht)
  have heol : ∀ t ∈ dropAt p u, t.isEndOfLine = false := by
    intro t ht
    rw [Trivia.isEndOfLine, beq_iff_eq.1 (hw t ht)]
    rfl
  refine ⟨dropAt p u, hw, fun h => by rw [h]; rfl, dropAt_concat e hp, ?_⟩
  rw [joinGap_concat (.inr fun t ht => heol t (List.mem_of_getLast? ht)), joinGap_eq_self heol]

/-- **The end stays as it should be**, or becomes so, when of the blanks what is left of the last line is kept with its
break. -/
theorem finalBreak?_of_kept_line (hd : d.Parsed) (hq : q.Parsed) (hsame : d.SamePieces q)
    (hp : PicksRuns last p d.tail) {u r : List Trivia} {e : Trivia} (hblanks : d.blanks = u ++ e :: r)
    (hu : ∀ t ∈ u, t.isWhitespace = true) (he : e.isEndOfLine = true) (hfresh : ¬ d.FreshEnd)
    (hqtail : q.tail = joinGap (dropAt p (d.content ++ (u ++ [e])))) : q.finalBreak? = none := by
  have htail : d.tail = d.content ++ (u ++ e :: r) := by rw [← d.content_append_blanks, hblanks]
  have hpc := picksRuns_content hp
  obtain ⟨u', hu', hnil, hdrop, hjoin⟩ := dropAt_line (p := fun i => p (d.content.length + i)) e hu
    (hp.eq_false (t := e) (by rw [htail]; simp) (by rw [Trivia.isWhitespace, beq_iff_eq.1 he]; rfl))
  rw [dropAt_append, hdrop] at hqtail
  have hz : ∀ t ∈ u' ++ [e], t.isBlank = true := by
    intro t ht
    rcases List.mem_append.1 ht with ht | ht
    · exact Bool.or_eq_true_iff.2 (.inl (hu' t ht))
    · rw [List.mem_singleton.1 ht]
      exact Bool.or_eq_true_iff.2 (.inr he)
  obtain ⟨hcontent, hqblanks⟩ := content_of_joinGap hpc hz hqtail
  rw [hjoin] at hqblanks
  refine hq.finalBreak?_of_line hqblanks hu' he (not_freshEnd_iff.2 ?_)
  obtain ⟨c, hc, hcases⟩ := not_freshEnd_iff.1 hfresh
  rw [getLast?_contentChars_eq hd hq hsame.1 (fun m hm => hsame.wordAt hm) hpc hcontent]
  refine ⟨c, hc, hcases.imp_right fun hlf => ⟨hlf.1, ?_⟩⟩
  have hhead := hlf.2
  -- The LF that belongs to the CR is not behind white space.
  obtain rfl : u = [] := by
    obtain ⟨b, hreads⟩ := hd.reads_blanks
    rw [hblanks, List.map_append] at hreads
    have hunbroken := hreads.unbroken hu
    cases u with
    | nil => rfl
    | cons v u =>
      rw [hd.head?_blankChars hblanks] at hhead
      have hlf := hunbroken '\n' (List.mem_append_left _ (List.mem_of_mem_head? hhead))
      cases hlf
  obtain rfl := hnil rfl
  rw [hd.head?_blankChars hblanks] at hhead
  rwa [hq.head?_blankChars hqblanks]

theorem joinGap_endBreak (d : Document) : joinGap d.endBreak = d.endBreak := by
  rw [endBreak]
  split <;> rfl

/-- **The end is as it should be when all blanks are replaced by a line break**, unless the last word ends in one. -/
theorem finalBreak?_of_endBreak (hd : d.Parsed) (hq : q.Parsed) (hsame : d.SamePieces q)
    (hp : PicksRuns last p d.tail) (hsound : d.content = [] → d.SoundEnd) (hbreak : d.tail = [] → ¬ d.EndsInBreak)
    (hqtail : q.tail = joinGap (dropAt p d.content ++ d.endBreak)) : q.finalBreak? = none := by
  have hpc := picksRuns_content hp
  have hblank : ∀ t ∈ d.endBreak, t.isBlank = true := by
    rw [endBreak]
    split
    · exact fun t ht => absurd ht List.not_mem_nil
    · exact fun t ht => List.mem_singleton.1 ht ▸ rfl
  obtain ⟨hcontent, hqblanks⟩ := content_of_joinGap hpc hblank hqtail
  have hchars := getLast?_contentChars_eq hd hq hsame.1 (fun m hm => hsame.wordAt hm) hpc hcontent
  by_cases hfree : d.endOfFile = 0 ∧ d.content = []
  · refine hq.finalBreak?_of_empty (String.ext ?_)
    rw [endBreak, if_pos hfree] at hqblanks
    rw [hfree.2] at hcontent
    rw [hq.proper.text_eq_content, contentChars_of_nil hcontent, body_eq_nil (hsame.1.trans hfree.1), blankChars,
      hqblanks]
    rfl
  · rw [endBreak, if_neg hfree] at hqblanks
    refine hq.finalBreak?_of_line (u := []) hqblanks (fun t ht => absurd ht List.not_mem_nil) rfl
      (not_freshEnd_iff.2 ?_)
    rw [hchars]
    rcases d.dropAt_content hpc with ⟨hnil, -⟩ | ⟨a, a', t, hc, hdrop, ht⟩
    · -- The last word is the last thing in front of the break.
      obtain ⟨m, hm⟩ := Nat.exists_eq_succ_of_ne_zero fun h0 => hfree ⟨h0, hnil⟩
      rw [contentChars_of_nil hnil, hd.proper.getLast?_body hm]
      have hne : (d.wordAt m).toList ≠ [] := fun hw => hd.proper.word m (by omega) (String.ext hw)
      have hlast := List.getLast?_eq_some_getLast hne
      refine ⟨_, hlast, .inl ?_⟩
      rcases hsound hnil with htail | hword
      · have htext : d.text.toList.getLast? = (d.wordAt m).toList.getLast? := by
          rw [hd.proper.text_eq, htail, List.map_nil, Piece.charsOf_nil, List.append_nil, hd.proper.getLast?_body hm]
        refine Bool.eq_false_iff.2 fun hc => hbreak htail ⟨fun hempty => ?_, fun c hc' => ?_⟩
        · rw [hempty, hlast] at htext
          cases htext
        · rw [htext, hlast] at hc'
          exact Option.some.inj hc' ▸ hc
      · exact hword m hm _ hlast
    · -- A comment or directive that something follows does not end in a break.
      rw [hdrop, joinGap_concat (.inl (Bool.or_eq_false_iff.1 ht).2)] at hcontent
      have hqtail' : q.tail = joinGap a' ++ t :: [.endOfLine d.lineBreak] := by
        rw [← q.content_append_blanks, hcontent, hqblanks, List.append_assoc]
        rfl
      obtain ⟨-, -, -, hne, -⟩ := hq.reads_tail hqtail'
      have hlast := List.getLast?_eq_some_getLast hne
      rw [hd.getLast?_contentChars hc]
      refine ⟨_, hlast, .inl (Bool.eq_false_iff.2 fun hbreak => ?_)⟩
      exact absurd (hq.eq_nil_of_endsInBreak hqtail' ht hlast hbreak) (List.cons_ne_nil _ _)

end Document

namespace Registry

variable {R : Registry} {c : RuleContext} {S : List Edit} {q : Document}

/-- The edit for the end of the text is made. -/
def EndsMended (R : Registry) (c : RuleContext) (S : List Edit) : Prop :=
  ∃ b keep added, R.Has .finalNewline ∧ c.document.finalBreak? = some b ∧ c.document.EndCut b keep added ∧
    c.document.endEdit Rule.finalNewline.id b.span keep added ∈ S

/-- What is planned for the end of the text. -/
theorem Plan.at_end {keep : Nat} {added : List Trivia} (h : R.Plan c S c.document.endOfFile keep added) :
    (∃ b, R.Has .finalNewline ∧ c.document.finalBreak? = some b ∧ c.document.EndCut b keep added ∧
      c.document.endEdit Rule.finalNewline.id b.span keep added ∈ S) ∨
    (keep = c.document.tail.length ∧ added = [] ∧ ¬ R.EndsMended c S) := by
  generalize hj : c.document.endOfFile = j at h
  cases h with
  | contract _ hlt => omega
  | final hr hb hcut he => exact .inl ⟨_, hr, hb, hcut, he⟩
  | free _ hfree =>
    subst hj
    exact .inr ⟨rfl, rfl, fun ⟨b, keep, added, hr, hb, hcut, he⟩ => hfree rfl b keep added hr hb hcut he⟩

/-- A line break is put at the end only by the edit for the end. -/
theorem Plan.endsMended {keep : Nat} {added : List Trivia} (h : R.Plan c S c.document.endOfFile keep added)
    (hne : added ≠ []) : R.EndsMended c S := by
  rcases h.at_end with ⟨b, hr, hb, hcut, he⟩ | ⟨-, hadded, -⟩
  · exact ⟨b, keep, added, hr, hb, hcut, he⟩
  · exact absurd hadded hne

/-- The end of a text for which no edit is made. -/
theorem Turn.tail_of_not_endsMended (h : R.Turn c S q) (hend : ¬ R.EndsMended c S) : c.document.SamePieces q ∧
    q.tail = joinGap (dropAt (c.document.takesRun S c.document.endOfFile) c.document.tail) := by
  cases h.last with
  | plain hplan hpieces htail =>
    rcases hplan.at_end with ⟨b, hr, hb, hcut, he⟩ | ⟨rfl, rfl, -⟩
    · exact absurd ⟨b, _, _, hr, hb, hcut, he⟩ hend
    · refine ⟨⟨h.endOfFile, hpieces⟩, ?_⟩
      rw [htail, Document.left, List.append_nil]
      exact congrArg (fun g => joinGap (dropAt _ g)) List.take_length
  | literal _ _ hplan => exact absurd (hplan.endsMended (List.cons_ne_nil _ _)) hend
  | comment _ hplan => exact absurd (hplan.endsMended (List.cons_ne_nil _ _)) hend

theorem EndsMended.exists_finalBreak? (h : R.EndsMended c S) : c.document.finalBreak? ≠ none := by
  obtain ⟨b, -, -, -, hb, -⟩ := h
  rw [hb]
  exact Option.some_ne_none b

/-- **A round leaves an end with which nothing is wrong as it should be.** -/
theorem Turn.finalBreak?_of_none (h : R.Turn c S q) (hS : R.Batch c S) (hd : c.document.Parsed)
    (ht : SyntaxTree.ofDocument? c.document = some c.tree) (hnone : c.document.finalBreak? = none) :
    q.finalBreak? = none := by
  obtain ⟨hsame, htail⟩ := h.tail_of_not_endsMended fun hend => hend.exists_finalBreak? hnone
  have hpicks := hS.picksRuns hd ht c.document.endOfFile
  have hends := hd.endsAs
  rw [hnone] at hends
  generalize hb : (none : Option FinalBreak) = b at hends
  cases hends with
  | empty htext =>
    have hparts : c.document.parts = [] :=
      (Piece.charsOf_eq_nil hd.reads).1 (by rw [Document.charsOf_parts, htext]; rfl)
    rw [hd.proper.parts_eq, List.append_eq_nil_iff, List.map_eq_nil_iff] at hparts
    rw [hparts.2] at htail
    have heof : c.document.endOfFile = 0 := by
      cases hm : c.document.endOfFile with
      | zero => rfl
      | succ m =>
        have hword := hd.proper.getLast?_body hm
        rw [hparts.1, Piece.charsOf_nil] at hword
        exact absurd (String.ext (List.getLast?_eq_none_iff.1 hword.symm)) (hd.proper.word m (by omega))
    refine h.parsed.finalBreak?_of_empty (String.ext ?_)
    rw [h.parsed.proper.text_eq, htail, Document.body_eq_nil (h.endOfFile.trans heof)]
    rfl
  | bare hbreak hblanks =>
    have hcontent : c.document.tail = c.document.content := by
      rw [← c.document.content_append_blanks, hblanks, List.append_nil]
    rw [hcontent, ← List.append_nil (dropAt _ _)] at htail
    obtain ⟨hqc, hqb⟩ := Document.content_of_joinGap (Document.picksRuns_content hpicks)
      (fun t ht => absurd ht List.not_mem_nil) htail
    refine h.parsed.finalBreak?_of_bare hqb ?_
    rw [Document.getLast?_contentChars_eq hd h.parsed hsame.1 (fun m hm => hsame.wordAt hm)
      (Document.picksRuns_content hpicks) hqc]
    have htext := hd.proper.text_eq_content
    rw [Document.blankChars, hblanks, List.map_nil, Piece.charsOf_nil, List.append_nil] at htext
    exact htext ▸ hbreak.2
  | line _ hfresh hblanks hu he =>
    refine Document.finalBreak?_of_kept_line hd h.parsed hsame hpicks hblanks hu he hfresh ?_
    rw [htail, ← hblanks, Document.content_append_blanks]
  | _ => cases hb

/-- **The edit for the end of a text leaves the end as it should be**, unless trivia stands behind a last word that ends
in a line break itself. -/
theorem Turn.finalBreak?_of_endsMended (h : R.Turn c S q) (hS : R.Batch c S) (hd : c.document.Parsed)
    (ht : SyntaxTree.ofDocument? c.document = some c.tree) (hend : R.EndsMended c S) :
    q.finalBreak? = none ∨ (¬ c.document.SoundEnd ∧ q.tail = c.document.endBreak) := by
  have hpicks := hS.picksRuns hd ht c.document.endOfFile
  cases h.last with
  | plain hplan hpieces htail =>
    have hsame : c.document.SamePieces q := ⟨h.endOfFile, hpieces⟩
    -- All blanks are replaced by a line break.
    have hreplaced : (c.document.tail = [] → ¬ c.document.EndsInBreak) → q.tail =
        joinGap (dropAt (c.document.takesRun S c.document.endOfFile) c.document.content ++ c.document.endBreak) →
        q.finalBreak? = none ∨ (¬ c.document.SoundEnd ∧ q.tail = c.document.endBreak) := by
      intro hbreak hqtail
      by_cases hsound : c.document.content = [] → c.document.SoundEnd
      · exact .inl (Document.finalBreak?_of_endBreak hd h.parsed hsame hpicks hsound hbreak hqtail)
      · obtain ⟨hnil, hnot⟩ := Classical.not_imp.1 hsound
        rw [hnil] at hqtail
        exact .inr ⟨hnot, hqtail.trans c.document.joinGap_endBreak⟩
    rcases hplan.at_end with ⟨b, -, -, hcut, -⟩ | ⟨-, -, hnot⟩
    · have hleft : ∀ {keep : Nat} {added : List Trivia}, c.document.left S c.document.endOfFile keep added =
          dropAt (c.document.takesRun S c.document.endOfFile) (c.document.tail.take keep) ++ added := rfl
      rw [hleft] at htail
      cases hcut with
      | missing _ hbreak =>
        rw [Document.EndCut.take_content] at htail
        exact hreplaced (fun _ => hbreak) htail
      | rows _ _ hblanks =>
        rw [Document.EndCut.take_content] at htail
        refine hreplaced (fun hnil => absurd ?_ hblanks) htail
        have happend := c.document.content_append_blanks
        rw [hnil] at happend
        exact (List.append_eq_nil_iff.1 happend).2
      | lines _ hfresh hblanks hu he =>
        rw [Document.EndCut.take_lines hblanks, List.append_nil] at htail
        exact .inl (Document.finalBreak?_of_kept_line hd h.parsed hsame hpicks hblanks hu he hfresh htail)
    · exact absurd hend hnot
  | @literal m x rest hm _ _ _ htaken _ hpiece hqtail =>
    obtain ⟨a, hlast, ha, hcr⟩ := htaken.getLast?_append hd.isBreak_lineBreak (c.document.wordAt m)
    rw [← show q.wordAt m = _ from (Piece.word.inj hpiece).2,
      ← h.parsed.proper.getLast?_body (h.endOfFile.trans hm)] at hlast
    have hblank : ∀ t ∈ rest, t.isBlank = true := by
      rcases htaken.rest_eq with rfl | rfl
      · exact fun t ht => absurd ht List.not_mem_nil
      · exact fun t ht => List.mem_singleton.1 ht ▸ rfl
    obtain ⟨hqc, hqb⟩ := Document.content_blanks_of_append (a := []) hqtail hblank fun t ht => nomatch ht
    rw [← Document.contentChars_of_nil hqc] at hlast
    refine .inl ?_
    rcases htaken.rest_eq with rfl | rfl
    · refine h.parsed.finalBreak?_of_bare hqb fun e he => ?_
      rw [hlast] at he
      exact Option.some.inj he ▸ ha
    · exact h.parsed.finalBreak?_of_line (u := []) hqb (fun t ht => absurd ht List.not_mem_nil) rfl
        (Document.not_freshEnd_iff.2 ⟨a, hlast, .inr ⟨hcr (List.cons_ne_nil _ _), h.parsed.head?_blankChars hqb⟩⟩)
  | @comment g t x rest hlast _ _ hopen htaken _ hqtail =>
    have hkind := (hd.getLast?_of_unclosed (List.mem_of_getLast? hlast) hopen).2
    have hblank : (⟨t.kind, t.text ++ String.ofList x⟩ : Trivia).isBlank = false := by
      rcases hkind with hk | hk <;> rw [Trivia.isBlank, Trivia.isWhitespace, Trivia.isEndOfLine, hk] <;> rfl
    obtain ⟨a, hlast', ha, -⟩ := htaken.getLast?_append hd.isBreak_lineBreak t.text
    obtain rfl := h.parsed.eq_nil_of_endsInBreak hqtail hblank hlast' ha
    rw [← List.append_nil (g ++ _)] at hqtail
    obtain ⟨hqc, hqb⟩ := Document.content_blanks_of_append hqtail
      (fun t ht => absurd ht List.not_mem_nil) fun u hu => by
      rw [List.getLast?_concat] at hu
      exact Option.some.inj hu ▸ hblank
    refine .inl (h.parsed.finalBreak?_of_bare hqb fun e he => ?_)
    rw [h.parsed.getLast?_contentChars hqc, hlast'] at he
    exact Option.some.inj he ▸ ha

end Registry

end LayoutLint
