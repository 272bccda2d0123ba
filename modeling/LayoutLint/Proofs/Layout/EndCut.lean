import LayoutLint.Proofs.Layout.Ending
/-!
# EndCut — how the end of a text is mended

What is wrong with the end of a text is mended by keeping the trivia after the last word up to some piece, and by a line
break behind it where none is left (`EndCut`). What is kept goes up to the last comment or directive, or up to the break
that ends the last line; all that is cut is blank. There always is such an edit (`finalBreakEdit?_eq`).
-/
namespace LayoutLint

/-- A splice that does something is left in. -/
theorem Splice.mem_filter_isNoop {ss : List Splice} {x : Splice} (hx : x ∈ ss)
    (hdo : x.start < x.stop ∨ x.replacement ≠ []) : x ∈ ss.filter (!·.isNoop) := by
  refine List.mem_filter.2 ⟨hx, ?_⟩
  rw [Bool.not_eq_true', Splice.isNoop, Bool.and_eq_false_iff, decide_eq_false_iff_not, List.isEmpty_eq_false_iff]
  exact hdo.imp_left Nat.not_le.2

namespace Document

variable {d : Document}

/-- The line break put at the end of a text; none when it has no content at all. -/
def endBreak (d : Document) : List Trivia :=
  if d.endOfFile = 0 ∧ d.content = [] then [] else [.endOfLine d.lineBreak]

/-- What is wrong with the end of a text, how many pieces of the trivia after the last word are kept to mend it, and
what is put behind them. -/
inductive EndCut (d : Document) : FinalBreak → Nat → List Trivia → Prop
  | missing : d.text ≠ "" → ¬ d.EndsInBreak →
    EndCut d (.missing ⟨d.gapStart d.endOfFile, d.length⟩) d.content.length d.endBreak
  | rows : d.EndsInBreak → d.FreshEnd → d.blanks ≠ [] →
    EndCut d (.stacked ⟨d.blankStart, d.length⟩) d.content.length d.endBreak
  | lines {u r : List Trivia} {e : Trivia} : d.EndsInBreak → ¬ d.FreshEnd → d.blanks = u ++ e :: r →
    (∀ t ∈ u, t.isWhitespace = true) → e.isEndOfLine = true → r ≠ [] →
    EndCut d (.stacked ⟨d.blankStart + Trivia.listWidth (u ++ [e]), d.length⟩) (d.content.length + (u.length + 1)) []

/-- The splices that keep `keep` pieces of the trivia after the last word and put `added` behind them. -/
def endSplices (d : Document) (keep : Nat) (added : List Trivia) : List Splice :=
  let atEof : List Splice :=
    [⟨d.endOfFile, .leading, keep - d.split d.endOfFile, (d.token d.endOfFile).leading.length, added⟩]
  let splices : List Splice :=
    if d.endOfFile = 0 then atEof
    else if keep ≤ d.split d.endOfFile then
      [⟨d.endOfFile - 1, .trailing, keep, d.split d.endOfFile, added⟩,
        Splice.replaceAll d d.endOfFile .leading []]
    else atEof
  splices.filter (!·.isNoop)

/-- The edit that does this. -/
def endEdit (d : Document) (ruleId : String) (span : Span) (keep : Nat) (added : List Trivia) : Edit :=
  { ruleId, span, splices := d.endSplices keep added }

theorem length_tail (d : Document) : d.content.length + d.blanks.length = d.tail.length := by
  rw [← List.length_append, d.content_append_blanks]

theorem length_content (d : Document) : contentCount d.tail = d.content.length := by
  rw [content, List.length_take, Nat.min_eq_left (contentCount_le _)]

/-- The pieces of a gap that end before one of them starts. -/
theorem Parsed.length_takeWhile_placed (h : d.Parsed) {j : Nat} (hj : j < d.size) {n : Nat}
    (hn : n ≤ (d.gap j).length) :
    ((d.placed j).takeWhile (·.span.stop ≤ d.gapStart j + Trivia.listWidth ((d.gap j).take n))).length = n := by
  have hlen := d.length_placed hj
  have hsplit : d.placed j = (d.placed j).take n ++ (d.placed j).drop n := (List.take_append_drop _ _).symm
  have htake : ∀ x ∈ (d.placed j).take n,
      decide (x.span.stop ≤ d.gapStart j + Trivia.listWidth ((d.gap j).take n)) = true := by
    intro x hx
    obtain ⟨i, hi⟩ := List.mem_iff_getElem?.1 hx
    have hin : i < n := by
      have := (List.getElem?_eq_some_iff.1 hi).1
      rw [List.length_take] at this
      omega
    rw [List.getElem?_take_of_lt hin, d.getElem?_placed hj, Option.map_eq_some_iff] at hi
    obtain ⟨t, ht, rfl⟩ := hi
    rw [decide_eq_true_eq]
    show d.gapStart j + Trivia.listWidth ((d.gap j).take i) + t.width ≤ _
    rw [Nat.add_assoc, ← Trivia.listWidth_take_succ ht]
    have hle := Trivia.listWidth_take_le ((d.gap j).take n) (i + 1)
    rw [List.take_take, Nat.min_eq_left hin] at hle
    exact Nat.add_le_add_left hle _
  rw [hsplit, List.takeWhile_append_of_pos htake, List.length_append, List.length_take, hlen, Nat.min_eq_left hn]
  have hdrop : ((d.placed j).drop n).takeWhile
      (·.span.stop ≤ d.gapStart j + Trivia.listWidth ((d.gap j).take n)) = [] := by
    cases hx : (d.placed j).drop n with
    | nil => rfl
    | cons x l =>
      have hi : (d.placed j)[n]? = some x := by rw [← List.head?_drop, hx]; rfl
      rw [d.getElem?_placed hj, Option.map_eq_some_iff] at hi
      obtain ⟨t, ht, rfl⟩ := hi
      have hpos := h.width_pos (List.mem_of_getElem? ht)
      refine List.takeWhile_cons_of_neg ?_
      rw [decide_eq_true_eq]
      show ¬ d.gapStart j + Trivia.listWidth ((d.gap j).take n) + t.width ≤ _
      omega
  rw [hdrop, List.length_nil, Nat.add_zero]

theorem Proper.contentLength_tailTrivia (h : d.Proper) : contentLength d.tailTrivia = d.content.length := by
  have hs := d.size_eq
  have hj : d.endOfFile < d.size := by omega
  have htake : ((d.placed d.endOfFile).reverse.takeWhile (·.trivia.isBlank)).length =
      (d.tail.reverse.takeWhile Trivia.isBlank).length := by
    rw [tail, ← d.map_trivia_placed hj, ← List.map_reverse, List.takeWhile_map, List.length_map]
    rfl
  rw [← d.length_content, contentCount, contentLength, h.tailTrivia_eq, htake, d.length_placed hj]
  rfl

theorem Proper.length_tailTrivia (h : d.Proper) : d.tailTrivia.length = d.tail.length := by
  have hs := d.size_eq
  rw [h.tailTrivia_eq, d.length_placed (by omega)]
  rfl

/-- How many pieces are kept when the end is mended from the start of one of them on. -/
theorem Parsed.keptAtEnd_eq (h : d.Parsed) {n : Nat} (hn : n ≤ d.tail.length) :
    d.keptAtEnd (d.gapStart d.endOfFile + Trivia.listWidth (d.tail.take n)) = max d.content.length n := by
  have hs := d.size_eq
  have htake := h.length_takeWhile_placed (j := d.endOfFile) (by omega) hn
  rw [keptAtEnd, h.proper.contentLength_tailTrivia, h.proper.tailTrivia_eq]
  exact congrArg (max d.content.length) htake

/-- Is there neither a word nor a comment or directive? -/
theorem Proper.contentFree_eq (h : d.Proper) : (d.lastToken?.isNone && d.tailTrivia.all (·.trivia.isBlank)) =
    decide (d.endOfFile = 0 ∧ d.content = []) := by
  have hs := d.size_eq
  have hj : d.endOfFile < d.size := by omega
  have hall : d.tailTrivia.all (·.trivia.isBlank) = decide (d.content = []) := by
    have hmap : (d.placed d.endOfFile).all (·.trivia.isBlank) = d.tail.all Trivia.isBlank := by
      rw [tail, ← d.map_trivia_placed hj, List.all_map]
      rfl
    rw [h.tailTrivia_eq, hmap, Bool.eq_iff_iff, decide_eq_true_eq, List.all_eq_true]
    constructor
    · intro hb
      exact (content_blanks_of_append (a := []) rfl hb (by simp)).1
    · intro hc t ht
      rw [← d.content_append_blanks, hc] at ht
      exact d.isBlank_of_mem_blanks t ht
  rw [hall, h.lastToken?_eq]
  by_cases he : d.endOfFile = 0 <;> simp [he]

/-- No piece of a gap goes on over the start of another one. -/
theorem any_inside_eq_false (d : Document) {j : Nat} (hj : j < d.size) {n start : Nat}
    (hstart : start = d.gapStart j + Trivia.listWidth ((d.gap j).take n)) (keep : Nat) :
    ((d.placed j).take keep).any (fun t => t.span.start < start && start < t.span.stop) = false := by
  subst hstart
  rw [List.any_eq_false]
  intro x hx
  obtain ⟨i, t, ht, rfl⟩ := (d.mem_placed hj).1 (List.mem_of_mem_take hx)
  rw [Bool.and_eq_true, decide_eq_true_eq, decide_eq_true_eq]
  show ¬ (d.gapStart j + Trivia.listWidth ((d.gap j).take i) < _ ∧
    _ < d.gapStart j + Trivia.listWidth ((d.gap j).take i) + t.width)
  rcases Nat.lt_or_ge i n with hlt | hge
  · have := listWidth_take_mono (d.gap j) (Nat.succ_le_of_lt hlt)
    rw [Trivia.listWidth_take_succ ht] at this
    omega
  · have := listWidth_take_mono (d.gap j) hge
    omega

/-- How many pieces of the trivia after the last word are kept when the end is mended from `start` on. -/
def endKeep (d : Document) (start : Nat) : Nat :=
  if d.endOfFile = 0 ∧ d.content = [] then 0 else d.keptAtEnd start

/-- What is put behind the pieces that are kept. -/
def endAdded (d : Document) (keep : Nat) : List Trivia :=
  if (d.tail.take keep).getLast?.any Trivia.isEndOfLine then [] else d.endBreak

/-- **The edit for the end of a text**, whatever region it is asked for. -/
theorem Proper.finalBreakEdit?_eq_ite (h : d.Proper) (ruleId : String) (span : Span) :
    d.finalBreakEdit? ruleId span =
      if ((d.placed d.endOfFile).take (d.endKeep span.start)).any
        (fun t => t.span.start < span.start && span.start < t.span.stop) then none
      else if d.endKeep span.start = d.tail.length ∧ d.endAdded (d.endKeep span.start) = [] then none
      else some (d.endEdit ruleId span (d.endKeep span.start) (d.endAdded (d.endKeep span.start))) := by
  have hs := d.size_eq
  have hj : d.endOfFile < d.size := by omega
  have hlast : ((d.placed d.endOfFile).take (d.endKeep span.start)).getLast?.any (·.trivia.isEndOfLine) =
      (d.tail.take (d.endKeep span.start)).getLast?.any Trivia.isEndOfLine := by
    rw [tail, ← d.map_trivia_placed hj, ← List.map_take, List.getLast?_map, Option.any_map]
  unfold finalBreakEdit?
  extract_lets tail contentFree keep kept endsWithBreak added eofLength atEof splices
  have hfree : contentFree = decide (d.endOfFile = 0 ∧ d.content = []) := h.contentFree_eq
  have hkeep : keep = d.endKeep span.start := by
    show (if contentFree = true then 0 else d.keptAtEnd span.start) = _
    rw [hfree, endKeep]
    simp only [decide_eq_true_eq]
  have hkept : kept = (d.placed d.endOfFile).take (d.endKeep span.start) := by
    show tail.take keep = _
    rw [show tail = d.placed d.endOfFile from h.tailTrivia_eq, hkeep]
  have hadded : added = d.endAdded (d.endKeep span.start) := by
    show (if (contentFree || kept.getLast?.any (·.trivia.isEndOfLine)) = true then [] else _) = _
    rw [hfree, hkept, hlast, endAdded, endBreak]
    by_cases hc : d.endOfFile = 0 ∧ d.content = []
    · rw [decide_eq_true hc, if_pos hc, ite_self, Bool.true_or]
      rfl
    · rw [decide_eq_false hc, if_neg hc]
      rfl
  have hsplices : splices = if d.endOfFile = 0 then atEof (d.split d.endOfFile)
      else if keep ≤ d.split d.endOfFile then
        [⟨d.endOfFile - 1, .trailing, keep, d.split d.endOfFile, added⟩, Splice.replaceAll d d.endOfFile .leading []]
      else atEof (d.split d.endOfFile) := by
    simp only [splices, h.lastToken?_eq]
    cases d.endOfFile with
    | zero => rfl
    | succ m => rfl
  rw [hkept, show tail.length = d.tail.length from h.length_tailTrivia, hsplices]
  simp only [endEdit, endSplices, hkeep, hadded, atEof, eofLength]

/-- The edit for the end of a text has something to cut or to put. -/
theorem Proper.eq_of_finalBreakEdit? (h : d.Proper) {ruleId : String} {span : Span} {e : Edit}
    (he : d.finalBreakEdit? ruleId span = some e) :
    e = d.endEdit ruleId span (d.endKeep span.start) (d.endAdded (d.endKeep span.start)) ∧
      ¬ (d.endKeep span.start = d.tail.length ∧ d.endAdded (d.endKeep span.start) = []) := by
  rw [h.finalBreakEdit?_eq_ite] at he
  split at he
  · cases he
  · split at he
    · cases he
    · exact ⟨(Option.some.inj he).symm, ‹_›⟩

/-- How many pieces are kept when the end is mended from the start of a piece of trivia on. -/
theorem Parsed.endKeep_of_start (h : d.Parsed) {start n keep : Nat}
    (hstart : start = d.gapStart d.endOfFile + Trivia.listWidth (d.tail.take n)) (hn : n ≤ d.tail.length)
    (hkeep : keep = max d.content.length n) (hfree : d.endOfFile = 0 ∧ d.content = [] → n = 0) :
    d.endKeep start = keep := by
  rw [endKeep, hstart, h.keptAtEnd_eq hn]
  split
  · rename_i hc
    rw [hkeep, hfree hc, hc.2]
    rfl
  · exact hkeep.symm

/-- The edit for the end of a text, when it is to be mended from the start of a piece of trivia on. -/
theorem Parsed.finalBreakEdit?_of_start (h : d.Parsed) (ruleId : String) {span : Span} {n keep : Nat}
    {added : List Trivia} (hspan : span.start = d.gapStart d.endOfFile + Trivia.listWidth (d.tail.take n))
    (hn : n ≤ d.tail.length) (hkeep : keep = max d.content.length n) (hfree : d.endOfFile = 0 ∧ d.content = [] → n = 0)
    (hadded : added = d.endAdded keep) (hdo : keep < d.tail.length ∨ added ≠ []) :
    d.finalBreakEdit? ruleId span = some (d.endEdit ruleId span keep added) := by
  have hs := d.size_eq
  rw [h.proper.finalBreakEdit?_eq_ite, d.any_inside_eq_false (by omega) hspan, if_neg Bool.false_ne_true,
    h.endKeep_of_start hspan hn hkeep hfree, ← hadded, if_neg]
  rintro ⟨hk, ha⟩
  exact hdo.elim (fun h => by omega) fun h => h ha

namespace EndCut

variable {b : FinalBreak} {keep : Nat} {added : List Trivia}

theorem stop (h : d.EndCut b keep added) : b.span.stop = d.length := by
  cases h <;> rfl

theorem take_content (d : Document) : d.tail.take d.content.length = d.content := by
  rw [← d.content_append_blanks, List.take_left]

theorem take_lines {u r : List Trivia} {e : Trivia} (hb : d.blanks = u ++ e :: r) :
    d.tail.take (d.content.length + (u.length + 1)) = d.content ++ (u ++ [e]) := by
  rw [← d.content_append_blanks, hb, List.take_length_add_append, show u ++ e :: r = (u ++ [e]) ++ r by simp,
    show u.length + 1 = (u ++ [e]).length by simp, List.take_left]

/-- The end is mended from the start of a piece of trivia on that is kept, or that is the first one cut. -/
theorem start (h : d.EndCut b keep added) : ∃ n ≤ keep, keep = max d.content.length n ∧
    b.span.start = d.gapStart d.endOfFile + Trivia.listWidth (d.tail.take n) ∧
    (keep < d.tail.length → ¬ d.EndsInBreak ∨ n = keep) := by
  cases h with
  | missing _ hb => exact ⟨0, Nat.zero_le _, (Nat.max_zero _).symm, rfl, fun _ => .inl hb⟩
  | rows =>
    refine ⟨d.content.length, Nat.le_refl _, (Nat.max_self _).symm, ?_, fun _ => .inr rfl⟩
    rw [take_content]
    rfl
  | lines _ _ hb =>
    refine ⟨_, Nat.le_refl _, (Nat.max_eq_right (Nat.le_add_right _ _)).symm, ?_, fun _ => .inr rfl⟩
    rw [take_lines hb, Trivia.listWidth_append _ (_ ++ _), ← Nat.add_assoc]
    rfl

theorem keep_le (h : d.EndCut b keep added) : keep ≤ d.tail.length := by
  have hlen := d.length_tail
  cases h with
  | missing => omega
  | rows => omega
  | lines _ _ hb =>
    rw [hb, List.length_append, List.length_cons] at hlen
    omega

/-- A text that ends in a break has blanks to be cut. -/
theorem keep_lt (h : d.EndCut b keep added) (hb : d.EndsInBreak) : keep < d.tail.length := by
  have hlen := d.length_tail
  cases h with
  | missing _ hb' => exact absurd hb hb'
  | rows _ _ hne =>
    have := List.length_pos_iff.2 hne
    omega
  | lines _ _ hb _ _ hne =>
    have := List.length_pos_iff.2 hne
    rw [hb, List.length_append, List.length_cons] at hlen
    omega

/-- What is cut is blank. -/
theorem blank (h : d.EndCut b keep added) : ∀ t ∈ d.tail.drop keep, t.isBlank = true := by
  have hle : d.content.length ≤ keep := by
    obtain ⟨n, -, hmax, -⟩ := h.start
    omega
  intro t ht
  have hdrop : d.tail.drop keep = d.blanks.drop (keep - d.content.length) := by
    rw [← d.content_append_blanks, List.drop_append, List.drop_eq_nil_of_le hle, List.nil_append]
  rw [hdrop] at ht
  exact d.isBlank_of_mem_blanks t (List.mem_of_mem_drop ht)

theorem added_eq (h : d.EndCut b keep added) : added = [] ∨ added = [.endOfLine d.lineBreak] := by
  have hend : d.endBreak = [] ∨ d.endBreak = [.endOfLine d.lineBreak] := by
    unfold endBreak
    split
    · exact .inl rfl
    · exact .inr rfl
  cases h with
  | missing => exact hend
  | rows => exact hend
  | lines => exact .inl rfl

/-- A break is put where none is left. -/
theorem added_eq_endAdded (h : d.EndCut b keep added) : added = d.endAdded keep := by
  have hcontent : d.content.getLast?.any Trivia.isEndOfLine = false := by
    cases hc : d.content.getLast? with
    | none => rfl
    | some t =>
      have := d.isBlank_getLast?_content t hc
      rw [Trivia.isBlank, Bool.or_eq_false_iff] at this
      exact this.2
  rw [endAdded]
  cases h with
  | missing => rw [take_content, hcontent, if_neg Bool.false_ne_true]
  | rows => rw [take_content, hcontent, if_neg Bool.false_ne_true]
  | lines _ _ hb _ he =>
    rw [take_lines hb, ← List.append_assoc, List.getLast?_concat, Option.any_some, he, if_pos rfl]

/-- There is something to be cut or to be put. -/
theorem keep_lt_or (hd : d.Proper) (h : d.EndCut b keep added) : keep < d.tail.length ∨ added ≠ [] := by
  cases h with
  | missing hne hb =>
    by_cases hfree : d.endOfFile = 0 ∧ d.content = []
    · left
      rw [hfree.2, List.length_nil, List.length_pos_iff]
      intro hnil
      have htext := hd.text_eq
      rw [hnil, body, hfree.1] at htext
      exact hne (String.ext htext)
    · right
      rw [endBreak, if_neg hfree]
      exact List.cons_ne_nil _ _
  | rows hb hf hne => exact .inl (EndCut.keep_lt (.rows hb hf hne) hb)
  | lines hb hf hbl hu he hne => exact .inl (EndCut.keep_lt (.lines hb hf hbl hu he hne) hb)

/-- A text without words, comments and directives is mended from its start on. -/
theorem start_of_free (h : d.EndCut b keep added) (hfree : d.endOfFile = 0 ∧ d.content = []) : keep = 0 := by
  have hlen : d.content.length = 0 := by rw [hfree.2]; rfl
  cases h with
  | missing => exact hlen
  | rows => exact hlen
  | lines _ hf =>
    refine absurd (fun c hc => ?_) hf
    rw [contentChars, hfree.2, body, hfree.1] at hc
    cases hc

end EndCut

/-- **What is wrong with the end of a text can be mended.** -/
theorem Parsed.exists_endCut (h : d.Parsed) {b : FinalBreak} (hb : d.finalBreak? = some b) :
    ∃ keep added, d.EndCut b keep added := by
  have hends := h.endsAs
  rw [hb] at hends
  cases hends with
  | missing hne hnot => exact ⟨_, _, .missing hne hnot⟩
  | rows hbr hf hne => exact ⟨_, _, .rows hbr hf hne⟩
  | lines hbr hf hbl hu he hne => exact ⟨_, _, .lines hbr hf hbl hu he hne⟩

theorem Parsed.endKeep_eq (h : d.Parsed) {b : FinalBreak} {keep : Nat} {added : List Trivia}
    (hc : d.EndCut b keep added) : d.endKeep b.span.start = keep := by
  obtain ⟨n, hn, hkeep, hstart, -⟩ := hc.start
  exact h.endKeep_of_start hstart (Nat.le_trans hn hc.keep_le) hkeep fun hfree =>
    Nat.le_zero.1 (hc.start_of_free hfree ▸ hn)

/-- **The edit for the end of a text.** -/
theorem Parsed.finalBreakEdit?_eq (h : d.Parsed) {b : FinalBreak} {keep : Nat} {added : List Trivia}
    (hc : d.EndCut b keep added) (ruleId : String) :
    d.finalBreakEdit? ruleId b.span = some (d.endEdit ruleId b.span keep added) := by
  obtain ⟨n, hn, hkeep, hstart, -⟩ := hc.start
  exact h.finalBreakEdit?_of_start ruleId hstart (Nat.le_trans hn hc.keep_le) hkeep
    (fun hfree => Nat.le_zero.1 (hc.start_of_free hfree ▸ hn)) hc.added_eq_endAdded (hc.keep_lt_or h.proper)

theorem length_tail_eq (d : Document) :
    d.tail.length = d.split d.endOfFile + (d.token d.endOfFile).leading.length := by
  rw [tail]
  cases d.endOfFile with
  | zero => exact (Nat.zero_add _).symm
  | succ m => exact List.length_append

/-- The edit for the end of a text has something to do. -/
theorem endSplices_ne_nil {keep : Nat} {added : List Trivia} (h : keep < d.tail.length ∨ added ≠ []) :
    d.endSplices keep added ≠ [] := by
  have hlen := d.length_tail_eq
  have hsplit : d.endOfFile = 0 → d.split d.endOfFile = 0 := fun he => by rw [he]; rfl
  unfold endSplices
  dsimp only
  split
  · rename_i he
    refine List.ne_nil_of_mem (Splice.mem_filter_isNoop List.mem_cons_self (h.imp_left fun h => ?_))
    have := hsplit he
    show keep - _ < (d.token d.endOfFile).leading.length
    omega
  · split
    · by_cases hfirst : keep < d.split d.endOfFile ∨ added ≠ []
      · exact List.ne_nil_of_mem (Splice.mem_filter_isNoop List.mem_cons_self hfirst)
      · rw [not_or] at hfirst
        have hlt := h.resolve_right hfirst.2
        refine List.ne_nil_of_mem (Splice.mem_filter_isNoop (List.mem_cons_of_mem _ List.mem_cons_self) (.inl ?_))
        show 0 < (d.token d.endOfFile).leading.length
        omega
    · refine List.ne_nil_of_mem (Splice.mem_filter_isNoop List.mem_cons_self (h.imp_left fun h => ?_))
      show keep - _ < (d.token d.endOfFile).leading.length
      omega

theorem mem_endSplices {keep : Nat} {added : List Trivia} {x : Splice} (hx : x ∈ d.endSplices keep added) :
    (x = ⟨d.endOfFile, .leading, keep - d.split d.endOfFile, (d.token d.endOfFile).leading.length, added⟩ ∧
      (d.endOfFile = 0 ∨ d.split d.endOfFile < keep)) ∨
    (d.endOfFile ≠ 0 ∧ keep ≤ d.split d.endOfFile ∧
      (x = ⟨d.endOfFile - 1, .trailing, keep, d.split d.endOfFile, added⟩ ∨
        x = Splice.replaceAll d d.endOfFile .leading [])) := by
  unfold endSplices at hx
  dsimp only at hx
  have hx := List.mem_of_mem_filter hx
  split at hx
  · rename_i he
    exact .inl ⟨List.mem_singleton.1 hx, .inl he⟩
  · rename_i he
    split at hx
    · rename_i hk
      rw [List.mem_cons, List.mem_singleton] at hx
      exact .inr ⟨he, hk, hx⟩
    · rename_i hk
      exact .inl ⟨List.mem_singleton.1 hx, .inr (Nat.not_le.1 hk)⟩

end Document

end LayoutLint
