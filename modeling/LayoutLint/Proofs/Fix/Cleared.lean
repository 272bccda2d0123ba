import LayoutLint.Proofs.Fix.EndMended
import LayoutLint.Proofs.Fix.Preserved
/-!
# Cleared — two rounds clear gaps and line ends

A selection is one to which no edit for the text can be added (`Maximal`). So a gap that a rule wants in line with a
contract is so after one round, unless white space at the ends of its lines was taken away instead; it is trimmed then,
and in line after the next round. Of what follows the last word white space at the ends of lines is left by one round
only when the text did not end in a line break; the end is mended then, and the next round leaves none.
-/
namespace LayoutLint

namespace Document

variable {d : Document} {j : Nat}

/-- No white space stands at the end of a line in the gap in front of token `j`. -/
def TrimmedAt (d : Document) (j : Nat) : Prop := Trimmed (j == d.endOfFile) (d.gap j)

theorem trimmedAt_iff (hj : j < d.size) : d.TrimmedAt j ↔ ∀ i t, ¬ d.IsRun j i t := by
  refine trimmed_iff.trans ⟨fun h i t hrun => ?_, fun h i t ht => Bool.eq_false_iff.2 fun hrun => h i t ⟨hj, ht, hrun⟩⟩
  exact absurd ((h i t hrun.piece).symm.trans hrun.ends) Bool.false_ne_true

theorem beq_endOfFile (hj : j < d.endOfFile) : (j == d.endOfFile) = false := beq_eq_false_iff_ne.2 (Nat.ne_of_lt hj)

theorem trimmedAt_endOfFile : d.TrimmedAt d.endOfFile ↔ Trimmed true d.tail := by
  rw [TrimmedAt, beq_self_eq_true]
  rfl

end Document

namespace Registry

variable {R : Registry} {c : RuleContext} {S : List Edit} {q : Document}

/-- Edits that can be made together, and to which no other edit for what is broken can be added. -/
structure Maximal (R : Registry) (c : RuleContext) (S : List Edit) : Prop where
  batch : R.Batch c S
  waits : ∀ e, R.Mends c e → e ∈ S ∨ ∃ f ∈ S, f.conflictsWith e = true

/-- **A selection of the edits for a text is maximal.** -/
theorem maximal_selectClear (hR : R.Builtin) (hd : c.document.Parsed)
    (ht : SyntaxTree.ofDocument? c.document = some c.tree) (hc : c.cancelled = false) {vs : List Violation}
    (hvs : R.analyze c = .ok vs) : R.Maximal c (selectClear (vs.filterMap (R.editFor? c.document))).1 where
  batch := ⟨fun e he => mends_of_mem_edits hR hd ht hvs ((mem_selectClear _ e).2 (.inl he)), allClear_selectClear _⟩
  waits e he := by
    rcases (mem_selectClear _ e).1 ((mem_edits hR hd ht hc hvs).2 he) with hsel | hdef
    · exact .inl hsel
    · exact .inr (exists_of_mem_deferred hdef)

/-- A gap is wanted in line with one contract only. -/
theorem Wants.contract_eq (hd : c.document.Parsed) (ht : SyntaxTree.ofDocument? c.document = some c.tree)
    {k k' : GapContract} {id id' : String} {j : Nat} (h : R.Wants c.tree k id j) (h' : R.Wants c.tree k' id' j) :
    k' = k := by
  obtain ⟨opens, hopens⟩ := hd.gaps_of_tree ht
  obtain ⟨-, -, -, -, n, hn, -, hg⟩ := h
  obtain ⟨-, -, -, -, n', hn', -, hg'⟩ := h'
  have hk := (hopens n hn _ _ _ hg).2
  have hk' := (hopens n' hn' _ _ _ hg').2
  cases k <;> cases k' <;> first | rfl | exact (hk.2 (hk'.1 rfl)).symm | exact hk'.2 (hk.1 rfl)

namespace Maximal

/-- White space at the end of a line is taken away, unless the gap is brought in line with a contract or it is cut off
at the end of the text. -/
theorem run (h : R.Maximal c S) (hd : c.document.Parsed) (ht : SyntaxTree.ofDocument? c.document = some c.tree)
    (hr : R.Has .noTrailingWhitespace) {j i : Nat} {t : Trivia} (hrun : c.document.IsRun j i t) :
    c.document.runEdit j i t ∈ S ∨
      (∃ k id l, j = l + 1 ∧ R.Wants c.tree k id l ∧ c.document.gap (l + 1) ≠ k.trailing ∧
        c.document.gapEdit k id l ∈ S) ∨
      (j = c.document.endOfFile ∧ ∃ b keep added, R.Has .finalNewline ∧ c.document.finalBreak? = some b ∧
        c.document.EndCut b keep added ∧ c.document.endEdit Rule.finalNewline.id b.span keep added ∈ S ∧
        (c.document.runEdit j i t).conflictsWith
          (c.document.endEdit Rule.finalNewline.id b.span keep added) = true) := by
  have hwithin := c.document.within_runEdit hrun.gap hrun.piece
  rcases h.waits _ (.run hr hrun) with hmem | ⟨f, hf, hconf⟩
  · exact .inl hmem
  rw [Edit.conflictsWith_comm] at hconf
  cases h.batch.mends f hf with
  | @gap k id l hw hb =>
    have hs := c.document.size_eq
    have hlt := hw.lt hd ht
    by_cases hj : j = l + 1
    · exact .inr (.inl ⟨k, id, l, hj, hw, hb, hf⟩)
    · rw [hwithin.conflictsWith (c.document.within_gapEdit k id (by omega)) hd.proper hj] at hconf
      cases hconf
  | @run j' i' t' _ hrun' =>
    by_cases hj : j = j'
    · subst hj
      by_cases hi : i = i'
      · subst hi
        obtain rfl := Option.some.inj (hrun.piece.symm.trans hrun'.piece)
        exact .inl hf
      · rw [hd.runEdit_conflictsWith_runEdit hrun.piece hrun'.piece hi] at hconf
        cases hconf
    · rw [hwithin.conflictsWith (c.document.within_runEdit hrun'.gap hrun'.piece) hd.proper hj] at hconf
      cases hconf
  | @final b keep added hfinal hb hcut =>
    by_cases hj : j = c.document.endOfFile
    · exact .inr (.inr ⟨hj, b, keep, added, hfinal, hb, hcut, hf, hconf⟩)
    · rw [hwithin.conflictsWith (hcut.within hd.proper _) hd.proper hj] at hconf
      cases hconf

/-- A broken contract is mended, unless white space at the end of a line in the gap is taken away. -/
theorem gap (h : R.Maximal c S) (hd : c.document.Parsed) (ht : SyntaxTree.ofDocument? c.document = some c.tree)
    {k : GapContract} {id : String} {j : Nat} (hw : R.Wants c.tree k id j) (hb : c.document.gap (j + 1) ≠ k.trailing) :
    (∃ k' id', R.Wants c.tree k' id' j ∧ c.document.gap (j + 1) ≠ k'.trailing ∧ c.document.gapEdit k' id' j ∈ S) ∨
      (R.Has .noTrailingWhitespace ∧ ∃ i t, c.document.IsRun (j + 1) i t) := by
  have hs := c.document.size_eq
  have hlt := hw.lt hd ht
  have hwithin := c.document.within_gapEdit k id (j := j) (by omega)
  rcases h.waits _ (.gap hw hb) with hmem | ⟨f, hf, hconf⟩
  · exact .inl ⟨k, id, hw, hb, hmem⟩
  rw [Edit.conflictsWith_comm] at hconf
  cases h.batch.mends f hf with
  | @gap k' id' l hw' hb' =>
    have hlt' := hw'.lt hd ht
    by_cases hj : j + 1 = l + 1
    · obtain rfl := Nat.succ.inj hj
      exact .inl ⟨k', id', hw', hb', hf⟩
    · rw [hwithin.conflictsWith (c.document.within_gapEdit k' id' (by omega)) hd.proper hj] at hconf
      cases hconf
  | @run j' i t hr hrun =>
    by_cases hj : j + 1 = j'
    · exact .inr ⟨hr, i, t, hj ▸ hrun⟩
    · rw [hwithin.conflictsWith (c.document.within_runEdit hrun.gap hrun.piece) hd.proper hj] at hconf
      cases hconf
  | final _ _ hcut =>
    rw [hwithin.conflictsWith (hcut.within hd.proper _) hd.proper (Nat.ne_of_lt hlt)] at hconf
    cases hconf

end Maximal

/-- All white space at the ends of lines in a gap is taken away, when the gap is not brought in line with a contract,
and none of it is cut off at the end of the text. -/
theorem Maximal.takesRun (h : R.Maximal c S) (hd : c.document.Parsed)
    (ht : SyntaxTree.ofDocument? c.document = some c.tree) (hr : R.Has .noTrailingWhitespace) {j i : Nat} {t : Trivia}
    (hrun : c.document.IsRun j i t)
    (hgap : ∀ k id l, j = l + 1 → R.Wants c.tree k id l → c.document.gap (l + 1) ≠ k.trailing →
      c.document.gapEdit k id l ∉ S)
    (hend : j = c.document.endOfFile → ∀ b keep added, R.Has .finalNewline → c.document.finalBreak? = some b →
      c.document.EndCut b keep added → c.document.endEdit Rule.finalNewline.id b.span keep added ∈ S →
      (c.document.runEdit j i t).conflictsWith (c.document.endEdit Rule.finalNewline.id b.span keep added) = false) :
    c.document.takesRun S j i = true := by
  rcases h.run hd ht hr hrun with hmem | ⟨k, id, l, hj, hw, hb, he⟩ | ⟨hj, b, keep, added, hfinal, hb, hcut, he, hconf⟩
  · exact Document.takesRun_iff.2 ⟨t, hrun.piece, hmem⟩
  · exact absurd he (hgap k id l hj hw hb)
  · rw [hend hj b keep added hfinal hb hcut he] at hconf
    cases hconf

/-- What is left of a gap that nothing else is done to. -/
theorem Maximal.trimmed_free (h : R.Maximal c S) (hd : c.document.Parsed)
    (ht : SyntaxTree.ofDocument? c.document = some c.tree) (hr : R.Has .noTrailingWhitespace) {j : Nat}
    (hj : j < c.document.size)
    (hgap : ∀ k id l, j = l + 1 → R.Wants c.tree k id l → c.document.gap (l + 1) ≠ k.trailing →
      c.document.gapEdit k id l ∉ S)
    (hend : j = c.document.endOfFile → ∀ b keep added, R.Has .finalNewline → c.document.finalBreak? = some b →
      c.document.EndCut b keep added → c.document.endEdit Rule.finalNewline.id b.span keep added ∉ S) :
    Trimmed (j == c.document.endOfFile) (dropAt (c.document.takesRun S j) (c.document.gap j)) :=
  trimmed_dropAt (hd.apart j) (h.batch.picksRuns hd ht j) fun _ _ hti hrun =>
    h.takesRun hd ht hr ⟨hj, hti, hrun⟩ hgap fun hj b keep added hfinal hb hcut he =>
      absurd he (hend hj b keep added hfinal hb hcut)

/-! ### Gaps between words -/

/-- After a round no white space stands at the ends of lines in a gap between words. -/
theorem Turn.trimmedAt (h : R.Turn c S q) (hS : R.Maximal c S) (hd : c.document.Parsed)
    (ht : SyntaxTree.ofDocument? c.document = some c.tree) (hr : R.Has .noTrailingWhitespace) {j : Nat}
    (hj : j < c.document.endOfFile) : q.TrimmedAt j := by
  have hs := c.document.size_eq
  obtain ⟨keep, added, hplan, hgap⟩ := h.gap j hj
  rw [Document.TrimmedAt, h.endOfFile, hgap]
  refine Trimmed.joinGap ?_
  cases hplan with
  | @contract k =>
    rw [Document.beq_endOfFile hj]
    exact trimmed_contract k
  | final => exact absurd hj (Nat.lt_irrefl _)
  | free hfree hend =>
    rw [Document.left, List.take_length, List.append_nil]
    exact hS.trimmed_free hd ht hr (by omega) hfree hend

theorem joinGap_contract (k : GapContract) : joinGap k.trailing = k.trailing := by cases k <;> rfl

/-- **After a round a gap is in line with its contract, unless it was not trimmed.** -/
theorem Turn.wanted (h : R.Turn c S q) (hS : R.Maximal c S) (hd : c.document.Parsed)
    (ht : SyntaxTree.ofDocument? c.document = some c.tree) {k : GapContract} {id : String} {j : Nat}
    (hw : R.Wants c.tree k id j) : q.gap (j + 1) = k.trailing ∨
      (R.Has .noTrailingWhitespace ∧ ¬ c.document.TrimmedAt (j + 1)) := by
  have hs := c.document.size_eq
  have hlt := hw.lt hd ht
  obtain ⟨keep, added, hplan, hgap⟩ := h.gap (j + 1) hlt
  rw [hgap]
  generalize hj : j + 1 = l at hplan
  cases hplan with
  | @contract k' _ _ hw' =>
    obtain rfl := Nat.succ.inj hj
    rw [hw.contract_eq hd ht hw']
    exact .inl (joinGap_contract k)
  | final => omega
  | free hfree =>
    subst hj
    by_cases hb : c.document.gap (j + 1) = k.trailing
    · -- Nothing is taken out of what the contract puts in the gap.
      have hpicks := hS.batch.picksRuns hd ht (j + 1)
      rw [Document.beq_endOfFile hlt] at hpicks
      have hdrop := Trimmed.dropAt_eq (hb ▸ trimmed_contract k) hpicks
      rw [Document.left, List.take_length, List.append_nil, hdrop, hd.joinGap_gap, hb]
      exact .inl rfl
    · rcases hS.gap hd ht hw hb with ⟨k', id', hw', hb', he⟩ | ⟨hr, i, t, hrun⟩
      · exact absurd he (hfree k' id' j rfl hw' hb')
      · exact .inr ⟨hr, fun htrimmed => (Document.trimmedAt_iff (by omega)).1 htrimmed i t hrun⟩

/-! ### The end of the text -/

theorem trimmed_endBreak (last : Bool) (d : Document) : Trimmed last d.endBreak := by
  rw [Document.endBreak]
  split
  · trivial
  · exact trimmed_endOfLine last _

/-- What is kept of the trivia after the last word does not end in white space. -/
theorem getLast?_kept {d : Document} {b : FinalBreak} {keep : Nat} {added : List Trivia} (h : d.EndCut b keep added) :
    ∀ t ∈ (d.tail.take keep).getLast?, t.isWhitespace = false := by
  have hcontent : ∀ t ∈ d.content.getLast?, t.isWhitespace = false := fun t ht =>
    (Bool.or_eq_false_iff.1 (d.isBlank_getLast?_content t ht)).1
  cases h with
  | missing => rwa [Document.EndCut.take_content]
  | rows => rwa [Document.EndCut.take_content]
  | @lines u r e _ _ hblanks _ he =>
    rw [Document.EndCut.take_lines hblanks, ← List.append_assoc]
    intro t ht
    rw [List.getLast?_concat] at ht
    rw [Trivia.isWhitespace, ← Option.some.inj ht, beq_iff_eq.1 he]
    rfl

/-- The trivia after the last word when nothing is cut there. -/
theorem Turn.trimmed_tail_of_not_endsMended (h : R.Turn c S q) (hS : R.Maximal c S) (hd : c.document.Parsed)
    (ht : SyntaxTree.ofDocument? c.document = some c.tree) (hr : R.Has .noTrailingWhitespace)
    (hend : ¬ R.EndsMended c S) : Trimmed true q.tail := by
  have hs := c.document.size_eq
  rw [(h.tail_of_not_endsMended hend).2]
  have htrimmed := hS.trimmed_free hd ht hr (j := c.document.endOfFile) (by omega)
    (fun k id l hl hw => absurd (hw.lt hd ht) (by omega))
    fun _ b keep added hfinal hb hcut he => hend ⟨b, keep, added, hfinal, hb, hcut, he⟩
  rw [beq_self_eq_true] at htrimmed
  exact htrimmed.joinGap

/-- **After a round no white space is left at the ends of lines behind the last word, or the end of the text is as it
should be.** -/
theorem Turn.trimmed_tail_or (h : R.Turn c S q) (hS : R.Maximal c S) (hd : c.document.Parsed)
    (ht : SyntaxTree.ofDocument? c.document = some c.tree) (hr : R.Has .noTrailingWhitespace) :
    Trimmed true q.tail ∨ q.finalBreak? = none := by
  by_cases hend : R.EndsMended c S
  · rcases h.finalBreak?_of_endsMended hS.batch hd ht hend with hnone | ⟨-, htail⟩
    · exact .inr hnone
    · exact .inl (htail ▸ trimmed_endBreak true c.document)
  · exact .inl (h.trimmed_tail_of_not_endsMended hS hd ht hr hend)

/-- **After another round no white space is left at the ends of lines behind the last word.** -/
theorem Turn.trimmed_tail (h : R.Turn c S q) (hS : R.Maximal c S) (hd : c.document.Parsed)
    (ht : SyntaxTree.ofDocument? c.document = some c.tree) (hr : R.Has .noTrailingWhitespace)
    (hprev : Trimmed true c.document.tail ∨ c.document.finalBreak? = none) : Trimmed true q.tail := by
  by_cases hend : R.EndsMended c S
  · have hprev := hprev.resolve_right hend.exists_finalBreak?
    have hpicks := hS.batch.picksRuns hd ht c.document.endOfFile
    rw [beq_self_eq_true] at hpicks
    cases h.last with
    | @plain keep added hplan _ htail =>
      rcases hplan.at_end with ⟨b, -, -, hcut, -⟩ | ⟨-, -, hnot⟩
      · have hsplit : c.document.tail.take keep ++ c.document.tail.drop keep = c.document.tail :=
          List.take_append_drop _ _
        have hpicks' : PicksRuns true (c.document.takesRun S c.document.endOfFile)
            (c.document.tail.take keep ++ c.document.tail.drop keep) := by rwa [hsplit]
        have hapart : Apart (c.document.tail.take keep ++ c.document.tail.drop keep) := by
          rw [hsplit]
          exact hd.apart c.document.endOfFile
        have hkept := trimmed_dropAt_of_append hapart hpicks' (getLast?_kept hcut) fun i _ t hti hrun => by
          rw [hsplit] at hti hrun
          rw [trimmed_iff.1 hprev i t hti] at hrun
          cases hrun
        have hadded : Trimmed true added := by
          rcases hcut.added_eq with rfl | rfl
          · trivial
          · exact trimmed_endOfLine true _
        rw [htail, Document.left]
        exact (hkept.append hadded).joinGap
      · exact absurd hend hnot
    | literal _ _ _ _ htaken _ _ htail =>
      rw [htail]
      rcases htaken.rest_eq with rfl | rfl
      · trivial
      · exact trimmed_endOfLine true _
    | @comment g t x rest hlast _ hjoin hopen htaken _ htail =>
      have hw : t.isWhitespace = false := by
        rcases (hd.getLast?_of_unclosed (List.mem_of_getLast? hlast) hopen).2 with hk | hk <;>
          rw [Trivia.isWhitespace, hk] <;> rfl
      have hsplit : c.document.tail = g ++ [t] := by
        rw [hprev.dropAt_eq hpicks] at hjoin
        rw [← hjoin]
        exact (hd.joinGap_gap c.document.endOfFile).symm
      rw [hsplit] at hprev
      have hrest : Trimmed true rest := by
        rcases htaken.rest_eq with rfl | rfl
        · trivial
        · exact trimmed_endOfLine true _
      rw [htail]
      exact trimmed_append.2 ⟨(trimmed_append.1 hprev).1, isRun_of_not_isWhitespace hw, hrest⟩
  · exact h.trimmed_tail_of_not_endsMended hS hd ht hr hend

/-! ### Rounds -/

/-- What one round leaves of a text whose tree is `t`. -/
structure Halfway (R : Registry) (t : SyntaxTree) (d : Document) : Prop where
  trimmed : R.Has .noTrailingWhitespace → ∀ j < d.endOfFile, d.TrimmedAt j
  tail : R.Has .noTrailingWhitespace → d.TrimmedAt d.endOfFile ∨ d.finalBreak? = none
  wanted : ∀ k id j, R.Wants t k id j → d.gap (j + 1) = k.trailing ∨ R.Has .noTrailingWhitespace

/-- What two rounds leave: all gaps are in line with their contracts, and no white space is left at the ends of
lines. -/
structure Cleared (R : Registry) (t : SyntaxTree) (d : Document) : Prop where
  trimmed : R.Has .noTrailingWhitespace → ∀ j < d.size, d.TrimmedAt j
  wanted : ∀ k id j, R.Wants t k id j → d.gap (j + 1) = k.trailing

/-- **What a round leaves.** -/
theorem Turn.halfway (h : R.Turn c S q) (hS : R.Maximal c S) (hd : c.document.Parsed)
    (ht : SyntaxTree.ofDocument? c.document = some c.tree) : R.Halfway c.tree q where
  trimmed hr _ hj := h.trimmedAt hS hd ht hr (h.endOfFile ▸ hj)
  tail hr := (h.trimmed_tail_or hS hd ht hr).imp_left Document.trimmedAt_endOfFile.2
  wanted _ _ _ hw := (h.wanted hS hd ht hw).imp_right (·.1)

/-- **What another round leaves.** -/
theorem Turn.cleared (h : R.Turn c S q) (hS : R.Maximal c S) (hd : c.document.Parsed)
    (ht : SyntaxTree.ofDocument? c.document = some c.tree) (hprev : R.Halfway c.tree c.document) :
    R.Cleared c.tree q where
  trimmed hr j hj := by
    rcases Nat.lt_or_eq_of_le (Nat.le_of_lt_succ (q.size_eq ▸ hj : j < q.endOfFile + 1)) with hlt | rfl
    · exact h.trimmedAt hS hd ht hr (h.endOfFile ▸ hlt)
    · exact Document.trimmedAt_endOfFile.2
        (h.trimmed_tail hS hd ht hr ((hprev.tail hr).imp_left Document.trimmedAt_endOfFile.1))
  wanted _ _ j hw :=
    (h.wanted hS hd ht hw).resolve_right fun ⟨hr, hnot⟩ => hnot (hprev.trimmed hr (j + 1) (hw.lt hd ht))

variable {options : AnalyzerOptions} {s t t' : String} {p : Program}

/-- **A round that is not called off** makes a maximal selection of the edits. -/
theorem exists_maximal_of_next? (hR : R.Builtin) (hp : Program.parse t = .ok p)
    (h : (R.fixSystem options false).next? t = some t') : ∃ S q, Program.parse t' = .ok ⟨q, p.tree⟩ ∧
      R.Maximal { document := p.document, tree := p.tree, options } S ∧
      R.Turn { document := p.document, tree := p.tree, options } S q := by
  obtain ⟨vs, q, hvs, -, hq, hturn, -⟩ := turn_of_next? hR hp h
  obtain ⟨-, hsource, htree⟩ := Program.parse_eq_ok_iff.1 hp
  let c : RuleContext := { document := p.document, tree := p.tree, options }
  have hmax := maximal_selectClear hR (c := c) (Document.parsed_of_ofSource hsource).1 htree rfl hvs
  exact ⟨_, q, hq, hmax, hturn⟩

/-- **Two rounds clear a text**, and no later round undoes it. -/
theorem cleared_after (hR : R.Builtin) (hp : Program.parse s = .ok p) {k : Nat}
    (h : (R.fixSystem options false).after s k = some t) :
    ∃ q, Program.parse t = .ok ⟨q, p.tree⟩ ∧ (1 ≤ k → R.Halfway p.tree q) ∧ (2 ≤ k → R.Cleared p.tree q) := by
  induction k generalizing t with
  | zero => exact ⟨p.document, Option.some.inj h ▸ hp, (nomatch ·), (nomatch ·)⟩
  | succ k ih =>
    obtain ⟨u, hu, hnext⟩ := Option.bind_eq_some_iff.1 h
    obtain ⟨d, hd, hhalf, hclear⟩ := ih hu
    obtain ⟨-, hsource, htree⟩ := Program.parse_eq_ok_iff.1 hd
    obtain ⟨hdp, -⟩ := Document.parsed_of_ofSource hsource
    obtain ⟨S, q, hq, hmax, hturn⟩ := exists_maximal_of_next? hR hd hnext
    exact ⟨q, hq, fun _ => hturn.halfway hmax hdp htree, fun hk =>
      hturn.cleared hmax hdp htree (hhalf (by omega))⟩

/-- Nothing is broken in a text for which there are no edits. -/
theorem not_mends_of_edits_eq_nil (hR : R.Builtin) (hd : c.document.Parsed)
    (ht : SyntaxTree.ofDocument? c.document = some c.tree) (hc : c.cancelled = false) {vs : List Violation}
    (hvs : R.analyze c = .ok vs) (h : vs.filterMap (R.editFor? c.document) = []) (e : Edit) : ¬ R.Mends c e := by
  intro he
  have hmem := (mem_edits hR hd ht hc hvs).2 he
  rw [h] at hmem
  cases hmem

/-- A text in which nothing is broken is cleared. -/
theorem cleared_of_not_mends (h : ∀ e, ¬ R.Mends c e) : R.Cleared c.tree c.document where
  trimmed hr _ hj := (Document.trimmedAt_iff hj).2 fun _ _ hrun => h _ (.run hr hrun)
  wanted _ _ _ hw := Classical.not_not.1 fun hb => h _ (.gap hw hb)

/-- The rules about gaps and about white space at the ends of lines. -/
def clearedRules : List Rule := gapRules.map (·.1) ++ [.noTrailingWhitespace]

theorem mem_clearedRules {r : Rule} (h : r ∈ clearedRules) :
    r ∈ builtinRules ∧ ((∃ k, (r, k) ∈ gapRules) ∨ r = .noTrailingWhitespace) := by
  rcases List.mem_append.1 h with h | h
  · obtain ⟨⟨r, k⟩, hk, rfl⟩ := List.mem_map.1 h
    exact ⟨(Rule.fix_of_mem_gapRules hk).1, .inl ⟨k, hk⟩⟩
  · rw [List.mem_singleton.1 h]
    exact ⟨by simp [builtinRules], .inr rfl⟩

/-- **A cleared text has no violations of these rules.** -/
theorem Cleared.ruleId_ne (h : R.Cleared c.tree c.document) (hR : R.Builtin) (hd : c.document.Parsed)
    (ht : SyntaxTree.ofDocument? c.document = some c.tree) {vs : List Violation} (hvs : R.analyze c = .ok vs) :
    ∀ w ∈ vs, ∀ r ∈ clearedRules, w.ruleId ≠ r.id := by
  intro v hv r hr hid
  obtain ⟨hbuiltin, hcases⟩ := mem_clearedRules hr
  obtain ⟨a, ha, w, hw, rfl⟩ := (mem_analyze hvs).1 hv
  have hrule : a.rule = r := eq_of_id_eq (hR a ha) hbuiltin ((hw.ruleId (hR a ha)).symm.trans hid)
  rcases hcases with ⟨k, hk⟩ | rfl
  · subst hrule
    obtain ⟨-, -, hkinds, -⟩ := Rule.fix_of_mem_gapRules hk
    obtain ⟨n, hn, hkind, hwn⟩ | ⟨hnil, -⟩ := hw
    · obtain ⟨left, right, hg⟩ := Rule.exists_gap? hk hkind
      obtain ⟨rfl, hlt⟩ := next_of_gap? hd ht hn hg
      obtain ⟨-, -, hbroken⟩ := (Rule.gapReport hd hk hkind hg hlt).2.found w hwn
      exact hbroken (h.wanted k a.rule.id left ⟨a.rule, hk, ⟨a, ha, rfl⟩, rfl, n, hn, hkind, hg⟩)
    · exact hkinds hnil
  · obtain ⟨n, -, hkind, -⟩ | ⟨-, ws, hws, hwn⟩ := hw
    · rw [hrule] at hkind
      cases hkind
    · obtain ⟨message, rfl⟩ := trailing_of_checkDocument hrule hws
      obtain ⟨span, hspan, rfl⟩ := List.mem_map.1 hwn
      obtain ⟨j, hj, i, u, hu, hrun, -⟩ := hd.mem_trailingBlanks.1 hspan
      exact (Document.trimmedAt_iff hj).1 (h.trimmed ⟨a, ha, hrule⟩ j hj) i u ⟨hj, hu, hrun⟩

/-- No round makes a text that is too large for a document. -/
def Fits (R : Registry) (options : AnalyzerOptions) (s : String) : Prop :=
  ∀ k t r, (R.fixSystem options false).after s k = some t → (R.fixSystem options false).read t = .ok r →
    r.document.lengthAfter ((selectClear ((R.fixSystem options false).edits r)).1.flatMap (·.splices)) ≤ maxBytes

/-- Rounds that come to an end can be looked at one by one. -/
theorem fits_of_stops {n : Nat} (hstop : (R.fixSystem options false).after s n = none)
    (h : ∀ k < n, ((R.fixSystem options false).after s k).all fun t =>
      ((R.fixSystem options false).read t).toOption.all fun r => decide (r.document.lengthAfter
        ((selectClear ((R.fixSystem options false).edits r)).1.flatMap (·.splices)) ≤ maxBytes)) :
    R.Fits options s := by
  intro k t r ht hr
  rcases Nat.lt_or_ge k n with hk | hk
  · have hall := h k hk
    rw [ht, Option.all_some, hr] at hall
    exact of_decide_eq_true hall
  · obtain ⟨i, rfl⟩ := Nat.exists_eq_add_of_le hk
    rw [FixSystem.after_add, hstop] at ht
    cases ht

/-- **Mending that is not called off succeeds.** -/
theorem exists_fix (hR : R.Builtin) (hp : Program.parse s = .ok p) (hfits : R.Fits options s) (limit : Nat) :
    ∃ report, (R.fixSystem options false).fix limit s = .ok report := by
  have hrounds := (R.fixSystem options false).accounts_fix limit s
  cases hfix : (R.fixSystem options false).fix limit s with
  | ok report => exact ⟨report, rfl⟩
  | error e =>
    rw [hfix] at hrounds
    obtain ⟨k, -, t, ht, hfails⟩ := hrounds
    obtain ⟨q, hq, -⟩ := keeps_after hR hp ht
    obtain ⟨-, hsource, htree⟩ := Program.parse_eq_ok_iff.1 hq
    rcases hfails with herror | ⟨r, hr, hne, ⟨hcancelled, -⟩ | herror⟩
    · obtain ⟨vs, hvs⟩ := exists_analyze hR (c := { document := q, tree := p.tree, options }) rfl
      have hread : R.read options false t = .ok ⟨q, vs⟩ := read_eq_ok_iff.2 ⟨⟨q, p.tree⟩, hq, rfl, hvs⟩
      cases hread.symm.trans herror
    · cases hcancelled
    · obtain ⟨hdoc, -, hedits, hS⟩ := batch_of_read hR hq hr
      have hsize := hfits k t r ht hr
      rw [hedits] at hne herror hsize
      rw [hdoc] at herror hsize
      obtain ⟨o, ho, -⟩ | ⟨-, hlarge⟩ :=
        hS.applyEdits (Document.parsed_of_ofSource hsource).1 htree (selectClear_ne_nil hne)
      · cases ho.symm.trans herror
      · exact absurd hlarge (Nat.not_lt_of_le hsize)

/-- **Two rounds clear gaps and line ends**: mending succeeds, and no violation of the rules about gaps and about white
space at the ends of lines is left. -/
theorem fix_clears (hR : R.Builtin) (hp : Program.parse s = .ok p) (hfits : R.Fits options s) {limit : Nat}
    (hlimit : 2 ≤ limit) : ∃ report, (R.fixSystem options false).fix limit s = .ok report ∧
      ∀ w ∈ report.violations, ∀ r ∈ clearedRules, w.ruleId ≠ r.id := by
  obtain ⟨report, hfix⟩ := exists_fix hR hp hfits limit
  refine ⟨report, hfix, ?_⟩
  have hrounds := (R.fixSystem options false).accounts_fix limit s
  rw [hfix] at hrounds
  obtain ⟨k, hk, t, r, ht, hr, hdoc, hvs, htells⟩ := hrounds
  obtain ⟨q, hq, -, hclear⟩ := cleared_after hR hp ht
  obtain ⟨hqdoc, hanalyze, -⟩ := batch_of_read hR hq hr
  obtain ⟨-, hsource, htree⟩ := Program.parse_eq_ok_iff.1 hq
  obtain ⟨hqp, -⟩ := Document.parsed_of_ofSource hsource
  let c : RuleContext := { document := q, tree := p.tree, options }
  rw [← hvs] at hanalyze
  have hcleared : R.Cleared p.tree q := by
    rw [FixSystem.Tells] at htells
    split at htells
    · obtain ⟨-, hnone⟩ := htells
      rw [hdoc, hqdoc] at hnone
      exact cleared_of_not_mends (c := c)
        (not_mends_of_edits_eq_nil hR hqp htree rfl hanalyze (List.filterMap_eq_nil_iff.2 hnone))
    · obtain ⟨rfl, -⟩ := htells
      exact hclear hlimit
    · -- The text comes back after two rounds or more.
      rename_i n _
      obtain ⟨hn, -, hback, -, hever⟩ := htells
      obtain ⟨t', ht', hsame⟩ := hever (2 * n)
      rw [Nat.mul_mod_left, Nat.add_zero, ← hback, ht] at hsame
      obtain rfl := Option.some.inj hsame
      obtain ⟨q', hq', -, hclear'⟩ := cleared_after hR hp ht'
      obtain rfl := (Program.mk.inj (Except.ok.inj (hq.symm.trans hq'))).1
      exact hclear' (by omega)
  exact Cleared.ruleId_ne (c := c) hcleared hR hqp htree hanalyze

/-- A space in front of arguments is taken away in the first of two rounds at most. -/
theorem fix_clears_call : (∃ p, Program.parse "f (x)\n" = .ok p) ∧ builtin.Fits {} "f (x)\n" ∧
    ∃ report, (builtin.fixSystem {} false).fix 2 "f (x)\n" = .ok report ∧
      ∀ w ∈ report.violations, ∀ r ∈ clearedRules, w.ruleId ≠ r.id := by
  obtain ⟨p, hp, -⟩ := exists_ok_of_any (e := Program.parse "f (x)\n") (p := fun _ => true) (by decide +kernel)
  have hfits : builtin.Fits {} "f (x)\n" := fits_of_stops (n := 2) (by decide +kernel) (by decide +kernel)
  exact ⟨⟨p, hp⟩, hfits, fix_clears builtin_builtin hp hfits (Nat.le_refl 2)⟩

end Registry

end LayoutLint
