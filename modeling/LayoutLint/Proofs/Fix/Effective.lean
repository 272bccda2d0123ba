import LayoutLint.Proofs.Fix.Edits
import LayoutLint.Proofs.Layout.EndKept
import LayoutLint.Proofs.Layout.Removals
/-!
# Effective — edits that change the text

An edit counts as one when it has splices, whatever they do. Splices that bring a gap in line with a contract put
something else there (`Document.Parsed.text_ne_of_gapEdit`), and splices that remove white space make the text shorter
(`Document.Parsed.applySplices_removing`). The splices for the end of a text can put back the line break that they cut
(`Document.PutsBack`). So an edit changes the text, whatever region it is asked for, but for this one case
(`Registry.text_eq_iff_of_editFor?`); at a region that is reported, it is the one of a last word that ends in a line
break (`Document.Parsed.putsBack_finalBreak?`).
-/
namespace LayoutLint

open Piece (Reads charsOf)

namespace Document

variable {d q : Document} {c : GapContract} {j keep : Nat} {ruleId : String}

/-! ### Gaps -/

/-- A gap that keeps its contract is left alone. -/
theorem Parsed.gapEdit_splices_eq_nil (h : d.Parsed) (hj : j < d.endOfFile) (hkept : d.gap (j + 1) = c.trailing) :
    (d.gapEdit c ruleId j).splices = [] := by
  have hnone : ∀ t ∈ c.trailing, t.isEndOfLine = false := by cases c <;> decide
  have hleading : (d.token (j + 1)).leading = [] :=
    h.leading_eq_nil hj fun t ht => hnone t (hkept ▸ List.mem_append_left _ ht)
  have htrailing : (d.token j).trailing = c.trailing := by
    rw [← hkept, gap, hleading, List.append_nil]
  have hl : Splice.setList? d j .trailing c.trailing = none := if_pos htrailing
  have hr : Splice.setList? d (j + 1) .leading [] = none := if_pos hleading
  rw [gapEdit, hl, hr]
  rfl

/-- A gap says what a contract wants only when it is what the contract puts there. -/
theorem Parsed.charsOf_eq_wanted (h : d.Parsed) (hj : j < d.size) :
    charsOf ((d.gap j).map .trivia) = c.wanted ↔ d.gap j = c.trailing := by
  cases c with
  | noWhitespace => exact h.charsOf_eq_nil fun _ => id
  | singleSpace => exact h.charsOf_eq_space hj

/-- What a contract wants is put where something else was. -/
theorem Parsed.text_ne_of_restored (h : d.Parsed) (hj : j + 1 < d.size) (hq : d.Restored c j q)
    (hbroken : d.gap (j + 1) ≠ c.trailing) : q.text ≠ d.text := by
  intro heq
  obtain ⟨before, gap, after, htext, hbefore, hgap, hnew⟩ := hq.text
  have hwanted : gap = c.wanted := by
    rw [heq, htext] at hnew
    exact List.append_cancel_right (List.append_cancel_left hnew)
  rw [h.proper.text_eq_front hj] at htext
  obtain ⟨hfront, hrest⟩ := Text.append_inj_of_width htext (by rw [hbefore, d.width_front (by omega)])
  have hsame : charsOf ((d.gap (j + 1)).map .trivia) = gap := by
    refine (Text.append_inj_of_width hrest ?_).1
    rw [Text.width_append, hbefore, d.span_start hj] at hgap
    rw [width_trivia]
    exact (Nat.add_left_cancel hgap).symm
  exact hbroken ((h.charsOf_eq_wanted hj).1 (hsame.trans hwanted))

theorem Proper.edit?_eq_some (h : d.Proper) {span : Span} {e : Edit} (he : c.edit? d ruleId span = some e) :
    ∃ j, j + 1 < d.size ∧ e = d.gapEdit c ruleId j := by
  have hs := d.size_eq
  have hle : d.tokenFrom span.start ≤ d.endOfFile := (le_firstWhere _ 0 d.endOfFile (Nat.zero_le _)).2
  cases hfrom : d.tokenFrom span.start with
  | zero =>
    rw [GapContract.edit?, hfrom, if_pos rfl] at he
    cases he
  | succ j =>
    rw [h.edit?_eq c ruleId hfrom] at he
    exact ⟨j, by omega, (Option.some.inj he).symm⟩

/-- **Bringing a gap in line with a contract changes the text.** -/
theorem Parsed.text_ne_of_gapEdit (h : d.Parsed) (hj : j + 1 < d.size)
    (hne : (d.gapEdit c ruleId j).splices ≠ []) :
    (∃ q, d.applySplices (d.gapEdit c ruleId j).splices = .ok q ∧ q.text ≠ d.text) ∨
      (d.applySplices (d.gapEdit c ruleId j).splices = .error (.invalidSplice (.document .tooLarge)) ∧
        maxBytes < d.lengthAfter (d.gapEdit c ruleId j).splices) := by
  have hs := d.size_eq
  obtain ⟨hmade, herror⟩ := h.proper.applySplices_gapEdit hj c ruleId
  rcases Nat.lt_or_ge maxBytes (d.lengthAfter (d.gapEdit c ruleId j).splices) with hlarge | hle
  · exact .inr ⟨herror hlarge, hlarge⟩
  · obtain ⟨q, hq, hrestored⟩ := hmade hle
    exact .inl ⟨q, hq, h.text_ne_of_restored hj hrestored fun hkept => hne (h.gapEdit_splices_eq_nil (by omega) hkept)⟩

/-! ### White space -/

/-- **Removing trivia changes the text.** -/
theorem Parsed.applySplices_removing (h : d.Parsed) {ps : List PlacedTrivia} (hps : ps.Sublist d.trivia)
    (hpos : ∀ x ∈ ps, x.span.isEmpty = false) (hne : Splice.removing ps ≠ []) :
    ∃ q, d.applySplices (Splice.removing ps) = .ok q ∧ q.text ≠ d.text := by
  obtain ⟨q, hq, hlength⟩ := d.exists_splice_removing hps hpos
  have hlt := h.lengthAfter_lt (d.removes_of_mem_removing hps hpos) hne
  refine ⟨q, by rw [applySplices, hq], fun heq => ?_⟩
  rw [← hlength, length, length, heq] at hlt
  exact Nat.lt_irrefl _ hlt

theorem isEmpty_of_mem_triviaIn {span : Span} {p : Trivia → Bool} {x : PlacedTrivia} (hx : x ∈ d.triviaIn span p) :
    x.span.isEmpty = false := by
  have hx := (List.mem_filter.1 hx).2
  rw [Bool.and_eq_true, Bool.and_eq_true, Bool.not_eq_true'] at hx
  exact hx.1.1

theorem trailingBlankEdit?_eq_some {span : Span} {e : Edit} (he : d.trailingBlankEdit? ruleId span = some e) :
    e.splices = Splice.removing (d.triviaIn span Trivia.isWhitespace) := by
  rw [trailingBlankEdit?] at he
  split at he
  · cases he
  · exact Option.some.inj he ▸ rfl

/-! ### The end of the text -/

/-- The text ends in a line break of its own, and mending its end from `start` on cuts this break and puts it back. -/
def PutsBack (d : Document) (start : Nat) : Prop :=
  d.HasContent ∧ ∃ kept, d.tail = kept ++ [.endOfLine d.lineBreak] ∧ d.endKeep start = kept.length ∧
    kept.getLast?.any Trivia.isEndOfLine = false

theorem Proper.putsBack_iff (h : d.Proper) {start : Nat} : d.PutsBack start ↔
    d.tail.drop (d.endKeep start) = [.endOfLine d.lineBreak] ∧ d.endAdded (d.endKeep start) ≠ [] := by
  have hkeep := (h.endKeep_bounds start).2
  rw [PutsBack, h.endAdded_ne_nil_iff]
  constructor
  · rintro ⟨hc, kept, htail, hk, hlast⟩
    rw [hk, htail, List.drop_left, List.take_left]
    exact ⟨rfl, hc, hlast⟩
  · rintro ⟨hdrop, hc, hlast⟩
    refine ⟨hc, d.tail.take (d.endKeep start), ?_, ?_, hlast⟩
    · rw [← hdrop, List.take_append_drop]
    · rw [List.length_take, Nat.min_eq_left hkeep]

/-- What is cut from the end says what is put there only when it is the same. -/
theorem Parsed.charsOf_drop_eq (h : d.Parsed) :
    charsOf ((d.tail.drop keep).map .trivia) = charsOf ((d.endAdded keep).map .trivia) ↔
      d.tail.drop keep = d.endAdded keep := by
  refine ⟨fun hchars => ?_, fun heq => by rw [heq]⟩
  obtain ⟨b, hreads⟩ := h.reads_drop keep
  have hadded : Reads b ((d.endAdded keep).map .trivia) := by
    rcases d.endAdded_eq keep with hnil | hbreak
    · rw [hnil]
      trivial
    · rw [hbreak]
      exact ⟨h.isBreak_lineBreak.ne_nil, Piece.heads_endOfLine h.isBreak_lineBreak (by simp), trivial⟩
  exact (List.map_inj_right fun _ _ => Piece.trivia.inj).1 (hreads.unique hadded hchars)

/-- **Mending the end of a text changes it**, unless the line break is put back. -/
theorem Parsed.applySplices_finalBreakEdit? (h : d.Parsed) {span : Span} {e : Edit}
    (he : d.finalBreakEdit? ruleId span = some e) :
    (∃ q, d.applySplices e.splices = .ok q ∧ (q.text = d.text ↔ d.PutsBack span.start)) ∨
      (d.applySplices e.splices = .error (.invalidSplice (.document .tooLarge)) ∧
        maxBytes < d.lengthAfter e.splices) := by
  have hp := h.proper
  obtain ⟨rfl, hdo⟩ := hp.eq_of_finalBreakEdit? he
  have hkeep := (hp.endKeep_bounds span.start).2
  obtain ⟨hmade, herror⟩ := hp.applySplices_endSplices hkeep (d.endAdded (d.endKeep span.start))
  rw [← hp.lengthAfter_endSplices] at hmade herror
  rcases Nat.lt_or_ge maxBytes (d.lengthAfter
    (d.endSplices (d.endKeep span.start) (d.endAdded (d.endKeep span.start)))) with hlarge | hle
  · exact .inr ⟨herror hlarge, hlarge⟩
  obtain ⟨q, hq, htext⟩ := hmade hle
  refine .inl ⟨q, hq, ?_⟩
  have hsame : q.text = d.text ↔
      d.tail.drop (d.endKeep span.start) = d.endAdded (d.endKeep span.start) := by
    rw [← h.charsOf_drop_eq, ← String.toList_inj, htext, hp.text_eq_upTo (d.endKeep span.start),
      List.append_cancel_left_eq, eq_comm]
  rw [hsame, hp.putsBack_iff]
  rcases d.endAdded_eq (d.endKeep span.start) with hnil | hbreak
  · rw [hnil, List.drop_eq_nil_iff]
    refine iff_of_false (fun hle => hdo ⟨by omega, hnil⟩) fun hback => hback.2 rfl
  · rw [hbreak]
    exact (and_iff_left (List.cons_ne_nil _ _)).symm

/-- A text ends in a line break when its trivia does. -/
theorem Parsed.endsInBreak_of_blanks (h : d.Parsed) (hblanks : d.blanks = [.endOfLine d.lineBreak]) :
    d.EndsInBreak := by
  have htext : d.text.toList = d.contentChars ++ d.lineBreak.toList := by
    rw [h.proper.text_eq_content, blankChars, hblanks]
    exact congrArg (d.contentChars ++ ·) (List.append_nil _)
  have hbreak := h.isBreak_lineBreak
  obtain ⟨c, hc⟩ := List.getLast?_isSome.2 hbreak.ne_nil |> Option.isSome_iff_exists.1
  refine ⟨fun hnil => ?_, fun c' hc' => ?_⟩
  · rw [hnil] at htext
    exact hbreak.ne_nil (List.append_eq_nil_iff.1 htext.symm).2
  · rw [htext, List.getLast?_append, hc, Option.some_or, Option.mem_def, Option.some.injEq] at hc'
    exact hc' ▸ hbreak.all c (List.mem_of_getLast? hc)

/-- **The line break of a reported end is put back** only where the last word or comment itself ends in a line break, as
a literal does that is never closed and escapes one. -/
theorem Parsed.putsBack_finalBreak? (h : d.Parsed) {b : FinalBreak} (hb : d.finalBreak? = some b) :
    d.PutsBack b.span.start ↔ d.HasContent ∧ d.FreshEnd ∧ d.blanks = [.endOfLine d.lineBreak] := by
  obtain ⟨keep, added, hcut⟩ := h.exists_endCut hb
  rw [h.proper.putsBack_iff, h.endKeep_eq hcut, ← hcut.added_eq_endAdded]
  have hdrop : d.tail.drop d.content.length = d.blanks := by rw [← d.content_append_blanks, List.drop_left]
  have hadded : d.endBreak ≠ [] ↔ d.HasContent := by
    rw [h.proper.hasContent_iff, endBreak]
    split <;> simp [*]
  cases hcut with
  | missing _ hnot =>
    rw [hdrop]
    exact iff_of_false (fun hback => hnot (h.endsInBreak_of_blanks hback.1))
      fun hended => hnot (h.endsInBreak_of_blanks hended.2.2)
  | rows _ hfresh _ =>
    rw [hdrop, hadded]
    exact ⟨fun hback => ⟨hback.2, hfresh, hback.1⟩, fun hended => ⟨hended.2.2, hended.1⟩⟩
  | lines _ hfresh => exact iff_of_false (fun hback => hback.2 rfl) fun hended => hfresh hended.2.1

end Document

namespace Registry

variable {R : Registry} {d : Document} {v : Violation} {e : Edit}

/-- The edit for a violation is what the rule with its id makes of its region. -/
theorem exists_rule_of_editFor? (hR : R.Builtin) (he : R.editFor? d v = some e) :
    ∃ r ∈ builtinRules, r.id = v.ruleId ∧ r.fixable = true ∧ r.fix d v.span = some e ∧ e.splices ≠ [] := by
  cases hf : R.find? v.ruleId with
  | none =>
    rw [editFor?, hf] at he
    cases he
  | some a =>
    obtain ⟨ha, hid⟩ := mem_of_find? hf
    rw [editFor?_eq hR ha d hid.symm] at he
    split at he
    · rename_i hfixable
      obtain ⟨hfix, hne⟩ := Option.filter_eq_some_iff.1 he
      refine ⟨a.rule, hR a ha, hid, hfixable, hfix, fun hnil => ?_⟩
      rw [Edit.isEmpty, hnil] at hne
      cases hne
    · cases he

/-- **Making the edit for a violation changes the text**, whatever region it is asked for, unless it is the edit for the
end of the text and puts back the line break that it cuts. It can be made unless the text would be too long with it. -/
theorem text_eq_iff_of_editFor? (hR : R.Builtin) {s : String} (h : Document.ofSource s = .ok d)
    (he : R.editFor? d v = some e) :
    (∃ q, d.applySplices e.splices = .ok q ∧
        (q.text = s ↔ v.ruleId = Rule.finalNewline.id ∧ d.PutsBack v.span.start)) ∨
      (d.applySplices e.splices = .error (.invalidSplice (.document .tooLarge)) ∧
        maxBytes < d.lengthAfter e.splices) := by
  obtain ⟨hd, rfl⟩ := Document.parsed_of_ofSource h
  obtain ⟨r, hr, hid, hfixable, hfix, hne⟩ := exists_rule_of_editFor? hR he
  -- No edit of another rule leaves the text as it is.
  have hother : r ≠ .finalNewline → ∀ {q : Document}, q.text ≠ d.text →
      (q.text = d.text ↔ v.ruleId = Rule.finalNewline.id ∧ d.PutsBack v.span.start) := fun hfinal q hq =>
    iff_of_false hq fun hback => hfinal (eq_of_id_eq hr (by simp [builtinRules]) (hid.trans hback.1))
  rcases Rule.cases_of_fixable hr hfixable with ⟨k, hk⟩ | rfl | rfl
  · obtain ⟨-, -, hkinds, hfixes⟩ := Rule.fix_of_mem_gapRules hk
    obtain ⟨j, hj, rfl⟩ := hd.proper.edit?_eq_some (hfixes d v.span ▸ hfix)
    rcases hd.text_ne_of_gapEdit hj hne with ⟨q, hq, htext⟩ | hlarge
    · exact .inl ⟨q, hq, hother (fun hfinal => hkinds (hfinal ▸ rfl)) htext⟩
    · exact .inr hlarge
  · have hsplices := Document.trailingBlankEdit?_eq_some hfix
    rw [hsplices] at hne ⊢
    obtain ⟨q, hq, htext⟩ := hd.applySplices_removing (d.triviaIn_sublist v.span Trivia.isWhitespace)
      (fun x hx => Document.isEmpty_of_mem_triviaIn hx) hne
    exact .inl ⟨q, hq, hother (fun hfinal => absurd (congrArg Rule.id hfinal) (by decide)) htext⟩
  · rcases hd.applySplices_finalBreakEdit? hfix with ⟨q, hq, htext⟩ | hlarge
    · exact .inl ⟨q, hq, by rw [htext, and_iff_right hid.symm]⟩
    · exact .inr hlarge

/-- A text that ends well, mended all the same: its line break is cut and put back. -/
theorem text_eq_iff_of_editFor?_putsBack : ∃ d e q, Document.ofSource "a\n" = .ok d ∧
    builtin.editFor? d { ruleId := "final-newline", message := "", span := ⟨0, 0⟩ } = some e ∧
    d.applySplices e.splices = .ok q ∧ q.text = "a\n" ∧ d.PutsBack 0 := by
  obtain ⟨d, hd, h⟩ := exists_ok_of_any (e := Document.ofSource "a\n") (p := fun d =>
    (builtin.editFor? d { ruleId := "final-newline", message := "", span := ⟨0, 0⟩ }).any fun e =>
      (d.applySplices e.splices).toOption.any (·.text == "a\n")) (by decide +kernel)
  cases he : builtin.editFor? d { ruleId := "final-newline", message := "", span := ⟨0, 0⟩ } with
  | none =>
    rw [he] at h
    cases h
  | some e =>
    rw [he, Option.any_some] at h
    cases hq : d.applySplices e.splices with
    | error cause =>
      rw [hq] at h
      cases h
    | ok q =>
      rw [hq] at h
      have htext : q.text = "a\n" := beq_iff_eq.1 h
      obtain ⟨q', hq', hiff⟩ | ⟨herror, -⟩ := text_eq_iff_of_editFor? builtin_builtin hd he
      · obtain rfl := Except.ok.inj (hq.symm.trans hq')
        exact ⟨d, e, q, hd, he, hq, htext, (hiff.1 htext).2⟩
      · rw [hq] at herror
        cases herror

end Registry

end LayoutLint
