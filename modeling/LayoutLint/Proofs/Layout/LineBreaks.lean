import LayoutLint.Proofs.Layout.Boundaries
import LayoutLint.Proofs.Layout.Ending
import LayoutLint.Proofs.Layout.Programs
import LayoutLint.Proofs.Lexing.Escapes
/-!
# LineBreaks — which token a line break belongs to

A character literal or a regular string holds a line break only behind a backslash that escapes it, and a CR and its LF
belong to one piece of the document unless a literal ends in the escaped CR (`Document.KeepsLines`,
`Document.keepsLines_of_ofSource`). So a text in which no backslash stands in front of a line break has no such literal
with a line break in it, and no line break that is cut in two (`Document.unbroken_of_ofSource`).
-/
namespace LayoutLint

open Literal (BreaksEscaped)
open Piece (charsOf)

/-- A character literal, or a string of one or two quotes with nothing in front of them. -/
def Token.isLineBound (t : Token) : Bool :=
  match t.kind with
  | .characterLiteral => true
  | .stringLiteral => t.text.toList.head? == some '"' && decide (Literal.quoteRun t.text.toList < 3)
  | _ => false

/-- **A piece that ends between a CR and its LF is a literal that ends in an escaped CR.** -/
theorem Piece.Heads.escape {b : Bool} {p : Piece} {r : List Char} (h : p.Heads b r) (hcr : p.chars.getLast? = some '\r')
    (hlf : r.head? = some '\n') : ∃ k w, p = .word k w ∧ k.isQuoted = true ∧ ['\\', '\r'] <:+ w.toList := by
  cases p with
  | word k w => exact ⟨k, w, rfl, escape_of_scan h.1 h.2 hcr hlf⟩
  | trivia t =>
    exfalso
    have hcr : t.text.toList.getLast? = some '\r' := hcr
    by_cases hl : t.kind = .endOfLine
    · rcases h.isBreak hl with he | he | he
      · exact h.endsBefore he hlf
      all_goals
        rw [he] at hcr
        cases hcr
    · by_cases hw : t.kind = .whitespace
      · have hgap := h.isGap (beq_iff_eq.2 hw) '\r' (List.mem_of_getLast? hcr)
        cases hgap
      · rw [eq_nil_of_endsInBreak h hw hl hcr rfl] at hlf
        cases hlf

namespace Document

variable {d : Document}

/-- The line breaks in a literal that should keep to its line are escaped, and a piece of the document ends between a CR
and its LF only as a literal, behind the escape. -/
structure KeepsLines (d : Document) : Prop where
  literal : ∀ id < d.size, (d.token id).isLineBound = true → BreaksEscaped (d.token id).text.toList
  whole : ∀ front rest, d.parts = front ++ rest → (charsOf front).getLast? = some '\r' →
    (charsOf rest).head? = some '\n' →
    ∃ ps k w, front = ps ++ [.word k w] ∧ k.isQuoted = true ∧ ['\\', '\r'] <:+ w.toList

theorem Parsed.breaksEscaped (h : d.Parsed) {id : Nat} (hid : id < d.size) (hl : (d.token id).isLineBound = true) :
    BreaksEscaped (d.token id).text.toList := by
  have hs := d.size_eq
  rcases Nat.lt_or_eq_of_le (show id ≤ d.endOfFile by omega) with hlt | rfl
  · obtain ⟨r, hr⟩ := h.heads hlt
    have hr : Token.scan ((d.token id).text.toList ++ r) = ((d.token id).kind, (d.token id).text.toList.length) := hr
    have hne : (d.token id).text.toList ≠ [] := fun hnil => h.proper.word id hlt (String.toList_eq_nil_iff.1 hnil)
    unfold Token.isLineBound at hl
    split at hl
    · rename_i hk
      rw [hk] at hr
      exact breaksEscaped_of_scan_character hne hr
    · rename_i hk
      rw [hk] at hr
      obtain ⟨hhead, hq⟩ := Bool.and_eq_true_iff.1 hl
      obtain ⟨c, t, ht⟩ := List.exists_cons_of_ne_nil hne
      rw [ht] at hhead hq hr ⊢
      obtain rfl := Option.some.inj (beq_iff_eq.1 hhead)
      exact breaksEscaped_of_scan_string hr (of_decide_eq_true hq)
    · cases hl
  · obtain ⟨ts, hts⟩ := h.proper.last
    rw [hts] at hl
    cases hl

theorem Parsed.keepsLines (h : d.Parsed) : d.KeepsLines := by
  refine ⟨fun id hid hl => h.breaksEscaped hid hl, fun front rest hparts hcr hlf => ?_⟩
  have hreads := h.reads
  obtain rfl | ⟨ps, p, rfl⟩ := List.eq_nil_or_concat front
  · cases hcr
  · rw [List.concat_eq_append] at hparts hcr ⊢
    rw [hparts, List.append_assoc] at hreads
    obtain ⟨b, hne, hheads, -⟩ := hreads.of_append
    rw [Piece.charsOf_append, Piece.charsOf_cons, Piece.charsOf_nil, List.append_nil, List.getLast?_append,
      List.getLast?_eq_some_getLast hne, Option.some_or, ← List.getLast?_eq_some_getLast hne] at hcr
    obtain ⟨k, w, rfl, hk, hw⟩ := hheads.escape hcr hlf
    exact ⟨ps, k, w, rfl, hk, hw⟩

/-- **Literals keep to their lines and line breaks are not cut in two**, but for what a backslash escapes. -/
theorem keepsLines_of_ofSource {s : String} (h : ofSource s = .ok d) : d.KeepsLines :=
  (parsed_of_ofSource h).1.keepsLines

/-- A string goes on in the next line, and a character literal ends between a CR and its LF. -/
theorem keepsLines_of_ofSource_escape : ∃ d, ofSource "\"a\\\n\" '\\\r\n" = .ok d ∧ d.KeepsLines ∧
    (d.token 0).isLineBound = true ∧ (d.token 0).text = "\"a\\\n\"" ∧
    (d.token 1).text = "'\\\r" ∧ (d.token 1).trailing = [.endOfLine "\n"] := by
  obtain ⟨d, hd, h⟩ := exists_ok_of_any (e := ofSource "\"a\\\n\" '\\\r\n") (p := fun d =>
    (d.token 0).isLineBound && ((d.token 0).text == "\"a\\\n\"" &&
      ((d.token 1).text == "'\\\r" && (d.token 1).trailing == [.endOfLine "\n"]))) (by decide +kernel)
  simp only [Bool.and_eq_true, beq_iff_eq] at h
  exact ⟨d, hd, keepsLines_of_ofSource hd, h⟩

/-! ### Without escapes of line breaks -/

theorem text_infix (d : Document) {id : Nat} (hid : id < d.size) : (d.token id).text.toList <:+: d.text.toList := by
  rw [d.text_eq_around hid, ← List.append_assoc, ← List.append_assoc]
  exact List.infix_append _ _ _

/-- **Where no backslash stands in front of a line break, literals keep to their lines and no line break is cut.** -/
theorem unbroken_of_ofSource {s : String} (h : ofSource s = .ok d)
    (hs : ∀ e, isBreakChar e = true → ¬ ['\\', e] <:+: s.toList) :
    (∀ id < d.size, (d.token id).isLineBound = true → Unbroken (d.token id).text.toList) ∧
      ∀ front rest, d.parts = front ++ rest → (charsOf front).getLast? = some '\r' →
        (charsOf rest).head? ≠ some '\n' := by
  obtain ⟨hd, htext⟩ := parsed_of_ofSource h
  rw [← htext] at hs
  refine ⟨fun id hid hl => ?_, fun front rest hparts hcr hlf => ?_⟩
  · exact (hd.breaksEscaped hid hl).unbroken fun e he hin => hs e he (hin.trans (d.text_infix hid))
  · obtain ⟨ps, k, w, rfl, -, hw⟩ := hd.keepsLines.whole front rest hparts hcr hlf
    refine hs '\r' rfl (hw.isInfix.trans ?_)
    rw [← d.charsOf_parts, hparts, Piece.charsOf_append, Piece.charsOf_append]
    exact ⟨charsOf ps, charsOf rest, by rw [Piece.charsOf_cons, Piece.charsOf_nil, List.append_nil]; rfl⟩

end Document

end LayoutLint
