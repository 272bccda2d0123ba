import LayoutLint.Proofs.Layout.Ending
import LayoutLint.Proofs.Layout.Weave
/-!
# Attachment — which trivia a token has

In the document of a text a token is trailed by the trivia up to the end of its line, that line break included; what
comes after it belongs to the next token (`Document.Canonical`, `Document.canonical_of_ofSource`). Between two words
white space stands in one piece, the LF of a CR is no piece of its own, and what goes up to the end of its line, a line
comment or a directive, has the line break or the end of the text behind it.
-/
namespace LayoutLint

open Piece (Reads charsOf)

/-- A line comment or a directive. -/
def Trivia.isLineBound (t : Trivia) : Bool :=
  "//".toList.isPrefixOf t.text.toList || "#".toList.isPrefixOf t.text.toList

/-! ### What trails a token -/

/-- A line break ends what trails a token. -/
theorem dropLast_readTrailing (s : List Char) : ∀ t ∈ (readTrailing s).trivia.dropLast, t.isEndOfLine = false := by
  fun_induction readTrailing s with
  | case1 => exact fun t ht => absurd ht List.not_mem_nil
  | case2 c r h => exact fun t ht => absurd ht List.not_mem_nil
  | case3 c r kind n h t ht => exact fun u hu => absurd hu List.not_mem_nil
  | case4 c r kind n h t ht ih =>
    intro u hu
    cases hrest : (readTrailing (r.drop (n - 1))).trivia with
    | nil =>
      rw [TriviaRun.cons, hrest] at hu
      exact absurd hu List.not_mem_nil
    | cons v g =>
      rw [TriviaRun.cons, List.dropLast_cons_of_ne_nil (by rw [hrest]; exact List.cons_ne_nil v g)] at hu
      rcases List.mem_cons.1 hu with rfl | hu
      · exact Bool.eq_false_iff.2 ht
      · exact ih u hu

theorem dropLast_trailing_readTokens (done : Array Token) (b : Bool) (s : List Char)
    (hdone : ∀ t ∈ done.toList, ∀ x ∈ t.trailing.dropLast, x.isEndOfLine = false) :
    ∀ t ∈ (readTokens done b s).toList, ∀ x ∈ t.trailing.dropLast, x.isEndOfLine = false := by
  fun_induction readTokens done b s with
  | case1 done b s before h =>
    intro t ht
    rw [Array.toList_push, List.mem_append, List.mem_singleton] at ht
    rcases ht with ht | rfl
    · exact hdone t ht
    · exact fun x hx => absurd hx List.not_mem_nil
  | case2 done b s before c r h kind n hscan after text token ih =>
    refine ih fun t ht => ?_
    rw [Array.toList_push, List.mem_append, List.mem_singleton] at ht
    rcases ht with ht | rfl
    · exact hdone t ht
    · exact dropLast_readTrailing _

/-! ### What stands in a gap -/

/-- The pieces from gap `j` on. -/
theorem exists_weave_append (words : Nat → Piece) (gaps : Nat → List Trivia) : ∀ (m n i : Nat),
    ∃ front, weave words gaps i (m + n) = front ++ weave words gaps (i + m) n
  | 0, n, i => ⟨[], by rw [Nat.zero_add]; rfl⟩
  | m + 1, n, i => by
    obtain ⟨front, hfront⟩ := exists_weave_append words gaps m n (i + 1)
    refine ⟨(gaps i).map .trivia ++ words i :: front, ?_⟩
    rw [Nat.add_right_comm m 1 n, weave, hfront, Nat.add_right_comm i 1 m, List.append_assoc]
    rfl

/-- Where a line ends in front of a piece, the piece is a line break. -/
theorem Piece.Reads.isEndOfLine {b : Bool} {p : Piece} {ps : List Piece} (h : Reads b (p :: ps))
    (hl : LineEnd (charsOf (p :: ps))) : p.isEndOfLine = true := by
  obtain ⟨hne, hheads, -⟩ := h
  obtain ⟨c, s, hc⟩ := List.exists_cons_of_ne_nil hne
  rw [Piece.charsOf_cons, hc, List.cons_append, lineEnd_cons] at hl
  cases p with
  | word k w =>
    have hnone := hheads.1
    rw [show w.toList = c :: s from hc, List.cons_append, scan?_break hl] at hnone
    cases hnone
  | trivia t =>
    have hscan : Trivia.scan? b (t.text.toList ++ charsOf ps) = some (t.kind, t.text.toList.length) := hheads
    rw [show t.text.toList = c :: s from hc, List.cons_append, scan?_break hl, Option.some.injEq,
      Prod.mk.injEq] at hscan
    exact beq_iff_eq.2 hscan.1.symm

/-- **A line comment or a directive goes up to the end of its line.** -/
theorem Piece.Heads.lineEnd_of_isLineBound {b : Bool} {t : Trivia} {r : List Char} (h : (Piece.trivia t).Heads b r)
    (ht : t.isLineBound = true) : LineEnd r := by
  have hs : Trivia.scan? b (t.text.toList ++ r) = some (t.kind, t.text.toList.length) := h
  have hline : ∀ {k : TriviaKind}, some (k, lineLength (t.text.toList ++ r)) = some (t.kind, t.text.toList.length) →
      LineEnd r := fun hk => (lineLength_append (Prod.mk.inj (Option.some.inj hk)).2 lineEnd_nil).1
  rw [Trivia.isLineBound, Bool.or_eq_true] at ht
  rcases ht with ht | ht
  · obtain ⟨u, hu⟩ := List.isPrefixOf_iff_prefix.1 ht
    rw [← hu] at hs hline
    rw [show "//".toList ++ u ++ r = '/' :: ('/' :: u ++ r) from rfl, scan?_of_not_blank (by decide) (by decide),
      if_pos (by simp [List.isPrefixOf])] at hs
    exact hline hs
  · obtain ⟨u, hu⟩ := List.isPrefixOf_iff_prefix.1 ht
    rw [← hu] at hs hline
    rw [show "#".toList ++ u ++ r = '#' :: (u ++ r) from rfl, scan?_of_not_blank (by decide) (by decide),
      if_neg (by simp [List.isPrefixOf]), if_neg (by simp [List.isPrefixOf])] at hs
    split at hs
    · exact hline hs
    · cases hs

theorem Apart.isWhitespace {x y : Trivia} {r : List Trivia} : ∀ {a : List Trivia}, Apart (a ++ x :: y :: r) →
    x.isWhitespace = true → y.isWhitespace = false
  | [], h => h.1
  | _ :: _, h => Apart.isWhitespace h.tail

namespace Document

variable {d : Document}

/-- A gap is read from its place on, up to the word behind it or the end of the text. -/
theorem Parsed.reads_gap (h : d.Parsed) {j : Nat} (hj : j < d.size) : ∃ b rest,
    Reads b ((d.gap j).map .trivia ++ rest) ∧ (rest = [] ∧ j = d.endOfFile ∨ ∃ ps, rest = d.piece j :: ps) := by
  have hs := d.size_eq
  obtain ⟨n, hn⟩ := Nat.exists_eq_add_of_le (show j ≤ d.endOfFile by omega)
  obtain ⟨front, hfront⟩ := exists_weave_append d.piece d.gap j n 0
  have hreads := h.reads
  rw [h.proper.parts_eq_weave, hn, hfront, Nat.zero_add] at hreads
  obtain ⟨b, hreads⟩ := hreads.of_append
  cases n with
  | zero => exact ⟨b, [], by rw [List.append_nil]; exact hreads, .inl ⟨rfl, hn.symm⟩⟩
  | succ n => exact ⟨b, _, hreads, .inr ⟨_, rfl⟩⟩

/-- A piece of a gap, what stands behind it in the gap and what follows the gap. -/
theorem Parsed.reads_piece (h : d.Parsed) {j : Nat} (hj : j < d.size) {a r : List Trivia} {x : Trivia}
    (hgap : d.gap j = a ++ x :: r) : ∃ b b' rest, (Piece.trivia x).Heads b (charsOf (r.map .trivia ++ rest)) ∧
      Reads b' (r.map .trivia ++ rest) ∧ (rest = [] ∧ j = d.endOfFile ∨ ∃ ps, rest = d.piece j :: ps) := by
  obtain ⟨b, rest, hreads, hrest⟩ := h.reads_gap hj
  rw [hgap, List.map_append, List.append_assoc] at hreads
  obtain ⟨b', -, hheads, hreads⟩ := hreads.of_append
  exact ⟨b', _, rest, hheads, hreads, hrest⟩

/-- A line break ends what trails a token, and without it nothing is in front of the next one. In a gap white space
stands in one piece, line breaks are what they should be, a CR and its LF are one of them, and a line comment or a
directive has one behind it, or the end of the text. -/
structure Canonical (d : Document) : Prop where
  trailing : ∀ id < d.size, ∀ t ∈ (d.token id).trailing.dropLast, t.isEndOfLine = false
  leading : ∀ id < d.endOfFile, (∀ t ∈ (d.token id).trailing.getLast?, t.isEndOfLine = false) →
    (d.token (id + 1)).leading = []
  closing : (d.token d.endOfFile).trailing = []
  apart : ∀ j < d.size, ∀ a x y r, d.gap j = a ++ x :: y :: r → x.isWhitespace = true → y.isWhitespace = false
  white : ∀ j < d.size, ∀ t ∈ d.gap j, t.isWhitespace = true →
    ∀ c ∈ t.text.toList, Text.isBlank c = true ∧ c ≠ '\r' ∧ c ≠ '\n'
  breaks : ∀ j < d.size, ∀ t ∈ d.gap j, t.isEndOfLine = true → t.text = "\r\n" ∨ t.text = "\n" ∨ t.text = "\r"
  joined : ∀ j < d.size, ∀ a x y r, d.gap j = a ++ x :: y :: r → x.text = "\r" → y.text ≠ "\n"
  line : ∀ j < d.size, ∀ a x r, d.gap j = a ++ x :: r → x.isLineBound = true →
    (∃ y r', r = y :: r' ∧ y.isEndOfLine = true) ∨ r = [] ∧ j = d.endOfFile

theorem dropLast_trailing_of_ofSource {s : String} (h : ofSource s = .ok d) {id : Nat} (hid : id < d.size) :
    ∀ t ∈ (d.token id).trailing.dropLast, t.isEndOfLine = false := by
  refine dropLast_trailing_readTokens #[] true s.toList (fun t ht => absurd ht List.not_mem_nil) _ ?_
  show d.token id ∈ (tokensOf s).toList
  rw [← tokens_of_ofSource h, d.token_eq_getElem hid]
  exact Array.mem_toList_iff.2 (Array.getElem_mem _)

theorem Parsed.lineBound (h : d.Parsed) {j : Nat} (hj : j < d.size) {a r : List Trivia} {x : Trivia}
    (hgap : d.gap j = a ++ x :: r) (hx : x.isLineBound = true) :
    (∃ y r', r = y :: r' ∧ y.isEndOfLine = true) ∨ r = [] ∧ j = d.endOfFile := by
  obtain ⟨b, b', rest, hheads, hreads, hrest⟩ := h.reads_piece hj hgap
  have hline := hheads.lineEnd_of_isLineBound hx
  cases r with
  | cons y r' => exact .inl ⟨y, r', rfl, hreads.isEndOfLine hline⟩
  | nil =>
    obtain ⟨-, hlast⟩ | ⟨ps, rfl⟩ := hrest
    · exact .inr ⟨rfl, hlast⟩
    · -- A word does not start with a line break.
      cases hreads.isEndOfLine hline

/-- **Trivia is attached in one way.** -/
theorem canonical_of_ofSource {s : String} (h : ofSource s = .ok d) : d.Canonical := by
  have hd := (parsed_of_ofSource h).1
  have hs := d.size_eq
  have hpiece : ∀ {j t}, j < d.size → t ∈ d.gap j → ∃ b r, (Piece.trivia t).Heads b r := by
    intro j t hj ht
    obtain ⟨a, r, hgap⟩ := List.append_of_mem ht
    obtain ⟨b, -, rest, hheads, -⟩ := hd.reads_piece hj hgap
    exact ⟨b, _, hheads⟩
  refine ⟨fun id hid => dropLast_trailing_of_ofSource h hid, fun id hid hnone => ?_, ?_,
    fun j _ a x y r hgap => (hgap ▸ hd.apart j).isWhitespace, fun j hj t ht hw c hc => ?_, fun j hj t ht he => ?_,
    fun j hj a x y r hgap hx hy => ?_, fun j hj a x r => hd.lineBound hj⟩
  · by_contra hne
    obtain ⟨t, ht, he⟩ := hd.line id hid hne
    have hnil : (d.token id).trailing ≠ [] := List.ne_nil_of_mem ht
    rw [← List.dropLast_append_getLast hnil, List.mem_append, List.mem_singleton] at ht
    rcases ht with ht | rfl
    · rw [dropLast_trailing_of_ofSource h (by omega) t ht] at he
      cases he
    · rw [hnone _ (List.getLast?_eq_some_getLast hnil)] at he
      cases he
  · obtain ⟨ts, hts⟩ := hd.proper.last
    rw [hts]
    rfl
  · obtain ⟨b, r, hheads⟩ := hpiece hj ht
    have hgap := hheads.isGap hw c hc
    simp only [isGap, isBreakChar, Bool.and_eq_true, Bool.not_eq_true', Bool.or_eq_false_iff,
      beq_eq_false_iff_ne] at hgap
    exact ⟨hgap.1, hgap.2⟩
  · obtain ⟨b, r, hheads⟩ := hpiece hj ht
    rcases hheads.isBreak (beq_iff_eq.1 he) with h | h | h
    · exact .inr (.inr (String.ext h))
    · exact .inr (.inl (String.ext h))
    · exact .inl (String.ext h)
  · obtain ⟨b, -, rest, hheads, -⟩ := hd.reads_piece hj hgap
    refine hheads.endsBefore (by rw [hx]; rfl) ?_
    rw [List.map_cons, List.cons_append, Piece.charsOf_cons, Piece.chars, Piece.text, hy]
    rfl

/-- A comment behind a word, and a directive in front of the next one. -/
theorem canonical_of_ofSource_directive : ∃ d, ofSource "a // b\r\n #if c\r\r\nd" = .ok d ∧ d.Canonical ∧
    (d.token 0).trailing = [.space, ⟨.comment, "// b"⟩, .endOfLine "\r\n"] ∧
    (d.token 1).leading = [.space, ⟨.structured, "#if c"⟩, .endOfLine "\r", .endOfLine "\r\n"] := by
  obtain ⟨d, hd, h⟩ := exists_ok_of_any (e := ofSource "a // b\r\n #if c\r\r\nd") (p := fun d =>
    (d.token 0).trailing == [.space, ⟨.comment, "// b"⟩, .endOfLine "\r\n"] &&
      (d.token 1).leading == [.space, ⟨.structured, "#if c"⟩, .endOfLine "\r", .endOfLine "\r\n"]) (by decide +kernel)
  rw [Bool.and_eq_true, beq_iff_eq, beq_iff_eq] at h
  exact ⟨d, hd, canonical_of_ofSource hd, h⟩

end Document

end LayoutLint
