import LayoutLint.Proofs.Layout.Lines
import LayoutLint.Proofs.Layout.Places
import LayoutLint.Scan.FinalBreak
/-!
# Ending — how a text ends

Behind the last word stands trivia: some of it up to the last comment or directive, then blanks (`content`, `blanks`).
The lines that start in the blanks are what the end of a text is judged by. When a line starts where the blanks do, all
of them are too much; else the first break in them ends the last line of the text, and what follows it is too much
(`EndsAs`, `endsAs`).
-/
namespace LayoutLint

open Piece (Reads charsOf)
open Text (width)

/-- The number of pieces up to and including the last one that is not blank. -/
def contentCount (g : List Trivia) : Nat := g.length - (g.reverse.takeWhile Trivia.isBlank).length

theorem contentCount_le (g : List Trivia) : contentCount g ≤ g.length := Nat.sub_le _ _

theorem contentCount_append {a b : List Trivia} (hb : ∀ t ∈ b, t.isBlank = true)
    (ha : ∀ t ∈ a.getLast?, t.isBlank = false) : contentCount (a ++ b) = a.length := by
  have hrev : (a ++ b).reverse.takeWhile Trivia.isBlank = b.reverse := by
    rw [List.reverse_append, List.takeWhile_append_of_pos fun t ht => hb t (List.mem_reverse.1 ht)]
    cases ha' : a.reverse with
    | nil => simp
    | cons t a' =>
      have := ha t (by rw [← List.head?_reverse, ha']; rfl)
      simp [this]
  rw [contentCount, hrev, List.length_append, List.length_reverse, Nat.add_sub_cancel]

/-- Trivia is trivia that ends in content, and blanks. -/
theorem exists_contentCount (g : List Trivia) : ∃ a b, g = a ++ b ∧ (∀ t ∈ b, t.isBlank = true) ∧
    (∀ t ∈ a.getLast?, t.isBlank = false) ∧ contentCount g = a.length := by
  have htext := List.takeWhile_append_dropWhile (p := Trivia.isBlank) (l := g.reverse)
  have hg : g = (g.reverse.dropWhile Trivia.isBlank).reverse ++ (g.reverse.takeWhile Trivia.isBlank).reverse := by
    rw [← List.reverse_append, htext, List.reverse_reverse]
  have hb : ∀ t ∈ (g.reverse.takeWhile Trivia.isBlank).reverse, t.isBlank = true := fun t ht =>
    List.all_eq_true.1 List.all_takeWhile t (List.mem_reverse.1 ht)
  have ha : ∀ t ∈ (g.reverse.dropWhile Trivia.isBlank).reverse.getLast?, t.isBlank = false := by
    intro t ht
    have := List.head?_dropWhile_not Trivia.isBlank g.reverse
    rw [List.getLast?_reverse] at ht
    rw [Option.mem_def.1 ht] at this
    simpa using this
  refine ⟨_, _, hg, hb, ha, ?_⟩
  conv => lhs; rw [hg]
  exact contentCount_append hb ha

namespace Document

variable {d : Document}

/-- The trivia after the last word. -/
def tail (d : Document) : List Trivia := d.gap d.endOfFile

/-- The trivia after the last word, up to the last comment or directive. -/
def content (d : Document) : List Trivia := d.tail.take (contentCount d.tail)

/-- The blanks at the end of the text. -/
def blanks (d : Document) : List Trivia := d.tail.drop (contentCount d.tail)

theorem content_append_blanks (d : Document) : d.content ++ d.blanks = d.tail := List.take_append_drop _ _

theorem content_blanks_of_append {a b : List Trivia} (hg : d.tail = a ++ b) (hb : ∀ t ∈ b, t.isBlank = true)
    (ha : ∀ t ∈ a.getLast?, t.isBlank = false) : d.content = a ∧ d.blanks = b := by
  have hk : contentCount d.tail = a.length := by rw [hg, contentCount_append hb ha]
  rw [content, blanks, hk, hg, List.take_left, List.drop_left]
  exact ⟨rfl, rfl⟩

theorem isBlank_of_mem_blanks (d : Document) : ∀ t ∈ d.blanks, t.isBlank = true := by
  obtain ⟨a, b, hg, hb, ha, -⟩ := exists_contentCount d.tail
  rw [(content_blanks_of_append hg hb ha).2]
  exact hb

theorem isBlank_getLast?_content (d : Document) : ∀ t ∈ d.content.getLast?, t.isBlank = false := by
  obtain ⟨a, b, hg, hb, ha, -⟩ := exists_contentCount d.tail
  rw [(content_blanks_of_append hg hb ha).1]
  exact ha

/-- The pieces up to and including the last word. -/
def body (d : Document) : List Piece :=
  match d.endOfFile with
  | 0 => []
  | m + 1 => Token.partsOf (d.tokens.toList.take m) ++
      ((d.token m).leading.map .trivia ++ [.word (d.kindAt m) (d.wordAt m)])

theorem Proper.parts_eq (h : d.Proper) : d.parts = d.body ++ d.tail.map .trivia := by
  have hs := d.size_eq
  have htake : d.tokens.toList = d.tokens.toList.take d.endOfFile ++ [d.token d.endOfFile] := by
    rw [← d.take_succ_tokens (by omega), List.take_of_length_le (Nat.le_of_eq hs)]
  obtain ⟨ts, hts⟩ := h.last
  have hlast : (d.token d.endOfFile).parts = ts.map .trivia := by
    rw [hts]
    simp [Token.parts, Token.own, Token.endOfFile]
  have hlead : (d.token d.endOfFile).leading = ts := by rw [hts]
  rw [parts, htake, Token.partsOf, List.flatMap_append, List.flatMap_singleton, hlast, body, tail]
  cases he : d.endOfFile with
  | zero =>
    rw [he] at hlead
    rw [gap, hlead]
    rfl
  | succ m =>
    rw [he] at hlead
    rw [gap, hlead, d.take_succ_tokens (by omega), List.flatMap_append, List.flatMap_singleton,
      parts_of_text (h.word m (by omega)), List.map_append]
    simp [Token.partsOf, kindAt, wordAt]

theorem Proper.text_eq (h : d.Proper) : d.text.toList = charsOf d.body ++ charsOf (d.tail.map .trivia) := by
  rw [← d.charsOf_parts, h.parts_eq, Piece.charsOf_append]

theorem Proper.width_body (h : d.Proper) : width (charsOf d.body) = d.gapStart d.endOfFile := by
  have hs := d.size_eq
  have htext := congrArg width h.text_eq
  rw [Text.width_append, width_trivia, ← Text.utf8ByteSize_eq_width] at htext
  have hend := d.span_start (j := d.endOfFile) (by omega)
  rw [h.span_endOfFile] at hend
  have hlen : d.text.utf8ByteSize = d.gapStart d.endOfFile + Trivia.listWidth d.tail := hend
  omega

/-- The characters in front of the blanks at the end. -/
def contentChars (d : Document) : List Char := charsOf d.body ++ charsOf (d.content.map .trivia)

/-- The blanks at the end. -/
def blankChars (d : Document) : List Char := charsOf (d.blanks.map .trivia)

/-- Where the blanks at the end start. -/
def blankStart (d : Document) : Nat := d.gapStart d.endOfFile + Trivia.listWidth d.content

theorem Proper.text_eq_content (h : d.Proper) : d.text.toList = d.contentChars ++ d.blankChars := by
  rw [h.text_eq, contentChars, blankChars, ← d.content_append_blanks, List.map_append, Piece.charsOf_append,
    List.append_assoc]

theorem Proper.width_contentChars (h : d.Proper) : width d.contentChars = d.blankStart := by
  rw [contentChars, Text.width_append, h.width_body, width_trivia]
  rfl

theorem Proper.lastToken?_eq (h : d.Proper) :
    d.lastToken? = if d.endOfFile = 0 then none else some (d.endOfFile - 1) := by
  rw [lastToken?]
  cases d.endOfFile with
  | zero => rfl
  | succ m =>
    rw [List.range_succ, List.reverse_append, List.reverse_singleton, List.singleton_append,
      List.find?_cons_of_pos (by rw [h.present m]; rfl)]
    rfl

theorem Proper.tailTrivia_eq (h : d.Proper) : d.tailTrivia = d.placed d.endOfFile := by
  rw [tailTrivia, h.lastToken?_eq]
  cases d.endOfFile with
  | zero => rfl
  | succ m => rfl

theorem map_trivia_placed (d : Document) {j : Nat} (hj : j < d.size) :
    (d.placed j).map (·.trivia) = d.gap j := by
  refine List.ext_getElem? fun i => ?_
  rw [List.getElem?_map, d.getElem?_placed hj, Option.map_map]
  exact Option.map_id'

theorem map_stop_placed (d : Document) {j : Nat} (hj : j < d.size) {i : Nat} {t : Trivia}
    (ht : (d.gap j)[i]? = some t) : (d.placed j)[i]? = some (d.placeAt j i t) := by
  rw [d.getElem?_placed hj, ht]
  rfl

/-- Where the last word or the last comment or directive ends. -/
theorem Proper.contentEnd (h : d.Proper) : max ((d.lastToken?.map fun last => (d.span last).stop).getD 0)
    (((d.tailTrivia.reverse.find? fun t => !t.trivia.isBlank).map (·.span.stop)).getD 0) = d.blankStart := by
  have hs := d.size_eq
  have hj : d.endOfFile < d.size := by omega
  have hword : (d.lastToken?.map fun last => (d.span last).stop).getD 0 = d.gapStart d.endOfFile := by
    rw [h.lastToken?_eq]
    cases d.endOfFile with
    | zero => rfl
    | succ m => rfl
  rw [hword, h.tailTrivia_eq]
  have hmap := d.map_trivia_placed hj
  have hsplit : d.placed d.endOfFile = (d.placed d.endOfFile).take d.content.length ++
      (d.placed d.endOfFile).drop d.content.length := (List.take_append_drop _ _).symm
  have hdrop : ∀ x ∈ ((d.placed d.endOfFile).drop d.content.length).reverse, ¬ (!x.trivia.isBlank) = true := by
    intro x hx
    have hmem : x.trivia ∈ ((d.placed d.endOfFile).drop d.content.length).map (·.trivia) :=
      List.mem_map_of_mem (List.mem_reverse.1 hx)
    rw [List.map_drop, hmap, show d.gap d.endOfFile = d.tail from rfl, ← d.content_append_blanks,
      List.drop_left] at hmem
    rw [d.isBlank_of_mem_blanks _ hmem]
    exact Bool.false_ne_true
  rw [hsplit, List.reverse_append, List.find?_append, List.find?_eq_none.2 hdrop, Option.none_or]
  rcases List.eq_nil_or_concat d.content with hnil | ⟨a, t, ha⟩
  · rw [blankStart, hnil]
    simp
  · rw [List.concat_eq_append] at ha
    have ht : (d.gap d.endOfFile)[a.length]? = some t := by
      show d.tail[a.length]? = some t
      rw [← d.content_append_blanks, ha]
      simp
    have hx := d.map_stop_placed hj ht
    have hlt : a.length < (d.placed d.endOfFile).length := (List.getElem?_eq_some_iff.1 hx).1
    have hlast : (d.placed d.endOfFile).take d.content.length =
        (d.placed d.endOfFile).take a.length ++ [d.placeAt d.endOfFile a.length t] := by
      rw [ha, List.length_append, List.length_singleton, List.take_succ_eq_append_getElem hlt,
        (List.getElem?_eq_some_iff.1 hx).2]
    have hblank : t.isBlank = false := d.isBlank_getLast?_content t (by rw [ha]; simp)
    have htake : (d.gap d.endOfFile).take a.length = a := by
      show d.tail.take a.length = a
      rw [← d.content_append_blanks, ha]
      simp
    rw [hlast, List.reverse_append, List.reverse_singleton, List.singleton_append,
      List.find?_cons_of_pos (by show (!t.isBlank) = true; rw [hblank]; rfl)]
    show max _ (d.gapStart d.endOfFile + Trivia.listWidth ((d.gap d.endOfFile).take a.length) + t.width) = _
    rw [htake, blankStart, ha, Trivia.listWidth_append, Trivia.listWidth_cons, Trivia.listWidth_nil]
    omega

end Document

/-! ### Blanks as characters -/

namespace Piece

theorem Reads.of_append : ∀ {b : Bool} (ps : List Piece) {qs : List Piece}, Reads b (ps ++ qs) → ∃ b', Reads b' qs
  | b, [], _, h => ⟨b, h⟩
  | _, _ :: ps, _, h => Reads.of_append ps h.2.2

theorem Heads.isGap {b : Bool} {t : Trivia} {r : List Char} (h : (Piece.trivia t).Heads b r)
    (ht : t.isWhitespace = true) : ∀ c ∈ t.text.toList, LayoutLint.isGap c = true := by
  have hs : Trivia.scan? b (t.text.toList ++ r) = some (t.kind, t.text.toList.length) := h
  rw [show t.kind = .whitespace from beq_iff_eq.1 ht] at hs
  have := (isGap_of_scan? hs).1
  rwa [List.take_left] at this

theorem Heads.endsBefore {b : Bool} {t : Trivia} {r : List Char} (h : (Piece.trivia t).Heads b r) :
    EndsBefore t.text.toList r := by
  intro hcr hlf
  have hs : Trivia.scan? b (t.text.toList ++ r) = some (t.kind, t.text.toList.length) := h
  obtain ⟨c, r, rfl⟩ : ∃ c s, r = c :: s := List.exists_cons_of_ne_nil fun hnil => by rw [hnil] at hlf; cases hlf
  rw [hcr, Option.some.inj hlf, List.singleton_append, scan?_break (by decide), Option.some.injEq, Prod.mk.injEq] at hs
  exact absurd hs.2 (by simp [breakLength])

theorem Reads.isBlank_chars : ∀ {b : Bool} {g : List Trivia}, Reads b (g.map .trivia) → (∀ t ∈ g, t.isBlank = true) →
    ∀ c ∈ charsOf (g.map .trivia), Text.isBlank c = true
  | _, [], _, _, _, hc => absurd hc List.not_mem_nil
  | _, t :: g, h, hb, c, hc => by
    rcases List.mem_append.1 hc with hc | hc
    · rcases Bool.or_eq_true_iff.1 (hb t List.mem_cons_self) with hw | he
      · exact isBlank_of_isGap (h.2.1.isGap hw) c hc
      · exact isBlank_of_isBreakChar ((h.2.1.isBreak (beq_iff_eq.1 he)).all c hc)
    · exact h.2.2.isBlank_chars (fun u hu => hb u (List.mem_cons_of_mem _ hu)) c hc

theorem Reads.unbroken : ∀ {b : Bool} {g : List Trivia} {ps : List Piece}, Reads b (g.map .trivia ++ ps) →
    (∀ t ∈ g, t.isWhitespace = true) → Unbroken (charsOf (g.map .trivia))
  | _, [], _, _, _, _, hc => absurd hc List.not_mem_nil
  | _, t :: g, _, h, hw, c, hc => by
    rcases List.mem_append.1 hc with hc | hc
    · exact unbroken_of_isGap (h.2.1.isGap (hw t List.mem_cons_self)) c hc
    · exact h.2.2.unbroken (fun u hu => hw u (List.mem_cons_of_mem _ hu)) c hc

end Piece

/-- The first item that passes a test, and what stands around it. -/
theorem exists_first {α : Type} (p : α → Bool) (l : List α) :
    (∀ x ∈ l, p x = false) ∨ ∃ u e r, l = u ++ e :: r ∧ p e = true ∧ ∀ x ∈ u, p x = false := by
  induction l with
  | nil => exact .inl fun x hx => absurd hx List.not_mem_nil
  | cons a l ih =>
    cases ha : p a with
    | true => exact .inr ⟨[], a, l, rfl, ha, fun x hx => absurd hx List.not_mem_nil⟩
    | false =>
      rcases ih with h | ⟨u, e, r, rfl, he, hu⟩
      · exact .inl fun x hx => (List.mem_cons.1 hx).elim (fun h => h ▸ ha) (h x)
      · exact .inr ⟨a :: u, e, r, rfl, he, fun x hx => (List.mem_cons.1 hx).elim (fun h => h ▸ ha) (hu x)⟩

/-- The last of the items, counted from the end, that pass a test when just those at the end do. -/
theorem getLast?_takeWhile_reverse {α : Type} {p : α → Bool} {front mid : List α} (hf : ∀ x ∈ front, p x = false)
    (hm : ∀ x ∈ mid, p x = true) : ((front ++ mid).reverse.takeWhile p).getLast? = mid.head? := by
  have hnil : front.reverse.takeWhile p = [] := by
    cases hfr : front.reverse with
    | nil => rfl
    | cons a l =>
      have ha := hf a (List.mem_reverse.1 (by rw [hfr]; exact List.mem_cons_self))
      rw [List.takeWhile_cons_of_neg (by rw [ha]; exact Bool.false_ne_true)]
  rw [List.reverse_append, List.takeWhile_append_of_pos fun x hx => hm x (List.mem_reverse.1 hx), hnil, List.append_nil,
    List.getLast?_reverse]

namespace Document

variable {d : Document}

/-! ### What is wrong with the end -/

/-- Text that ends in a line break. -/
def EndsInBreak (d : Document) : Prop := d.text ≠ "" ∧ ∀ c ∈ d.text.toList.getLast?, isBreakChar c = true

/-- Does a line start where the blanks at the end do? -/
def FreshEnd (d : Document) : Prop := Fresh d.contentChars d.blankChars

/-- How a text ends, with what is wrong with that. -/
inductive EndsAs (d : Document) : Option FinalBreak → Prop
  | empty : d.text = "" → EndsAs d none
  | missing : d.text ≠ "" → ¬ d.EndsInBreak → EndsAs d (some (.missing ⟨d.gapStart d.endOfFile, d.length⟩))
  /-- The last word or comment ends in the break. -/
  | bare : d.EndsInBreak → d.blanks = [] → EndsAs d none
  /-- All blanks are lines of their own. -/
  | rows : d.EndsInBreak → d.FreshEnd → d.blanks ≠ [] → EndsAs d (some (.stacked ⟨d.blankStart, d.length⟩))
  /-- The blanks are what is left of the last line, and its break. -/
  | line {u : List Trivia} {e : Trivia} : d.EndsInBreak → ¬ d.FreshEnd → d.blanks = u ++ [e] →
    (∀ t ∈ u, t.isWhitespace = true) → e.isEndOfLine = true → EndsAs d none
  /-- What is left of the last line, its break, and lines of blanks. -/
  | lines {u r : List Trivia} {e : Trivia} : d.EndsInBreak → ¬ d.FreshEnd → d.blanks = u ++ e :: r →
    (∀ t ∈ u, t.isWhitespace = true) → e.isEndOfLine = true → r ≠ [] →
    EndsAs d (some (.stacked ⟨d.blankStart + Trivia.listWidth (u ++ [e]), d.length⟩))

theorem lines_toList (d : Document) : d.lines.lines.toList = linesFrom 0 d.text.toList := by
  rw [d.lines_eq]
  rfl

theorem isEmpty_eq_false (hne : d.text ≠ "") : d.isEmpty = false := by
  rw [isEmpty, Bool.eq_false_iff, ne_eq, String.isEmpty_iff]
  exact hne

/-- The lines of a text, the last one apart. -/
theorem exists_last_of_lines (d : Document) : ∃ last, d.lines.lines.toList.reverse =
    last :: (linesFrom 0 d.text.toList).dropLast.reverse ∧
      (last.isEmpty = true ↔ ∀ c ∈ d.text.toList.getLast?, isBreakChar c = true) := by
  obtain ⟨last, hlast, hiff⟩ := getLast?_linesFrom 0 d.text.toList
  refine ⟨last, ?_, hiff⟩
  obtain ⟨before, hbefore⟩ := List.getLast?_eq_some_iff.1 hlast
  rw [lines_toList, hbefore, List.dropLast_concat, List.reverse_append]
  rfl

theorem Proper.finalBreak?_of_not_break (h : d.Proper) (hne : d.text ≠ "") (hb : ¬ d.EndsInBreak) :
    d.finalBreak? = some (.missing ⟨d.gapStart d.endOfFile, d.length⟩) := by
  obtain ⟨last, hlines, hiff⟩ := d.exists_last_of_lines
  have hlast : last.isEmpty = false := by
    rw [Bool.eq_false_iff, ne_eq, hiff]
    exact fun h => hb ⟨hne, h⟩
  have hword : (d.lastToken?.map fun last => (d.span last).stop).getD 0 = d.gapStart d.endOfFile := by
    rw [h.lastToken?_eq]
    cases d.endOfFile with
    | zero => rfl
    | succ m => rfl
  rw [finalBreak?, if_neg (by rw [isEmpty_eq_false hne]; exact Bool.false_ne_true)]
  simp only [hlines, hlast, hword, Bool.not_false, if_true]

/-- What is wrong with the end of a text that ends in a break, when the lines are told apart that start before the
blanks at the end. -/
theorem Proper.finalBreak?_of_break (h : d.Proper) (hb : d.EndsInBreak) {front mid : List Line}
    (hlines : (linesFrom 0 d.text.toList).dropLast = front ++ mid) (hfront : ∀ l ∈ front, l.start < d.blankStart)
    (hmid : ∀ l ∈ mid, l.isBlank = true ∧ d.blankStart ≤ l.start) :
    d.finalBreak? = mid.head?.map fun l => .stacked ⟨l.start, d.length⟩ := by
  obtain ⟨last, hrev, hiff⟩ := d.exists_last_of_lines
  have hf : ∀ l ∈ front, (l.isBlank && decide (d.blankStart ≤ l.start)) = false := fun l hl => by
    rw [Bool.and_eq_false_iff]
    exact .inr (decide_eq_false (Nat.not_le.2 (hfront l hl)))
  have hm : ∀ l ∈ mid, (l.isBlank && decide (d.blankStart ≤ l.start)) = true := fun l hl => by
    rw [Bool.and_eq_true, decide_eq_true_eq]
    exact hmid l hl
  rw [finalBreak?, if_neg (by rw [isEmpty_eq_false hb.1]; exact Bool.false_ne_true)]
  simp only [hrev, hiff.2 hb.2, h.contentEnd, hlines, getLast?_takeWhile_reverse hf hm, Bool.not_true,
    Bool.false_eq_true, if_false]

/-- The first line of text that ends in a break. -/
theorem head?_dropLast_linesFrom {start : Nat} {cs : List Char} (hne : cs ≠ [])
    (hb : ∀ c ∈ cs.getLast?, isBreakChar c = true) :
    ∃ l, (linesFrom start cs).dropLast.head? = some l ∧ l.start = start := by
  rcases line_cases cs with hq | ⟨q, e, r, rfl, hq, he, hr⟩
  · obtain ⟨c, hc⟩ : ∃ c, cs.getLast? = some c := ⟨_, List.getLast?_eq_some_getLast hne⟩
    have := hb c hc
    rw [hq c (List.mem_of_getLast? hc)] at this
    cases this
  · rw [linesFrom_line _ hq he hr, List.dropLast_cons_of_ne_nil (linesFrom_ne_nil _ r)]
    exact ⟨_, rfl, rfl⟩

theorem Parsed.reads_drop (h : d.Parsed) (n : Nat) : ∃ b, Reads b ((d.tail.drop n).map .trivia) := by
  have hr := h.reads
  rw [h.proper.parts_eq, ← List.take_append_drop n d.tail, List.map_append, ← List.append_assoc] at hr
  exact hr.of_append

theorem Parsed.reads_blanks (h : d.Parsed) : ∃ b, Reads b (d.blanks.map .trivia) := h.reads_drop _

theorem Parsed.blankChars_eq_nil (h : d.Parsed) : d.blankChars = [] ↔ d.blanks = [] := by
  obtain ⟨b, hreads⟩ := h.reads_blanks
  rw [blankChars, Piece.charsOf_eq_nil hreads, List.map_eq_nil_iff]

theorem Parsed.isBlank_of_mem_blankChars (h : d.Parsed) : ∀ c ∈ d.blankChars, Text.isBlank c = true := by
  obtain ⟨b, hreads⟩ := h.reads_blanks
  exact hreads.isBlank_chars d.isBlank_of_mem_blanks

theorem EndsInBreak.of_append (hb : d.EndsInBreak) {x y : List Char} (htext : d.text.toList = x ++ y) (hne : y ≠ []) :
    ∀ c ∈ y.getLast?, isBreakChar c = true := by
  intro c hc
  refine hb.2 c ?_
  rw [htext, List.getLast?_append_of_ne_nil _ hne]
  exact hc

theorem Parsed.endsAs_of_fresh (h : d.Parsed) (hb : d.EndsInBreak) (hfresh : d.FreshEnd) : d.EndsAs d.finalBreak? := by
  have htext := h.proper.text_eq_content
  have hlines := @linesFrom_append 0 _ _ hfresh
  rw [← htext, Nat.zero_add, h.proper.width_contentChars] at hlines
  have hdrop := congrArg List.dropLast hlines
  rw [List.dropLast_append_of_ne_nil (linesFrom_ne_nil _ _)] at hdrop
  rw [h.proper.finalBreak?_of_break hb hdrop]
  · by_cases hnil : d.blanks = []
    · rw [h.blankChars_eq_nil.2 hnil, linesFrom_unbroken _ fun c hc => absurd hc List.not_mem_nil]
      exact .bare hb hnil
    · have hchars : d.blankChars ≠ [] := fun hc => hnil (h.blankChars_eq_nil.1 hc)
      obtain ⟨l, hl, hstart⟩ := @head?_dropLast_linesFrom d.blankStart _ hchars (hb.of_append htext hchars)
      rw [hl, Option.map_some, hstart]
      exact .rows hb hfresh hnil
  · intro l hl
    have := start_of_mem_linesFrom.2 l hl
    rwa [Nat.zero_add, h.proper.width_contentChars] at this
  · intro l hl
    have hl := (List.dropLast_sublist _).subset hl
    exact ⟨isBlank_of_mem_linesFrom h.isBlank_of_mem_blankChars l hl, start_of_mem_linesFrom.1 l hl⟩

/-- Where no line starts the blanks at the end have a break. -/
theorem Parsed.exists_break_of_not_fresh (h : d.Parsed) (hb : d.EndsInBreak) (hfresh : ¬ d.FreshEnd) :
    ∃ u e r, d.blanks = u ++ e :: r ∧ (∀ t ∈ u, t.isWhitespace = true) ∧ e.isEndOfLine = true := by
  have htext := h.proper.text_eq_content
  have hws : ∀ {u : List Trivia}, u ⊆ d.blanks → (∀ t ∈ u, t.isEndOfLine = false) → ∀ t ∈ u, t.isWhitespace = true := by
    intro u hu hnone t ht
    have := d.isBlank_of_mem_blanks t (hu ht)
    rwa [Trivia.isBlank, hnone t ht, Bool.or_false] at this
  obtain hnone | ⟨u, e, r, hblanks, he, hu⟩ := exists_first Trivia.isEndOfLine d.blanks
  · obtain ⟨b, hreads⟩ := h.reads_blanks
    have hunbroken : Unbroken d.blankChars :=
      @Piece.Reads.unbroken _ _ [] (by rwa [List.append_nil]) (hws (List.Subset.refl _) hnone)
    have hnil : d.blankChars = [] := by
      rcases List.eq_nil_or_concat d.blankChars with hnil | ⟨q, c, hc⟩
      · exact hnil
      · have hmem : d.blankChars.getLast? = some c := by rw [hc]; simp
        have := hb.of_append htext (by rw [hc]; simp) c hmem
        rw [hunbroken c (List.mem_of_getLast? hmem)] at this
        cases this
    refine absurd (fun c hc => ⟨hb.2 c ?_, fun _ => ?_⟩) hfresh
    · rw [htext, hnil, List.append_nil]
      exact hc
    · rw [hnil]
      intro h
      cases h
  · exact ⟨u, e, r, hblanks, hws (by rw [hblanks]; exact List.subset_append_left _ _) hu, he⟩

theorem Parsed.endsAs_of_not_fresh (h : d.Parsed) (hb : d.EndsInBreak) (hfresh : ¬ d.FreshEnd) :
    d.EndsAs d.finalBreak? := by
  have htext := h.proper.text_eq_content
  obtain ⟨u, e, r, hblanks, hws, he⟩ := h.exists_break_of_not_fresh hb hfresh
  obtain ⟨b, hreads⟩ := h.reads_blanks
  rw [hblanks, List.map_append, List.map_cons] at hreads
  obtain ⟨b', hrest⟩ := hreads.of_append
  have hchars : d.blankChars = charsOf (u.map .trivia) ++ (e.text.toList ++ charsOf (r.map .trivia)) := by
    rw [blankChars, hblanks, List.map_append, List.map_cons, Piece.charsOf_append, Piece.charsOf_cons]
    rfl
  have hnot := hfresh
  rw [FreshEnd, hchars] at hnot
  obtain ⟨front, hlines, hfront⟩ := @linesFrom_of_not_fresh 0 _ _ _ _ (hreads.unbroken hws)
    (hrest.2.1.isBreak (beq_iff_eq.1 he)) hrest.2.1.endsBefore hnot
  have hwidth : 0 + width (d.contentChars ++ (charsOf (u.map .trivia) ++ e.text.toList)) =
      d.blankStart + Trivia.listWidth (u ++ [e]) := by
    rw [Nat.zero_add, Text.width_append, h.proper.width_contentChars, Text.width_append, width_trivia,
      Trivia.listWidth_append, Trivia.listWidth_cons, Trivia.width, Text.utf8ByteSize_eq_width]
    rfl
  rw [← hchars, ← htext, hwidth] at hlines
  have hdrop := congrArg List.dropLast hlines
  rw [List.dropLast_append_of_ne_nil (linesFrom_ne_nil _ _)] at hdrop
  rw [h.proper.finalBreak?_of_break hb hdrop]
  · by_cases hnil : r = []
    · rw [hnil, List.map_nil, Piece.charsOf_nil, linesFrom_unbroken _ fun c hc => absurd hc List.not_mem_nil]
      exact .line hb hfresh (by rw [hblanks, hnil]) hws he
    · have hr : charsOf (r.map .trivia) ≠ [] := fun hc =>
        hnil (List.map_eq_nil_iff.1 ((Piece.charsOf_eq_nil hrest.2.2).1 hc))
      have htext' : d.text.toList = d.contentChars ++ (charsOf (u.map .trivia) ++ e.text.toList) ++
          charsOf (r.map .trivia) := by
        rw [htext, hchars]
        simp only [List.append_assoc]
      obtain ⟨l, hl, hstart⟩ := @head?_dropLast_linesFrom (d.blankStart + Trivia.listWidth (u ++ [e])) _ hr
        (hb.of_append htext' hr)
      rw [hl, Option.map_some, hstart]
      exact .lines hb hfresh hblanks hws he hnil
  · intro l hl
    have := hfront l hl
    rwa [Nat.zero_add, h.proper.width_contentChars] at this
  · intro l hl
    have hl := (List.dropLast_sublist _).subset hl
    refine ⟨isBlank_of_mem_linesFrom (fun c hc => h.isBlank_of_mem_blankChars c ?_) l hl, ?_⟩
    · rw [hchars]
      exact List.mem_append_right _ (List.mem_append_right _ hc)
    · exact Nat.le_trans (Nat.le_add_right _ _) (start_of_mem_linesFrom.1 l hl)

/-- **How a text ends**, and that it is judged by that. -/
theorem Parsed.endsAs (h : d.Parsed) : d.EndsAs d.finalBreak? := by
  by_cases hne : d.text = ""
  · have : d.finalBreak? = none := by rw [finalBreak?, if_pos (by rw [isEmpty, String.isEmpty_iff]; exact hne)]
    rw [this]
    exact .empty hne
  · by_cases hb : d.EndsInBreak
    · by_cases hfresh : d.FreshEnd
      · exact h.endsAs_of_fresh hb hfresh
      · exact h.endsAs_of_not_fresh hb hfresh
    · rw [h.proper.finalBreak?_of_not_break hne hb]
      exact .missing hne hb

end Document

end LayoutLint
