import LayoutLint.Batch
import LayoutLint.Proofs.Layout.Attachment
import LayoutLint.Proofs.Layout.Padded
import LayoutLint.Proofs.Layout.Programs
import LayoutLint.Proofs.Layout.Tiling
import LayoutLint.Proofs.Layout.Turns
/-!
# Contracts — the text between two tokens

The verdict of a contract on two adjacent tokens is one on the text between them, although the single space is looked
for in what trails the left token only (`Document.judged_of_ofSource`). The edit for a broken contract is found again
from the region that was reported, and puts what the contract wants in the place of that text; all else is as it was,
and nothing is left to be reported or changed (`Document.restored_of_ofSource`).
-/
namespace LayoutLint

open Piece (charsOf)
open Text (width)

/-! ### The text around a gap -/

namespace Document

variable {d : Document}

/-- The text up to the end of token `j`. -/
def front (d : Document) (j : Nat) : List Char := charsOf (weave d.piece d.gap 0 j) ++ (d.wordAt j).toList

/-- The text from the start of token `j` on. -/
def rest (d : Document) (j : Nat) : List Char := charsOf (behind d.piece d.gap j (d.endOfFile - j))

theorem width_front (d : Document) {j : Nat} (hj : j < d.size) : width (d.front j) = (d.span j).stop := by
  rw [front, Text.width_append, d.width_weave hj, span_stop_eq, Token.textWidth, Text.utf8ByteSize_eq_width]
  rfl

/-- **The text around a gap.** -/
theorem Proper.text_eq_front (h : d.Proper) {j : Nat} (hj : j + 1 < d.size) :
    d.text.toList = d.front j ++ (charsOf ((d.gap (j + 1)).map .trivia) ++ d.rest (j + 1)) := by
  have hs := d.size_eq
  have hn : d.endOfFile = j + 1 + (d.endOfFile - (j + 1)) := by omega
  rw [← d.charsOf_parts, h.parts_eq_weave]
  conv => lhs; rw [hn]
  rw [weave_add, Nat.zero_add, weave_eq_append_behind _ _ (j + 1), Piece.charsOf_append, Piece.charsOf_cons,
    Piece.charsOf_append, ← List.append_assoc]
  rfl

/-! ### The verdict on the text -/

/-- Trivia has text. -/
theorem Parsed.charsOf_eq_nil (h : d.Parsed) {j : Nat} {g : List Trivia} (hg : ∀ t ∈ g, t ∈ d.gap j) :
    charsOf (g.map .trivia) = [] ↔ g = [] := by
  refine ⟨fun hnil => ?_, fun hnil => by rw [hnil]; rfl⟩
  cases g with
  | nil => rfl
  | cons t g =>
    have hpos := h.width_pos (hg t List.mem_cons_self)
    rw [List.map_cons, Piece.charsOf_cons, List.append_eq_nil_iff] at hnil
    rw [Trivia.width, Text.utf8ByteSize_eq_width, show t.text.toList = [] from hnil.1] at hpos
    cases hpos

/-- A gap says one space when it holds the trivia of one space. -/
theorem Parsed.charsOf_eq_space (h : d.Parsed) {j : Nat} (hj : j < d.size) :
    charsOf ((d.gap j).map .trivia) = [' '] ↔ d.gap j = [.space] := by
  refine ⟨fun hspace => ?_, fun hspace => by rw [hspace]; rfl⟩
  cases hg : d.gap j with
  | nil =>
    rw [hg] at hspace
    cases hspace
  | cons t r =>
    obtain ⟨b, b', rest, hheads, -, -⟩ := h.reads_piece hj (a := []) hg
    have hne : t.text.toList ≠ [] := fun hnil => by
      have hpos := h.width_pos (hg ▸ List.mem_cons_self : t ∈ d.gap j)
      rw [Trivia.width, Text.utf8ByteSize_eq_width, hnil] at hpos
      cases hpos
    have hchars : t.text.toList ++ charsOf (r.map .trivia) = [' '] := by rwa [hg] at hspace
    obtain ⟨c, w, hw⟩ := List.exists_cons_of_ne_nil hne
    rw [hw, List.cons_append, List.cons.injEq, List.append_eq_nil_iff] at hchars
    obtain ⟨rfl, rfl, hr⟩ := hchars
    obtain rfl := (h.charsOf_eq_nil fun u hu => hg ▸ List.mem_cons_of_mem t hu).1 hr
    have hscan : Trivia.scan? b (t.text.toList ++ _) = some (t.kind, _) := hheads
    rw [hw, List.singleton_append, scan?_gap (by decide), Option.some.injEq, Prod.mk.injEq] at hscan
    obtain ⟨k, s⟩ := t
    rw [show s = " " from String.ext hw, show k = .whitespace from hscan.1.symm]
    rfl

end Document

/-- The verdicts of the contracts on two adjacent tokens, told by the text `g` between them. -/
structure Document.Judged (d : Document) (j : Nat) (g : List Char) : Prop where
  none_noWhitespace : GapContract.noWhitespace.check? d j (j + 1) = none ↔ g = []
  some_noWhitespace : g ≠ [] → GapContract.noWhitespace.check? d j (j + 1) = some (d.gapSpan j (j + 1))
  none_singleSpace : GapContract.singleSpace.check? d j (j + 1) = none ↔ g = [' ']
  /-- A space that is left out is reported on the right token. -/
  right_singleSpace : GapContract.singleSpace.check? d j (j + 1) = some (d.span (j + 1)) ↔ g = []
  some_singleSpace : g ≠ [] → g ≠ [' '] →
    GapContract.singleSpace.check? d j (j + 1) = some (d.gapSpan j (j + 1))

namespace Document

variable {d : Document}

/-- What is reported of adjacent tokens between which nothing should stand. -/
theorem Proper.check?_noWhitespace (h : d.Proper) (j : Nat) : GapContract.noWhitespace.check? d j (j + 1) =
    if d.gap (j + 1) = [] then none else some (d.gapSpan j (j + 1)) := by
  simp only [GapContract.check?, h.present, Bool.or_false, Bool.false_eq_true, if_false, gap, List.append_eq_nil_iff,
    Bool.and_eq_true, List.isEmpty_iff]

/-- What is reported of adjacent tokens between which one space should stand. -/
theorem Parsed.check?_singleSpace (h : d.Parsed) {j : Nat} (hj : j < d.endOfFile) :
    GapContract.singleSpace.check? d j (j + 1) =
      if d.gap (j + 1) = [.space] then none
      else if d.gap (j + 1) = [] then some (d.span (j + 1)) else some (d.gapSpan j (j + 1)) := by
  have hnone := h.check?_eq_none_iff .singleSpace hj
  have hp := h.proper.present
  cases ht : (d.token j).trailing with
  | nil =>
    have hgap : d.gap (j + 1) = [] := by
      rw [gap, ht, h.leading_eq_nil hj (by rw [ht]; exact fun t hm => absurd hm List.not_mem_nil)]
      rfl
    simp [GapContract.check?, hp, ht, hgap]
  | cons t ts =>
    have hne : d.gap (j + 1) ≠ [] := by simp [gap, ht]
    by_cases hkept : d.gap (j + 1) = [.space]
    · rw [if_pos hkept]
      exact hnone.2 hkept
    · rw [if_neg hkept, if_neg hne]
      have hbroken := mt hnone.1 hkept
      cases ts with
      | nil =>
        simp only [GapContract.check?, hp, ht, Bool.or_false, Bool.false_eq_true, if_false] at hbroken ⊢
        split at hbroken
        · exact absurd rfl hbroken
        · rename_i hspace
          rw [if_neg hspace]
      | cons u ts => simp [GapContract.check?, hp, ht]

/-- A region with text in front of a token is not that of the token. -/
theorem gapSpan_ne_span {j : Nat} (hlt : (d.span j).stop < (d.span (j + 1)).start) :
    d.gapSpan j (j + 1) ≠ d.span (j + 1) := fun heq =>
  Nat.ne_of_lt hlt (congrArg Span.start heq)

theorem Parsed.judged (h : d.Parsed) {j : Nat} (hj : j + 1 < d.size) :
    d.Judged j (charsOf ((d.gap (j + 1)).map .trivia)) := by
  have hs := d.size_eq
  have hj' : j < d.endOfFile := by omega
  have hnil := h.charsOf_eq_nil (j := j + 1) fun _ => id
  have hspace := h.charsOf_eq_space hj
  have hlt : d.gap (j + 1) ≠ [] → (d.span j).stop < (d.span (j + 1)).start := by
    intro hne
    obtain ⟨t, r, hg⟩ := List.exists_cons_of_ne_nil hne
    have hpos := h.width_pos (hg ▸ List.mem_cons_self : t ∈ d.gap (j + 1))
    rw [d.span_start hj, hg, Trivia.listWidth_cons]
    show (d.span j).stop < (d.span j).stop + _
    omega
  have hno := h.proper.check?_noWhitespace j
  have hone := h.check?_singleSpace hj'
  refine ⟨?_, fun hne => ?_, ?_, ?_, fun hne hne' => ?_⟩
  · rw [hnil, hno]
    split <;> simp [*]
  · rw [hno, if_neg (mt hnil.2 hne)]
  · rw [hspace]
    exact h.check?_eq_none_iff .singleSpace hj'
  · rw [hnil, hone]
    by_cases hg : d.gap (j + 1) = []
    · simp [hg]
    · have := gapSpan_ne_span (hlt hg)
      split <;> simp [*]
  · rw [hone, if_neg (mt hspace.2 hne'), if_neg (mt hnil.2 hne)]

/-- **The verdict of a contract is one on the text between the tokens**, in the document of a text. -/
theorem judged_of_ofSource {s : String} (h : ofSource s = .ok d) {j : Nat} (hj : j + 1 < d.size) :
    ∃ g, Text.slice? (d.span j).stop (d.span (j + 1)).start s.toList = some g ∧ d.Judged j g := by
  obtain ⟨hd, rfl⟩ := parsed_of_ofSource h
  refine ⟨_, Text.slice?_eq (hd.proper.text_eq_front hj) (d.width_front (by omega)).symm ?_, hd.judged hj⟩
  rw [width_trivia]
  exact d.span_start hj

/-- A comment and white space around a line break, on both sides of it. -/
theorem judged_of_ofSource_lines : ∃ d, ofSource "f /**/\n (" = .ok d ∧ ∃ g,
    Text.slice? (d.span 0).stop (d.span 1).start "f /**/\n (".toList = some g ∧ d.Judged 0 g ∧
    (d.token 1).leading = [.space] ∧ GapContract.singleSpace.check? d 0 1 = some ⟨1, 8⟩ := by
  obtain ⟨d, hd, h⟩ := exists_ok_of_any (e := ofSource "f /**/\n (") (p := fun d => decide (1 < d.size) &&
    ((d.token 1).leading == [.space] && GapContract.singleSpace.check? d 0 1 == some ⟨1, 8⟩)) (by decide +kernel)
  simp only [Bool.and_eq_true, decide_eq_true_eq, beq_iff_eq] at h
  obtain ⟨g, hg, hj⟩ := judged_of_ofSource hd h.1
  exact ⟨d, hd, g, hg, hj, h.2⟩

/-! ### The edit for a broken contract -/

end Document

/-- The text that a contract wants between two tokens. -/
def GapContract.wanted : GapContract → List Char
  | noWhitespace => []
  | singleSpace => [' ']

theorem GapContract.charsOf_trailing (c : GapContract) : charsOf (c.trailing.map .trivia) = c.wanted := by
  cases c <;> rfl

namespace Splice

/-- Setting a list leaves what it is set to. -/
theorem applyAll_setList? (n : Nat) (d : Document) (id : Nat) (slot : Slot) (ts : List Trivia) :
    applyAll n ((d.token id).trivia slot) (setList? d id slot ts).toList = .ok ts := by
  rw [setList?]
  split
  · rename_i heq
    rw [Option.toList_none, applyAll_nil, heq]
  · rw [Option.toList_some, applyAll_eq (c := 0) (a := ts) (Nat.zero_le _)]
    · rfl
    · exact fun x hx => List.mem_singleton.1 hx ▸ .inr ⟨rfl, rfl, rfl⟩
    · exact List.pairwise_singleton _ _
    · exact .inl ⟨_, List.mem_singleton.2 rfl, rfl⟩

theorem filter_setList? (d : Document) (id : Nat) (slot : Slot) (ts : List Trivia) (id' : Nat) (slot' : Slot) :
    ((setList? d id slot ts).toList.filter (·.token == id')).filter (·.slot == slot') =
      if id = id' ∧ slot = slot' then (setList? d id slot ts).toList else [] := by
  rw [List.filter_filter]
  cases hs : setList? d id slot ts with
  | none => simp
  | some x =>
    have hx : replaceAll d id slot ts = x := by
      rw [setList?] at hs
      split at hs
      · cases hs
      · exact Option.some.inj hs
    have htoken : x.token = id := hx ▸ rfl
    have hslot : x.slot = slot := hx ▸ rfl
    by_cases h : id = id' ∧ slot = slot'
    · rw [if_pos h]
      simp [htoken, hslot, h.1, h.2]
    · rw [if_neg h]
      simpa [htoken, hslot, and_comm] using h

end Splice

namespace Document

variable {d : Document} {c : GapContract} {j : Nat}

/-- Token `id` with the gap in front of token `j + 1` as the contract wants it. -/
def keepingToken (d : Document) (c : GapContract) (j id : Nat) : Token :=
  { d.token id with
    leading := if id = j + 1 then [] else (d.token id).leading
    trailing := if id = j then c.trailing else (d.token id).trailing }

theorem leading_keepingToken (d : Document) (c : GapContract) (j id : Nat) :
    (d.keepingToken c j id).leading = if id = j + 1 then [] else (d.token id).leading := rfl

theorem trailing_keepingToken (d : Document) (c : GapContract) (j id : Nat) :
    (d.keepingToken c j id).trailing = if id = j then c.trailing else (d.token id).trailing := rfl

/-- The other gaps are as they were. -/
theorem gap_of_keepingToken {q : Document} (hq : ∀ id < d.size, q.token id = d.keepingToken c j id) {i : Nat}
    (hi : i < d.size) (hne : i ≠ j + 1) : q.gap i = d.gap i := by
  cases i with
  | zero => rw [gap, gap, hq 0 hi, leading_keepingToken, if_neg hne]
  | succ i =>
    have hne' : i ≠ j := fun h => hne (by rw [h])
    rw [gap, gap, hq i (by omega), hq (i + 1) hi, trailing_keepingToken, leading_keepingToken, if_neg hne', if_neg hne]

theorem Proper.splice_gapEdit_token (h : d.Proper) (ruleId : String) (id : Nat) :
    (d.token id).splice id ((d.gapEdit c ruleId j).splices.filter (·.token == id)) =
      .ok (d.keepingToken c j id) := by
  refine Token.splice_eq (h.present id) ?_ ?_
  · rw [gapEdit, List.filter_append, List.filter_append, Splice.filter_setList?, Splice.filter_setList?,
      if_neg (by simp), List.nil_append]
    by_cases hid : id = j + 1
    · subst hid
      rw [if_pos ⟨rfl, rfl⟩, if_pos rfl]
      exact Splice.applyAll_setList? _ d _ .leading []
    · rw [if_neg (fun h' => hid h'.1.symm), if_neg hid]
      exact Splice.applyAll_nil _ _
  · rw [gapEdit, List.filter_append, List.filter_append, Splice.filter_setList?, Splice.filter_setList?,
      if_neg (c := j + 1 = id ∧ _) (by simp), List.append_nil]
    by_cases hid : id = j
    · subst hid
      rw [if_pos ⟨rfl, rfl⟩, if_pos rfl]
      exact Splice.applyAll_setList? _ d _ .trailing c.trailing
    · rw [if_neg (fun h' => hid h'.1.symm), if_neg hid]
      exact Splice.applyAll_nil _ _

/-- Documents with the same words and gaps up to token `j` have the same text up to its end. -/
theorem front_congr {q : Document} (hw : ∀ i ≤ j, q.piece i = d.piece i) (hg : ∀ i ≤ j, q.gap i = d.gap i) :
    q.front j = d.front j := by
  rw [front, front, show q.wordAt j = d.wordAt j from (Piece.word.inj (hw j (Nat.le_refl j))).2,
    weave_congr_from (n := j) (j := 0) (fun i _ hi => hw i (by omega)) fun i _ hi => hg i (by omega)]

/-- Documents with the same words from token `j` on and the same gaps behind it have the same text from there on. -/
theorem rest_congr {q : Document} (heof : q.endOfFile = d.endOfFile)
    (hw : ∀ i, j ≤ i → i < d.endOfFile → q.piece i = d.piece i)
    (hg : ∀ i, j < i → i ≤ d.endOfFile → q.gap i = d.gap i) : q.rest j = d.rest j := by
  rw [rest, rest, heof]
  cases hn : d.endOfFile - j with
  | zero => rfl
  | succ n =>
    rw [behind, behind, hw j (Nat.le_refl j) (by omega),
      weave_congr_from (fun i hi hin => hw i (by omega) (by omega)) fun i hi hin => hg i (by omega) (by omega)]

/-- The document `q` is `d` with what a contract wants between tokens `j` and `j + 1`: the words and all other trivia
are those of `d`, and there is nothing left to be reported or changed. -/
structure Restored (d : Document) (c : GapContract) (j : Nat) (q : Document) : Prop where
  size : q.size = d.size
  word : ∀ id < d.size, (d.token id).Rewraps (q.token id)
  others : ∀ id < d.size, ∀ slot, ¬ (id = j ∧ slot = .trailing) → ¬ (id = j + 1 ∧ slot = .leading) →
    (q.token id).trivia slot = (d.token id).trivia slot
  text : ∃ before gap after, d.text.toList = before ++ (gap ++ after) ∧ width before = (d.span j).stop ∧
    width (before ++ gap) = (d.span (j + 1)).start ∧ q.text.toList = before ++ (c.wanted ++ after)
  kept : c.check? q j (j + 1) = none
  done : ∀ ruleId, c.edit? q ruleId (q.gapSpan j (j + 1)) = some ⟨ruleId, q.gapSpan j (j + 1), []⟩

theorem Proper.restored (h : d.Proper) (hj : j + 1 < d.size) {q : Document}
    (hq : q.tokens.toList = (List.range d.size).map (d.keepingToken c j)) : d.Restored c j q := by
  have hs := d.size_eq
  have hlast : (d.keepingToken c j d.endOfFile).trailing = [] := by
    obtain ⟨ts, hts⟩ := h.last
    rw [trailing_keepingToken, if_neg (by omega), hts]
    rfl
  obtain ⟨hproper, hrewords, hq⟩ := h.of_tokens (f := d.keepingToken c j) (fun _ => ⟨_, _, rfl⟩) hlast hq
  have hwords : ∀ id < d.size, (d.token id).Rewraps (q.token id) := by
    intro id hid
    rw [hq id hid]
    refine ⟨rfl, rfl, rfl, fun hmiss => ?_⟩
    rw [h.present] at hmiss
    cases hmiss
  have hleft : (q.token j).trailing = c.trailing := by rw [hq j (by omega), trailing_keepingToken, if_pos rfl]
  have hright : (q.token (j + 1)).leading = [] := by rw [hq (j + 1) hj, leading_keepingToken, if_pos rfl]
  have hgap := fun i => gap_of_keepingToken hq (i := i)
  have hnew : q.gap (j + 1) = c.trailing := by rw [gap, hleft, hright, List.append_nil]
  have hsize : q.size = d.size := by rw [q.size_eq, hrewords.endOfFile, hs]
  refine ⟨hsize, hwords, fun id hid slot hnot hnot' => ?_, ?_, ?_, fun ruleId => ?_⟩
  · rw [hq id hid]
    cases slot with
    | leading => exact if_neg fun h => hnot' ⟨h, rfl⟩
    | trailing => exact if_neg fun h => hnot ⟨h, rfl⟩
  · have hfront : q.front j = d.front j :=
      front_congr (fun i hi => hrewords.piece i (by omega)) fun i hi => hgap i (by omega) (by omega)
    have hrest : q.rest (j + 1) = d.rest (j + 1) :=
      rest_congr hrewords.endOfFile (fun i _ hi => hrewords.piece i hi) fun i hi hin => hgap i (by omega) (by omega)
    refine ⟨d.front j, _, d.rest (j + 1), h.text_eq_front hj, d.width_front (by omega), ?_, ?_⟩
    · rw [Text.width_append, d.width_front (by omega), width_trivia]
      exact (d.span_start hj).symm
    · rw [hproper.text_eq_front (j := j) (by omega), hfront, hrest, hnew, c.charsOf_trailing]
  · unfold GapContract.check?
    simp only [hproper.present, hleft, hright, Bool.or_false, Bool.false_eq_true, if_false]
    cases c <;> rfl
  · have hfrom := hproper.tokenFrom_gapStart (j := j + 1) (by rw [hrewords.endOfFile]; omega)
    rw [hproper.edit?_eq c ruleId (j := j) hfrom]
    have hl : Splice.setList? q j .trailing c.trailing = none := if_pos hleft
    have hr : Splice.setList? q (j + 1) .leading [] = none := if_pos hright
    rw [gapEdit, hl, hr]
    rfl

theorem token_of_mem_gapEdit {ruleId : String} {x : Splice} (hx : x ∈ (d.gapEdit c ruleId j).splices) :
    (x.token = j ∧ x.slot = .trailing) ∨ (x.token = j + 1 ∧ x.slot = .leading) := by
  rcases mem_splices_gapEdit hx with rfl | rfl
  · exact .inl ⟨rfl, rfl⟩
  · exact .inr ⟨rfl, rfl⟩

/-- **A gap is brought in line with a contract exactly when the text is not too large with it.** -/
theorem Proper.applySplices_gapEdit (h : d.Proper) (hj : j + 1 < d.size) (c : GapContract) (ruleId : String) :
    (d.lengthAfter (d.gapEdit c ruleId j).splices ≤ maxBytes →
      ∃ q, d.applySplices (d.gapEdit c ruleId j).splices = .ok q ∧ d.Restored c j q) ∧
    (maxBytes < d.lengthAfter (d.gapEdit c ruleId j).splices →
      d.applySplices (d.gapEdit c ruleId j).splices = .error (.invalidSplice (.document .tooLarge))) := by
  have hlt : ∀ x ∈ (d.gapEdit c ruleId j).splices, x.token < d.size := by
    intro x hx
    rcases token_of_mem_gapEdit hx with h | h <;> omega
  obtain ⟨hmade, herror⟩ := h.applySplices_exact (f := d.keepingToken c j) (fun _ => ⟨_, _, rfl⟩) hlt
    fun id _ => h.splice_gapEdit_token ruleId id
  refine ⟨fun hle => ?_, herror⟩
  obtain ⟨q, hq, htokens⟩ := hmade hle
  exact ⟨q, hq, h.restored hj htokens⟩

end Document

end LayoutLint
