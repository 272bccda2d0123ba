import LayoutLint.Program
import LayoutLint.Proofs.Layout.Places
import LayoutLint.Proofs.Syntax.NodeGaps
import LayoutLint.Proofs.Syntax.Tree
/-!
# Programs — a text that has been read

The document of a text looks as its words say (`Parsed.spelled`), so its tree is about gaps between a word and a
parenthesis only. In such a gap a contract is kept when the gap holds what the contract puts there, and nothing else
(`check?_eq_none_iff`).
-/
namespace LayoutLint

open Piece (Reads charsOf)

theorem Program.parse_eq_ok_iff {s : String} {p : Program} : Program.parse s = .ok p ↔
    s.utf8ByteSize ≤ maxBytes ∧ Document.ofSource s = .ok p.document ∧
      SyntaxTree.ofDocument? p.document = some p.tree := by
  unfold Program.parse
  split
  · rename_i h
    exact ⟨fun h' => (nomatch h'), fun ⟨h', _⟩ => by omega⟩
  · rename_i h
    split
    · rename_i e he
      exact ⟨fun h' => (nomatch h'), fun ⟨_, h', _⟩ => by rw [he] at h'; cases h'⟩
    · rename_i d hd
      split
      · rename_i ht
        refine ⟨fun h' => (nomatch h'), fun ⟨_, hd', ht'⟩ => ?_⟩
        obtain rfl := Except.ok.inj (hd.symm.trans hd')
        rw [ht] at ht'
        cases ht'
      · rename_i t ht
        constructor
        · intro h'
          obtain rfl := Except.ok.inj h'
          exact ⟨by omega, hd, ht⟩
        · rintro ⟨-, hd', ht'⟩
          obtain rfl := Except.ok.inj (hd.symm.trans hd')
          obtain rfl := Option.some.inj (ht.symm.trans ht')
          rfl

theorem Piece.Reads.heads : ∀ {b : Bool} {ps : List Piece}, Reads b ps → ∀ p ∈ ps, ∃ b' r, p.Heads b' r
  | _, _ :: _, h, _, hp => by
    rcases List.mem_cons.1 hp with rfl | hp
    · exact ⟨_, _, h.2.1⟩
    · exact h.2.2.heads _ hp

theorem Splice.eq_of_mem_setList? {d : Document} {token : Nat} {slot : Slot} {ts : List Trivia} {x : Splice}
    (hx : x ∈ (Splice.setList? d token slot ts).toList) : x = Splice.replaceAll d token slot ts := by
  rw [Option.mem_toList, Splice.setList?] at hx
  split at hx
  · cases hx
  · exact (Option.some.inj hx).symm

namespace Document

variable {d : Document}

theorem Proper.wordAt_endOfFile (h : d.Proper) : d.wordAt d.endOfFile = "" ∧ d.kindAt d.endOfFile = .endOfFile := by
  obtain ⟨ts, hts⟩ := h.last
  rw [wordAt, kindAt, hts]
  exact ⟨rfl, rfl⟩

theorem wordAt_of_endOfFile_lt {i : Nat} (hi : d.endOfFile < i) : d.wordAt i = "" ∧ d.kindAt i = .endOfFile := by
  have hs := d.size_eq
  rw [wordAt, kindAt, token_of_size_le (by omega)]
  exact ⟨rfl, rfl⟩

/-- Every word stands at the head of what is read from it on. -/
theorem Parsed.word_heads (h : d.Parsed) {i : Nat} (hi : i < d.endOfFile) :
    ∃ b r, (Piece.word (d.kindAt i) (d.wordAt i)).Heads b r := by
  have hs := d.size_eq
  have hmem : Piece.word (d.kindAt i) (d.wordAt i) ∈ d.parts := by
    refine List.mem_flatMap.2 ⟨d.token i, ?_, ?_⟩
    · rw [d.token_eq_getElem (by omega)]
      exact Array.mem_toList_iff.2 (Array.getElem_mem _)
    · rw [parts_of_text (h.proper.word i hi)]
      exact List.mem_append_right _ List.mem_cons_self
  exact h.reads.heads _ hmem

theorem Parsed.heads (h : d.Parsed) {i : Nat} (hi : i < d.endOfFile) :
    ∃ r, Token.scan ((d.wordAt i).toList ++ r) = (d.kindAt i, (d.wordAt i).toList.length) := by
  obtain ⟨b, r, hr⟩ := h.word_heads hi
  exact ⟨r, hr.2⟩

/-- A word is of a kind that its first character tells. -/
theorem Parsed.kindAt_of_head (h : d.Parsed) {i : Nat} {c : Char} {w : List Char} {k : TokenKind}
    (hw : (d.wordAt i).toList = c :: w) (hk : ∀ s, (Token.scan (c :: s)).1 = k) : d.kindAt i = k := by
  have hne : d.wordAt i ≠ "" := fun hnil => by rw [hnil] at hw; cases hw
  rcases Nat.lt_trichotomy i d.endOfFile with hlt | rfl | hgt
  · obtain ⟨r, hr⟩ := h.heads hlt
    have hhead := hk (w ++ r)
    rw [← List.cons_append, ← hw, hr] at hhead
    exact hhead
  · exact absurd h.proper.wordAt_endOfFile.1 hne
  · exact absurd (wordAt_of_endOfFile_lt hgt).1 hne

/-- **The document of a text looks as its words say.** -/
theorem Parsed.spelled (h : d.Parsed) : d.Spelled where
  eof := h.proper.wordAt_endOfFile.1
  eofKind := h.proper.wordAt_endOfFile.2
  quoted i hk := by
    rcases Nat.lt_trichotomy i d.endOfFile with hlt | rfl | hgt
    · obtain ⟨r, hr⟩ := h.heads hlt
      have hq := quote_mem_of_isQuoted hr hk
      rw [List.take_left] at hq
      rw [isQuotedWord, List.any_eq_true]
      rcases hq with hq | hq
      · exact ⟨_, hq, rfl⟩
      · exact ⟨_, hq, rfl⟩
    · rw [h.proper.wordAt_endOfFile.2] at hk
      cases hk
    · rw [(wordAt_of_endOfFile_lt hgt).2] at hk
      cases hk
  paren i hw := h.kindAt_of_head (c := ')') (w := []) (by rw [hw]; rfl) fun s => by rw [scan_closingParen]

/-- **The gaps that the tree of a text is about.** -/
theorem Parsed.gaps_of_tree (h : d.Parsed) {t : SyntaxTree} (ht : SyntaxTree.ofDocument? d = some t) :
    ∃ opens : List Nat, ∀ n ∈ t.nodes, ∀ c left right, n.gap? = some (c, left, right) →
      (Outline.ofDocument d).Meets c left right ∧ (c = .singleSpace ↔ right ∈ opens) :=
  Outline.gaps_of_tree? (Outline.sound_ofDocument d) h.spelled ht

/-! ### Line breaks -/

theorem Parsed.isBreak_of_mem_gap (h : d.Parsed) {j : Nat} {t : Trivia} (ht : t ∈ d.gap j) (he : t.isEndOfLine = true) :
    IsBreak t.text.toList := by
  obtain ⟨b, r, hr⟩ := h.reads.heads _ (mem_parts_of_mem_gap ht)
  exact hr.isBreak (beq_iff_eq.1 he)

/-- The line break that a text uses is one. -/
theorem Parsed.isBreak_lineBreak (h : d.Parsed) : IsBreak d.lineBreak.toList := by
  rw [lineBreak]
  split
  · rename_i t ht
    obtain ⟨u, hu, hfind⟩ := List.exists_of_findSome?_eq_some ht
    have he := List.find?_some hfind
    have hmem : Piece.trivia t ∈ d.parts := by
      refine List.mem_flatMap.2 ⟨u, hu, ?_⟩
      rw [Token.parts]
      rcases List.mem_append.1 (List.mem_of_find?_eq_some hfind) with hm | hm
      · exact List.mem_append_left _ (List.mem_append_left _ (List.mem_map_of_mem hm))
      · exact List.mem_append_right _ (List.mem_map_of_mem hm)
    obtain ⟨b, r, hr⟩ := h.reads.heads _ hmem
    exact hr.isBreak (beq_iff_eq.1 he)
  · exact .inr (.inl rfl)

/-! ### Contracts -/

/-- A gap of which nothing trails the token in front of it is empty. -/
theorem Parsed.leading_eq_nil (h : d.Parsed) {j : Nat} (hj : j < d.endOfFile)
    (ht : ∀ t ∈ (d.token j).trailing, t.isEndOfLine = false) : (d.token (j + 1)).leading = [] := by
  by_cases hl : (d.token (j + 1)).leading = []
  · exact hl
  · obtain ⟨t, htm, hte⟩ := h.line j hj hl
    rw [ht t htm] at hte
    cases hte

theorem isSingleSpace_iff (t : Trivia) : t.isSingleSpace = true ↔ t = .space := by
  obtain ⟨k, w⟩ := t
  simp [Trivia.isSingleSpace, Trivia.isWhitespace, Trivia.space, Trivia.whitespace]

/-- **A contract is kept by the gap that it puts there, and by no other.** -/
theorem Parsed.check?_eq_none_iff (h : d.Parsed) (c : GapContract) {j : Nat} (hj : j < d.endOfFile) :
    c.check? d j (j + 1) = none ↔ d.gap (j + 1) = c.trailing := by
  have hp := h.proper.present
  unfold GapContract.check?
  simp only [hp, Bool.or_false, Bool.false_eq_true, if_false, gap]
  cases c with
  | noWhitespace => simp [GapContract.trailing]
  | singleSpace =>
    cases ht : (d.token j).trailing with
    | nil =>
      rw [h.leading_eq_nil hj (by rw [ht]; exact fun t h => absurd h List.not_mem_nil)]
      simp [GapContract.trailing]
    | cons t ts =>
      cases ts with
      | nil =>
        by_cases hs : t.isSingleSpace = true
        · have hsp := (isSingleSpace_iff t).1 hs
          rw [h.leading_eq_nil hj (by rw [ht]; simp [hsp, Trivia.isEndOfLine, Trivia.space, Trivia.whitespace])]
          simp [hsp, (isSingleSpace_iff _).2 rfl, GapContract.trailing]
        · have hsp : t ≠ .space := fun h' => hs ((isSingleSpace_iff t).2 h')
          simp [hs, hsp, GapContract.trailing]
      | cons u ts => simp [GapContract.trailing]

/-- Where a broken contract is reported, its gap is found again. -/
theorem Parsed.tokenFrom_check? (h : d.Parsed) {c : GapContract} {j : Nat} (hj : j + 1 ≤ d.endOfFile) {s : Span}
    (hs : c.check? d j (j + 1) = some s) : d.tokenFrom s.start = j + 1 := by
  have hgap : d.tokenFrom (d.gapSpan j (j + 1)).start = j + 1 := h.proper.tokenFrom_gapStart (j := j + 1) hj
  have hspan : d.tokenFrom (d.span (j + 1)).start = j + 1 := h.proper.tokenFrom_span_start hj
  unfold GapContract.check? at hs
  simp only [h.proper.present, Bool.or_false, Bool.false_eq_true, if_false] at hs
  cases c with
  | noWhitespace =>
    dsimp only at hs
    split at hs
    · cases hs
    · exact Option.some.inj hs ▸ hgap
  | singleSpace =>
    dsimp only at hs
    split at hs
    · exact Option.some.inj hs ▸ hspan
    · split at hs
      · cases hs
      · exact Option.some.inj hs ▸ hgap
    · exact Option.some.inj hs ▸ hgap

/-- The edit that brings the gap in front of token `j + 1` in line with a contract. -/
def gapEdit (d : Document) (c : GapContract) (ruleId : String) (j : Nat) : Edit where
  ruleId
  span := d.gapSpan j (j + 1)
  splices := (Splice.setList? d j .trailing c.trailing).toList ++ (Splice.setList? d (j + 1) .leading []).toList

theorem mem_splices_gapEdit {c : GapContract} {ruleId : String} {j : Nat} {x : Splice}
    (hx : x ∈ (d.gapEdit c ruleId j).splices) :
    x = Splice.replaceAll d j .trailing c.trailing ∨ x = Splice.replaceAll d (j + 1) .leading [] :=
  (List.mem_append.1 hx).imp Splice.eq_of_mem_setList? Splice.eq_of_mem_setList?

theorem Proper.edit?_eq (h : d.Proper) (c : GapContract) (ruleId : String) {j : Nat} {s : Span}
    (hs : d.tokenFrom s.start = j + 1) : c.edit? d ruleId s = some (d.gapEdit c ruleId j) := by
  have hp := h.present
  simp only [GapContract.edit?, hs, Nat.succ_ne_zero, if_false, Nat.add_sub_cancel, hp, Bool.or_false,
    Bool.false_eq_true]
  rfl

/-- The edit of a broken contract has something to do. -/
theorem gapEdit_splices_ne_nil {c : GapContract} {ruleId : String} {j : Nat}
    (hbroken : d.gap (j + 1) ≠ c.trailing) : (d.gapEdit c ruleId j).splices ≠ [] := by
  intro hnil
  obtain ⟨h₁, h₂⟩ := List.append_eq_nil_iff.1 hnil
  simp only [Splice.setList?, Option.toList_eq_nil_iff, ite_eq_left_iff, reduceCtorEq, imp_false,
    Decidable.not_not] at h₁ h₂
  apply hbroken
  rw [gap, show (d.token j).trailing = c.trailing from h₁, show (d.token (j + 1)).leading = [] from h₂,
    List.append_nil]

end Document

end LayoutLint
