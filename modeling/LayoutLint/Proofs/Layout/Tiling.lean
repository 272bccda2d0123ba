import LayoutLint.Proofs.Layout.Boundaries
/-!
# Tiling — a document covers its text

Every byte of a text belongs to one piece of its document: the regions of the tokens follow one another from the start
of the text to its end, and each word and each piece of trivia is what the text says in its region (`Document.Tiled`).
So both searches by an offset find what they look for, whatever stands there: tokens without a byte share their place
with the token behind them, and no byte is theirs.
-/
namespace LayoutLint

open Piece (charsOf)
open Text (width)

namespace Text

/-- What stands between two parts of a text is the slice between their ends. -/
theorem slice?_eq {cs a b c : List Char} {start stop : Nat} (hcs : cs = a ++ (b ++ c)) (hstart : start = width a)
    (hstop : stop = start + width b) : slice? start stop cs = some b := by
  subst hcs hstart hstop
  rw [slice?, if_pos (Nat.le_add_right _ _), Nat.add_sub_cancel_left, splitAtByte?_append]
  show (splitAtByte? (width b) (b ++ c)).bind _ = some b
  rw [splitAtByte?_append]
  rfl

theorem slice?_eq_some_iff {cs b : List Char} {start stop : Nat} : slice? start stop cs = some b ↔
    ∃ a c, cs = a ++ (b ++ c) ∧ start = width a ∧ stop = start + width b := by
  constructor
  · intro h
    rw [slice?] at h
    split at h
    · rename_i hle
      obtain ⟨⟨a, r⟩, hfront, h⟩ := Option.bind_eq_some_iff.1 h
      obtain ⟨⟨b', c⟩, hpart, h⟩ := Option.bind_eq_some_iff.1 h
      obtain rfl : b' = b := Option.some.inj h
      obtain ⟨rfl, hw⟩ := width_of_splitAtByte? hfront
      obtain ⟨rfl, hw'⟩ := width_of_splitAtByte? hpart
      exact ⟨a, c, rfl, by omega, by omega⟩
    · cases h
  · rintro ⟨a, c, hcs, hstart, hstop⟩
    exact slice?_eq hcs hstart hstop

/-- A text is cut at an offset in one way only. -/
theorem append_inj_of_width {a b c d : List Char} (h : a ++ b = c ++ d) (hw : width a = width c) : a = c ∧ b = d := by
  have hcut := splitAtByte?_append a b
  rw [hw, h, splitAtByte?_append] at hcut
  obtain ⟨hac, hbd⟩ := Prod.mk.inj (Option.some.inj hcut)
  exact ⟨hac.symm, hbd.symm⟩

end Text

namespace Document

variable {d : Document}

/-- The regions of the tokens cover the text without a gap, words and trivia say what the text says in their regions,
and the tokens found by an offset are those asked for. -/
structure Tiled (d : Document) : Prop where
  first : (d.fullSpan 0).start = 0
  next : ∀ id < d.endOfFile, (d.fullSpan id).stop = (d.fullSpan (id + 1)).start
  last : (d.fullSpan d.endOfFile).stop = d.length
  word : ∀ id < d.size, Text.slice? (d.span id).start (d.span id).stop d.text.toList = some (d.token id).text.toList
  piece : ∀ x ∈ d.trivia, ((d.token x.token).trivia x.slot)[x.index]? = some x.trivia ∧
    Text.slice? x.span.start x.span.stop d.text.toList = some x.trivia.text.toList
  listed : ∀ id < d.size, ∀ slot k t, ((d.token id).trivia slot)[k]? = some t →
    ∃ x ∈ d.trivia, x.token = id ∧ x.slot = slot ∧ x.index = k ∧ x.trivia = t
  ordered : ∀ x ∈ d.trivia, x.span.start ≤ x.span.stop
  apart : d.trivia.Pairwise fun x y => x.span.stop ≤ y.span.start
  /-- The token at an offset is the one token with the byte in its region. -/
  around : ∀ offset < d.length, ∀ id, d.tokenAt offset = id ↔ id < d.size ∧ (d.fullSpan id).contains offset = true
  behind : ∀ offset, d.length ≤ offset → d.tokenAt offset = d.endOfFile
  /-- The token from an offset on is the first one that does not start in front of it. -/
  onward : ∀ offset, ∀ id < d.size, (∀ i < id, (d.span i).start < offset) → offset ≤ (d.span id).start →
    d.tokenFrom offset = id
  beyond : ∀ offset, (∀ id < d.size, (d.span id).start < offset) → d.tokenFrom offset = d.endOfFile

theorem fullSpan_stop (d : Document) {id : Nat} (h : id < d.size) : (d.fullSpan id).stop = d.fullStart (id + 1) :=
  (d.fullStart_succ h).symm

/-- **A word is what the text says in its region.** -/
theorem slice?_span (d : Document) {id : Nat} (hid : id < d.size) :
    Text.slice? (d.span id).start (d.span id).stop d.text.toList = some (d.token id).text.toList := by
  have hcs := d.text_eq_around hid
  rw [← List.append_assoc] at hcs
  refine Text.slice?_eq hcs ?_ ?_
  · rw [Text.width_append, d.width_partsOf_take (Nat.le_of_lt hid), width_trivia]
    rfl
  · rw [span_stop_eq, Token.textWidth, Text.utf8ByteSize_eq_width]

/-- A piece of trivia stands behind the text of the pieces in front of it. -/
theorem charsOf_eq_around {ts : List Trivia} {k : Nat} {t : Trivia} (h : ts[k]? = some t) :
    charsOf (ts.map .trivia) =
      charsOf ((ts.take k).map .trivia) ++ (t.text.toList ++ charsOf ((ts.drop (k + 1)).map .trivia)) := by
  obtain ⟨hk, rfl⟩ := List.getElem?_eq_some_iff.1 h
  rw [charsOf_take_append_drop ts k, List.drop_eq_getElem_cons hk, List.map_cons, Piece.charsOf_cons]
  rfl

/-- **A piece of trivia is what the text says in its region.** -/
theorem slice?_piece (d : Document) {id : Nat} (hid : id < d.size) {slot : Slot} {k : Nat} {t : Trivia}
    (ht : ((d.token id).trivia slot)[k]? = some t) :
    Text.slice? (d.pieceStart id slot k) (d.pieceStart id slot (k + 1)) d.text.toList = some t.text.toList := by
  have hcs := d.text_eq_around hid
  have hstop : d.pieceStart id slot (k + 1) = d.pieceStart id slot k + width t.text.toList := by
    rw [pieceStart, pieceStart, Trivia.listWidth_take_succ ht, Nat.add_assoc, Trivia.width, Text.utf8ByteSize_eq_width]
  cases slot with
  | leading =>
    have ht : (d.token id).leading[k]? = some t := ht
    rw [charsOf_eq_around ht, List.append_assoc, List.append_assoc,
      ← List.append_assoc] at hcs
    refine Text.slice?_eq hcs ?_ hstop
    rw [Text.width_append, d.width_partsOf_take (Nat.le_of_lt hid), width_trivia]
    rfl
  | trailing =>
    have ht : (d.token id).trailing[k]? = some t := ht
    rw [charsOf_eq_around ht, List.append_assoc, List.append_assoc, ← List.append_assoc,
      ← List.append_assoc, ← List.append_assoc] at hcs
    refine Text.slice?_eq hcs ?_ hstop
    have hword := d.span_stop_eq_width hid
    simp only [Text.width_append, width_trivia] at hword ⊢
    rw [Nat.add_assoc (width _) (Trivia.listWidth _), ← hword]
    rfl

/-! ### The whole document -/

theorem contains_fullSpan_iff (d : Document) {id offset : Nat} (hid : id < d.size) :
    (d.fullSpan id).contains offset = true ↔ d.fullStart id ≤ offset ∧ offset < d.fullStart (id + 1) := by
  rw [Span.contains, Bool.and_eq_true, decide_eq_true_eq, decide_eq_true_eq, d.fullSpan_stop hid]
  exact Iff.rfl

theorem mem_trivia (d : Document) {x : PlacedTrivia} :
    x ∈ d.trivia ↔ ∃ id < d.size, ∃ slot, x ∈ d.slotTrivia id slot := by
  simp only [trivia, List.mem_flatMap, List.mem_range, tokenTrivia, List.mem_append]
  constructor
  · rintro ⟨id, hid, hx | hx⟩
    · exact ⟨id, hid, .leading, hx⟩
    · exact ⟨id, hid, .trailing, hx⟩
  · rintro ⟨id, hid, slot, hx⟩
    cases slot
    · exact ⟨id, hid, .inl hx⟩
    · exact ⟨id, hid, .inr hx⟩

theorem tiled (d : Document) : d.Tiled where
  first := d.fullStart_zero
  next id hid := d.fullSpan_stop (by have := d.size_eq; omega)
  last := by
    have hs := d.size_eq
    rw [d.fullSpan_stop (by omega), ← hs, d.fullStart_size]
  word id hid := d.slice?_span hid
  piece x hx := by
    obtain ⟨id, hid, slot, hx⟩ := d.mem_trivia.1 hx
    obtain ⟨k, t, ht, rfl⟩ := d.mem_slotTrivia.1 hx
    exact ⟨ht, d.slice?_piece hid ht⟩
  listed id hid slot k t ht :=
    ⟨_, d.mem_trivia.2 ⟨id, hid, slot, d.mem_slotTrivia.2 ⟨k, t, ht, rfl⟩⟩, rfl, rfl, rfl, rfl⟩
  ordered x hx := by
    obtain ⟨id, -, slot, hx⟩ := d.mem_trivia.1 hx
    exact (d.slotTrivia_bounds hx).2.1
  apart := d.pairwise_trivia
  around offset ho id := by
    rw [d.tokenAt_eq_iff ho]
    exact and_congr_right fun hid => (d.contains_fullSpan_iff hid).symm
  behind offset ho := if_pos ho
  onward offset id hid hbefore ho := d.tokenFrom_eq (by have := d.size_eq; omega) hbefore ho
  beyond offset hbefore := by
    have hs := d.size_eq
    have hle : d.tokenFrom offset ≤ d.endOfFile := (le_firstWhere _ 0 d.endOfFile (Nat.zero_le _)).2
    rcases Nat.lt_or_eq_of_le hle with hlt | heq
    · exact absurd ((d.lt_tokenFrom_iff hlt).2 (hbefore _ (by omega))) (Nat.lt_irrefl _)
    · exact heq

/-- **The document of tokens covers its text**, and both searches by an offset find what they look for in it. -/
theorem tiled_of_ofTokens {tokens : Array Token} (h : ofTokens tokens = .ok d) : d.tokens = tokens ∧ d.Tiled :=
  ⟨ofTokens_eq_ok_iff.1 h, d.tiled⟩

/-- A missing token, and one without text, in front of a word: the byte is the word's, the place that of all three. -/
theorem tiled_of_ofTokens_missing : ∃ d, ofTokens #[{ kind := .identifier, text := "a", trailing := [.space] },
    Token.absent .punctuation, { kind := .identifier, text := "" }, { kind := .punctuation, text := ";" },
    Token.endOfFile] = .ok d ∧ d.Tiled ∧ d.tokenAt 2 = 3 ∧ d.tokenFrom 2 = 1 := by
  obtain ⟨d, hd, h⟩ := exists_ok_of_any (e := ofTokens #[{ kind := .identifier, text := "a", trailing := [.space] },
    Token.absent .punctuation, { kind := .identifier, text := "" }, { kind := .punctuation, text := ";" },
    Token.endOfFile]) (p := fun d => d.tokenAt 2 == 3 && d.tokenFrom 2 == 1) (by decide +kernel)
  rw [Bool.and_eq_true, beq_iff_eq, beq_iff_eq] at h
  exact ⟨d, hd, (tiled_of_ofTokens hd).2, h⟩

end Document

end LayoutLint
