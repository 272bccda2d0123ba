import LayoutLint.Proofs.Fallible
import LayoutLint.Proofs.Lexing.Relex
import LayoutLint.Syntax.Outline
import Mathlib.Data.List.Basic
/-!
# Gaps — a document as words and what stands between them

The gap of a token is the trivia between the token before it and the token itself (`Document.gap`). A document that is
`Proper` — nothing is missing, and the only token without a word is the one that closes it — is told by its words and
its gaps, and its pieces are these in turn (`getD_gapsOf`, `wordsOf_eq`). The documents that texts are read as are
proper, and so is every document made from them by changing trivia.
-/
namespace LayoutLint

open Piece (Reads charsOf)

namespace Piece

/-- The words among pieces, each with its kind. -/
def wordsOf : List Piece → List (TokenKind × String)
  | [] => []
  | word k w :: ps => (k, w) :: wordsOf ps
  | trivia _ :: ps => wordsOf ps

/-- The runs of trivia in front of, between and behind the words of pieces. -/
def gapsOf : List Piece → List (List Trivia)
  | [] => [[]]
  | word _ _ :: ps => [] :: gapsOf ps
  | trivia t :: ps => (t :: (gapsOf ps).headD []) :: (gapsOf ps).tail

theorem gapsOf_eq_cons (ps : List Piece) : gapsOf ps = (gapsOf ps).headD [] :: (gapsOf ps).tail := by
  cases ps with
  | nil => rfl
  | cons p ps => cases p <;> rfl

theorem gapsOf_append (g : List Trivia) (ps : List Piece) :
    gapsOf (g.map .trivia ++ ps) = (g ++ (gapsOf ps).headD []) :: (gapsOf ps).tail := by
  induction g with
  | nil => exact gapsOf_eq_cons ps
  | cons t g ih => rw [List.map_cons, List.cons_append, gapsOf, ih]; rfl

theorem gapsOf_append_word (g : List Trivia) (k : TokenKind) (w : String) (ps : List Piece) :
    gapsOf (g.map .trivia ++ word k w :: ps) = g :: gapsOf ps := by
  rw [gapsOf_append]
  show (g ++ []) :: gapsOf ps = _
  rw [List.append_nil]

theorem gapsOf_trivia (g : List Trivia) : gapsOf (g.map .trivia) = [g] := by
  have := gapsOf_append g []
  rwa [List.append_nil, show (g ++ (gapsOf []).headD [] : List Trivia) = g from List.append_nil g] at this

@[simp] theorem wordsOf_append (ps qs : List Piece) : wordsOf (ps ++ qs) = wordsOf ps ++ wordsOf qs := by
  induction ps with
  | nil => rfl
  | cons p ps ih => cases p <;> simp [wordsOf, ih]

@[simp] theorem wordsOf_trivia (g : List Trivia) : wordsOf (g.map .trivia) = [] := by
  induction g with
  | nil => rfl
  | cons t g ih => exact ih

end Piece

/-! ### Joined breaks, gap by gap -/

/-- A break in front of trivia, one with the break there if it is a CR and that an LF. -/
def glueGap (t : Trivia) : List Trivia → List Trivia
  | [] => [t]
  | u :: g => if t = .endOfLine "\r" ∧ u = .endOfLine "\n" then .endOfLine "\r\n" :: g else t :: u :: g

/-- The trivia with every CR joined to the LF behind it. -/
def joinGap (g : List Trivia) : List Trivia := g.foldr glueGap []

theorem glue_trivia (t u : Trivia) (ps : List Piece) : glue (.trivia t) (.trivia u :: ps) =
    if t = .endOfLine "\r" ∧ u = .endOfLine "\n" then .trivia (.endOfLine "\r\n") :: ps
    else .trivia t :: .trivia u :: ps := by
  split
  · rename_i h
    rw [h.1, h.2]
    rfl
  · rename_i h
    rcases glue_cases (.trivia t) (.trivia u :: ps) with hg | ⟨ht, rest, hu, -⟩
    · exact hg
    · injection ht with ht
      injection hu with hu
      injection hu with hu
      exact absurd ⟨ht, hu⟩ h

theorem glue_of_head {p : Piece} {ps : List Piece} (h : ∀ t, ps.head? ≠ some (.trivia t)) : glue p ps = p :: ps := by
  rcases glue_cases p ps with hg | ⟨-, rest, rfl, -⟩
  · exact hg
  · exact absurd rfl (h _)

theorem joinGap_cons (t : Trivia) (g : List Trivia) : joinGap (t :: g) = glueGap t (joinGap g) := rfl

theorem joinBreaks_trivia_append (g : List Trivia) {ps : List Piece}
    (h : ∀ t, (joinBreaks ps).head? ≠ some (.trivia t)) :
    joinBreaks (g.map .trivia ++ ps) = (joinGap g).map .trivia ++ joinBreaks ps := by
  induction g with
  | nil => rfl
  | cons t g ih =>
    rw [List.map_cons, List.cons_append, joinBreaks_cons, ih, joinGap_cons]
    cases hg : joinGap g with
    | nil => exact glue_of_head h
    | cons u us =>
      rw [List.map_cons, List.cons_append, glue_trivia, glueGap]
      split <;> rfl

theorem joinBreaks_trivia (g : List Trivia) : joinBreaks (g.map .trivia) = (joinGap g).map .trivia := by
  have := @joinBreaks_trivia_append g [] (by simp [joinBreaks])
  rwa [List.append_nil, show joinBreaks [] = [] from rfl, List.append_nil] at this

theorem joinGap_eq_nil {g : List Trivia} : joinGap g = [] ↔ g = [] := by
  cases g with
  | nil => exact ⟨fun _ => rfl, fun _ => rfl⟩
  | cons t g =>
    rw [joinGap_cons]
    cases joinGap g with
    | nil => simp [glueGap]
    | cons u us =>
      rw [glueGap]
      split <;> simp

/-- Trivia is put in front of other trivia, unless it is a CR that is joined to an LF. -/
theorem glueGap_cases (t : Trivia) (g : List Trivia) : glueGap t g = t :: g ∨
    ∃ r, g = .endOfLine "\n" :: r ∧ t.isEndOfLine = true ∧ glueGap t g = .endOfLine "\r\n" :: r := by
  cases g with
  | nil => exact .inl rfl
  | cons u r =>
    rw [glueGap]
    split
    · rename_i h
      exact .inr ⟨r, by rw [h.2], by rw [h.1]; rfl, rfl⟩
    · exact .inl rfl

/-- Where no break meets another one none are joined. -/
theorem joinGap_append {a b : List Trivia} (h : (∀ u ∈ a.getLast?, u.isEndOfLine = false) ∨
    ∀ t ∈ b.head?, t.isEndOfLine = false) : joinGap (a ++ b) = joinGap a ++ joinGap b := by
  induction a with
  | nil => rfl
  | cons u a ih =>
    rw [List.cons_append, joinGap_cons, joinGap_cons, ih (h.imp_left fun h v hv => h v (List.mem_getLast?_cons hv))]
    cases hg : joinGap a with
    | nil =>
      obtain rfl := joinGap_eq_nil.1 hg
      rw [List.nil_append]
      rcases glueGap_cases u (joinGap b) with hglue | ⟨r, hr, hu, -⟩
      · exact hglue
      · rcases h with h | h
        · rw [h u rfl] at hu
          cases hu
        · -- The LF is the first piece, so it was there before breaks were joined.
          cases b with
          | nil => cases hr
          | cons t b =>
            rw [joinGap_cons] at hr
            rcases glueGap_cases t (joinGap b) with hglue | ⟨r', -, ht, -⟩
            · obtain ⟨rfl, -⟩ := List.cons.inj (hglue.symm.trans hr)
              cases h _ rfl
            · rw [h t rfl] at ht
              cases ht
    | cons v vs =>
      rw [List.cons_append, glueGap, glueGap]
      split <;> rfl

/-- A piece behind trivia, of which no break is joined to that in front of it. -/
theorem joinGap_concat {a : List Trivia} {t : Trivia}
    (h : t.isEndOfLine = false ∨ ∀ u ∈ a.getLast?, u.isEndOfLine = false) : joinGap (a ++ [t]) = joinGap a ++ [t] :=
  joinGap_append (h.symm.imp_right fun h _ hu => Option.some.inj hu ▸ h)

theorem gapsOf_glue (t : Trivia) (ps : List Piece) : Piece.gapsOf (glue (.trivia t) ps) =
    glueGap t ((Piece.gapsOf ps).headD []) :: (Piece.gapsOf ps).tail := by
  cases ps with
  | nil => rw [glue_of_head (by simp)]; rfl
  | cons p ps =>
    cases p with
    | word k w => rw [glue_of_head (by simp)]; rfl
    | trivia u =>
      rw [glue_trivia]
      simp only [Piece.gapsOf, List.headD_cons, List.tail_cons, glueGap]
      split <;> rfl

theorem gapsOf_joinBreaks (ps : List Piece) : Piece.gapsOf (joinBreaks ps) = (Piece.gapsOf ps).map joinGap := by
  induction ps with
  | nil => rfl
  | cons p ps ih =>
    rw [joinBreaks_cons]
    cases p with
    | word k w => rw [glue_word, Piece.gapsOf, ih, Piece.gapsOf]; rfl
    | trivia t =>
      rw [gapsOf_glue, ih, Piece.gapsOf, Piece.gapsOf_eq_cons ps]
      rfl

/-! ### Documents -/

namespace Document

/-- The trivia between a token and the one before it. -/
def gap (d : Document) : Nat → List Trivia
  | 0 => (d.token 0).leading
  | i + 1 => (d.token i).trailing ++ (d.token (i + 1)).leading

/-- The pieces of a document. -/
def parts (d : Document) : List Piece := Token.partsOf d.tokens.toList

/-- Nothing is missing, and the only token without a word is the one that closes the document, which nothing trails. -/
structure Proper (d : Document) : Prop where
  word : ∀ i < d.endOfFile, d.wordAt i ≠ ""
  kind : ∀ i < d.endOfFile, d.kindAt i ≠ .endOfFile
  present : ∀ i, (d.token i).missing = false
  last : ∃ ts, d.token d.endOfFile = { Token.endOfFile with leading := ts }

end Document

/-- The gaps of tokens of which the first follows the trivia `before`. -/
def gapsFrom (before : List Trivia) : List Token → List (List Trivia)
  | [] => []
  | t :: ts => (before ++ t.leading) :: gapsFrom t.trailing ts

theorem gapsFrom_getD (before : List Trivia) (ts : List Token) (i : Nat) :
    (gapsFrom before ts).getD (i + 1) [] =
      if i + 1 < ts.length then (ts.getD i .endOfFile).trailing ++ (ts.getD (i + 1) .endOfFile).leading else [] := by
  induction ts generalizing before i with
  | nil => rfl
  | cons t ts ih =>
    cases i with
    | zero =>
      cases ts with
      | nil => rfl
      | cons u ts => simp [gapsFrom]
    | succ i =>
      rw [gapsFrom, List.getD_cons_succ, ih]
      simp only [List.length_cons, List.getD_cons_succ]
      split <;> split <;> first | rfl | omega

/-- Words with their trivia, and at the end a token without a word that nothing trails. -/
def Closed : List Token → Prop
  | [] => False
  | [t] => t.text = "" ∧ t.trailing = []
  | t :: u :: ts => t.text ≠ "" ∧ Closed (u :: ts)

theorem parts_of_text {t : Token} (h : t.text ≠ "") :
    t.parts = t.leading.map .trivia ++ .word t.kind t.text :: t.trailing.map .trivia := by
  rw [Token.parts, Token.own, if_neg (by rw [String.isEmpty_iff]; exact h)]
  simp

theorem gapsOf_partsOf (before : List Trivia) : ∀ {ts : List Token}, Closed ts →
    Piece.gapsOf (before.map .trivia ++ Token.partsOf ts) = gapsFrom before ts ∧
      Piece.wordsOf (before.map .trivia ++ Token.partsOf ts) = ts.dropLast.map fun t => (t.kind, t.text)
  | [], h => h.elim
  | [t], h => by
    have ht : Token.partsOf [t] = t.leading.map .trivia := by
      simp [Token.partsOf, Token.parts, Token.own, h.1, h.2]
    rw [ht, ← List.map_append]
    exact ⟨Piece.gapsOf_trivia _, Piece.wordsOf_trivia _⟩
  | t :: u :: ts, h => by
    obtain ⟨hg, hw⟩ := gapsOf_partsOf t.trailing h.2
    have ht : before.map .trivia ++ Token.partsOf (t :: u :: ts) = (before ++ t.leading).map .trivia ++
        .word t.kind t.text :: (t.trailing.map .trivia ++ Token.partsOf (u :: ts)) := by
      rw [Token.partsOf_cons, parts_of_text h.1]
      simp
    rw [ht, Piece.gapsOf_append_word, hg]
    refine ⟨rfl, ?_⟩
    rw [Piece.wordsOf_append, Piece.wordsOf_trivia, List.nil_append, Piece.wordsOf, hw]
    rfl

namespace Document

variable {d : Document}

theorem token_eq_getD (d : Document) (i : Nat) : d.token i = d.tokens.toList.getD i .endOfFile := by
  rw [token, Array.getD_eq_getD_getElem?, List.getD_eq_getElem?_getD, Array.getElem?_toList]

theorem token_eq_getElem (d : Document) {i : Nat} (h : i < d.size) : d.token i = d.tokens[i] := by
  rw [token, Array.getD_eq_getD_getElem?, Array.getElem?_eq_getElem h, Option.getD_some]

theorem token_of_size_le {i : Nat} (h : d.size ≤ i) : d.token i = .endOfFile := by
  rw [token, Array.getD_eq_getD_getElem?, Array.getElem?_eq_none h, Option.getD_none]

theorem size_eq (d : Document) : d.size = d.endOfFile + 1 := by
  have := d.size_pos
  rw [endOfFile]
  omega

theorem Proper.closed (h : d.Proper) : Closed d.tokens.toList := by
  have key : ∀ (ts : List Token), ts ≠ [] →
      (∀ i, i + 1 < ts.length → (ts.getD i .endOfFile).text ≠ "") →
      ((ts.getD (ts.length - 1) .endOfFile).text = "" ∧ (ts.getD (ts.length - 1) .endOfFile).trailing = []) →
      Closed ts := by
    intro ts
    induction ts with
    | nil => exact fun h => absurd rfl h
    | cons t ts ih =>
      intro _ hw hl
      cases ts with
      | nil => exact hl
      | cons u ts =>
        refine ⟨hw 0 (by simp), ih (by simp) (fun i hi => ?_) hl⟩
        exact hw (i + 1) (by simp only [List.length_cons] at hi ⊢; omega)
  have hlen : d.tokens.toList.length = d.size := rfl
  have hs := d.size_eq
  refine key _ ?_ (fun i hi => ?_) ?_
  · intro hnil
    rw [hnil, List.length_nil] at hlen
    omega
  · rw [← token_eq_getD]
    exact h.word i (by omega)
  · obtain ⟨ts, hts⟩ := h.last
    rw [← token_eq_getD, hlen, show d.size - 1 = d.endOfFile from rfl, hts]
    exact ⟨rfl, rfl⟩

/-- **The gaps of a proper document are those of its pieces.** -/
theorem Proper.getD_gapsOf (h : d.Proper) (j : Nat) : (Piece.gapsOf d.parts).getD j [] = d.gap j := by
  have hg := (gapsOf_partsOf [] h.closed).1
  rw [List.map_nil, List.nil_append] at hg
  rw [parts, hg]
  cases j with
  | zero =>
    rw [gap, token_eq_getD]
    cases d.tokens.toList <;> rfl
  | succ i =>
    rw [gapsFrom_getD, gap, token_eq_getD, token_eq_getD]
    split
    · rfl
    · rename_i hi
      have hlen : d.tokens.toList.length = d.size := rfl
      have hs := d.size_eq
      rw [← token_eq_getD, ← token_eq_getD, token_of_size_le (d := d) (i := i + 1) (by omega)]
      by_cases he : i = d.endOfFile
      · obtain ⟨ts, hts⟩ := h.last
        rw [he, hts]
        rfl
      · rw [token_of_size_le (d := d) (i := i) (by omega)]
        rfl

/-- **The words of a proper document are those of its pieces.** -/
theorem Proper.wordsOf_eq (h : d.Proper) :
    Piece.wordsOf d.parts = (List.range d.endOfFile).map fun i => (d.kindAt i, d.wordAt i) := by
  have hw := (gapsOf_partsOf [] h.closed).2
  rw [List.map_nil, List.nil_append] at hw
  have hs := d.size_eq
  have hlen : d.tokens.toList.length = d.size := rfl
  rw [parts, hw]
  refine List.ext_getElem (by simp [hlen, endOfFile]) fun i h₁ h₂ => ?_
  have hi : i < d.size := by
    rw [List.length_map, List.length_dropLast] at h₁
    omega
  simp only [List.getElem_map, List.getElem_dropLast, List.getElem_range, kindAt, wordAt, token_eq_getElem d hi,
    Array.getElem_toList]
  rfl

end Document

/-! ### Documents of texts -/

theorem Attached.getD {ts : List Token} (h : Attached ts) :
    (∀ i, (ts.getD i .endOfFile).missing = false) ∧
    (∀ i, i + 1 < ts.length → (ts.getD i .endOfFile).kind ≠ .endOfFile ∧ (ts.getD i .endOfFile).text ≠ "" ∧
      ((ts.getD (i + 1) .endOfFile).leading ≠ [] → ∃ x ∈ (ts.getD i .endOfFile).trailing, x.isEndOfLine = true)) ∧
    ∃ l, ts.getD (ts.length - 1) .endOfFile = { Token.endOfFile with leading := l } := by
  induction h with
  | last l =>
    refine ⟨fun i => ?_, fun i hi => ?_, l, rfl⟩
    · cases i <;> rfl
    · simp only [List.length_singleton] at hi
      omega
  | cons kind text present line _ ih =>
    obtain ⟨hm, hw, l, hl⟩ := ih
    refine ⟨fun i => ?_, fun i hi => ?_, l, hl⟩
    · cases i with
      | zero => exact present
      | succ i => exact hm i
    · cases i with
      | zero => exact ⟨kind, text, line⟩
      | succ i => exact hw i (by simp only [List.length_cons] at hi ⊢; omega)

/-- Words that are all there, and the token that closes a document. -/
structure Whole (ts : List Token) : Prop where
  present : ∀ t ∈ ts, t.missing = false
  words : ∀ t ∈ ts.dropLast, t.kind ≠ .endOfFile
  last : ∃ t ∈ ts.getLast?, t.kind = .endOfFile

theorem checkTokensFrom_eq {index offset : Nat} : ∀ {ts : List Token},
    (∀ t ∈ ts, t.missing = true → t.isBare = true) → (∀ t ∈ ts.dropLast, t.kind ≠ .endOfFile) → offset ≤ maxBytes →
      checkTokensFrom index offset ts =
        if maxBytes < offset + total (ts.map Token.fullWidth) then .error .tooLarge else .ok ()
  | [], _, _, ho => (if_neg (by rw [List.map_nil, total_nil]; omega)).symm
  | t :: ts, hb, hw, ho => by
    have hlast : ¬ (t.isEndOfFile && !ts.isEmpty) = true := by
      rw [Bool.and_eq_true, Bool.not_eq_true', Token.isEndOfFile, beq_iff_eq]
      rintro ⟨hk, hne⟩
      cases ts with
      | nil => cases hne
      | cons u ts => exact hw t List.mem_cons_self hk
    have hbare : ¬ (t.missing && !t.isBare) = true := by
      rw [Bool.and_eq_true, Bool.not_eq_true']
      rintro ⟨hm, hne⟩
      rw [hb t List.mem_cons_self hm] at hne
      cases hne
    rw [checkTokensFrom, if_neg hlast, if_neg hbare, List.map_cons, total_cons, ← Nat.add_assoc]
    split
    · rw [if_pos (by omega)]
    · refine checkTokensFrom_eq (fun u hu => hb u (List.mem_cons_of_mem _ hu)) (fun u hu => ?_) (by omega)
      cases ts with
      | nil => cases hu
      | cons v ts => exact hw u (List.mem_cons_of_mem _ hu)

/-- Tokens that break no other rule make a document, unless it would be too large. -/
theorem checkTokens_eq {ts : List Token} (bare : ∀ t ∈ ts, t.missing = true → t.isBare = true)
    (words : ∀ t ∈ ts.dropLast, t.kind ≠ .endOfFile) (last : ∃ t ∈ ts.getLast?, t.kind = .endOfFile) :
    checkTokens ts = if maxBytes < total (ts.map Token.fullWidth) then .error .tooLarge else .ok () := by
  obtain ⟨t, ht, hk⟩ := last
  rw [checkTokens, ht]
  show (if t.isEndOfFile = true then _ else _) = _
  rw [if_pos (show t.isEndOfFile = true from beq_iff_eq.2 hk), checkTokensFrom_eq bare words (Nat.zero_le _),
    Nat.zero_add]

theorem Whole.checkTokens_eq {ts : List Token} (h : Whole ts) : checkTokens ts =
    if maxBytes < total (ts.map Token.fullWidth) then .error .tooLarge else .ok () :=
  LayoutLint.checkTokens_eq (fun t ht hm => absurd hm (by rw [h.present t ht]; exact Bool.false_ne_true)) h.words h.last

/-- Tokens that pass the check make a document. -/
theorem Document.exists_ofTokens {ts : List Token} (h : checkTokens ts = .ok ()) :
    ∃ d, ofTokens ts.toArray = .ok d ∧ d.tokens.toList = ts := by
  cases hd : ofTokens ts.toArray with
  | ok d => exact ⟨d, rfl, by rw [ofTokens_eq_ok_iff.1 hd]⟩
  | error e =>
    rw [ofTokens_eq_error_iff] at hd
    exact absurd (h.symm.trans hd) (by simp)

/-- **Whole tokens make a document, unless it would be too large.** -/
theorem Whole.ofTokens {ts : List Token} (h : Whole ts) :
    (∃ d, Document.ofTokens ts.toArray = .ok d ∧ d.tokens.toList = ts) ∨
      (Document.ofTokens ts.toArray = .error .tooLarge ∧ maxBytes < total (ts.map Token.fullWidth)) := by
  have hc := h.checkTokens_eq
  split at hc
  · rename_i hlarge
    exact .inr ⟨Document.ofTokens_eq_error_iff.2 hc, hlarge⟩
  · exact .inl (Document.exists_ofTokens hc)

theorem Attached.whole {ts : List Token} (h : Attached ts) : Whole ts := by
  induction h with
  | last l =>
    refine ⟨fun t ht => ?_, fun t ht => absurd ht List.not_mem_nil, _, rfl, rfl⟩
    rw [List.mem_singleton.1 ht]
    rfl
  | cons kind text present line _ ih =>
    refine ⟨fun t ht => ?_, fun t ht => ?_, ih.last⟩
    · rcases List.mem_cons.1 ht with rfl | ht
      · exact present
      · exact ih.present t ht
    · rcases List.mem_cons.1 ht with rfl | ht
      · exact kind
      · exact ih.words t ht

namespace Document

/-- The tokens of a proper document with other trivia are whole. -/
theorem Proper.whole_map {d : Document} (h : d.Proper) {f : Nat → Token}
    (hf : ∀ id, ∃ leading trailing, f id = { d.token id with leading, trailing }) :
    Whole ((List.range d.size).map f) := by
  have hs := d.size_eq
  have hkind : ∀ id, (f id).kind = d.kindAt id := by
    intro id
    obtain ⟨_, _, hid⟩ := hf id
    rw [hid]
    rfl
  refine ⟨fun t ht => ?_, fun t ht => ?_, f d.endOfFile, ?_, ?_⟩
  · obtain ⟨i, -, rfl⟩ := List.mem_map.1 ht
    obtain ⟨_, _, hid⟩ := hf i
    rw [hid]
    exact h.present i
  · rw [hs, List.range_succ, List.map_append, List.map_singleton, List.dropLast_concat] at ht
    obtain ⟨i, hi, rfl⟩ := List.mem_map.1 ht
    rw [hkind]
    exact h.kind i (List.mem_range.1 hi)
  · rw [hs, List.range_succ, List.map_append, List.map_singleton, List.getLast?_concat]
    rfl
  · obtain ⟨ts, hts⟩ := h.last
    rw [hkind, kindAt, hts]
    rfl

/-- A document as texts are read as: its pieces are what its text is read as, and in front of a token stands only what
follows a line break. -/
structure Parsed (d : Document) : Prop where
  proper : d.Proper
  reads : Reads true d.parts
  line : ∀ i < d.endOfFile, (d.token (i + 1)).leading ≠ [] → ∃ t ∈ (d.token i).trailing, t.isEndOfLine = true

theorem charsOf_parts (d : Document) : charsOf d.parts = d.text.toList := by
  rw [parts, Token.charsOf_partsOf, d.text_eq]

theorem tokens_of_ofSource {s : String} (h : ofSource s = .ok d) : d.tokens = tokensOf s := ofTokens_eq_ok_iff.1 h

/-- **The document of a text.** -/
theorem parsed_of_ofSource {s : String} (h : ofSource s = .ok d) : d.Parsed ∧ d.text = s := by
  obtain ⟨hr, htext, ha⟩ := reads_tokensOf s
  rw [← tokens_of_ofSource h] at hr htext ha
  obtain ⟨hm, hw, l, hl⟩ := ha.getD
  have hlen : d.tokens.toList.length = d.size := rfl
  have hs := d.size_eq
  simp only [← token_eq_getD] at hm hw hl
  refine ⟨⟨⟨fun i hi => ?_, fun i hi => ?_, hm, l, hl⟩, hr, fun i hi => ?_⟩, ?_⟩
  · exact (hw i (by omega)).2.1
  · exact (hw i (by omega)).1
  · exact (hw i (by omega)).2.2
  · have := d.charsOf_parts
    rw [parts, htext] at this
    exact String.ext this.symm

/-- A text that is not too large has a document. -/
theorem exists_ofSource {s : String} (h : s.utf8ByteSize ≤ maxBytes) : ∃ d, ofSource s = .ok d := by
  obtain ⟨-, htext, ha⟩ := reads_tokensOf s
  rcases ha.whole.ofTokens with ⟨d, hd, -⟩ | ⟨-, hlarge⟩
  · exact ⟨d, hd⟩
  · rw [Token.charsOf_partsOf] at htext
    rw [← utf8ByteSize_textOf, String.ext htext] at hlarge
    omega

/-- What closes a document is its end-of-file token. -/
theorem kindAt_endOfFile (d : Document) : d.kindAt d.endOfFile = .endOfFile := by
  have h := d.accepted
  rw [checkTokens] at h
  split at h
  · rename_i last hlast
    split at h
    · rename_i hk
      rw [List.getLast?_eq_getElem?, Array.length_toList, Array.getElem?_toList] at hlast
      rw [kindAt, token, endOfFile, size, Array.getD_eq_getD_getElem?, hlast]
      exact beq_iff_eq.1 hk
    · cases h
  · cases h

theorem length_le (d : Document) : d.length ≤ maxBytes := by
  have key : ∀ (ts : List Token) (index offset : Nat), checkTokensFrom index offset ts = .ok () → offset ≤ maxBytes →
      offset + total (ts.map Token.fullWidth) ≤ maxBytes := by
    intro ts
    induction ts with
    | nil => exact fun _ _ _ ho => ho
    | cons t ts ih =>
      intro index offset h ho
      rw [checkTokensFrom] at h
      split at h
      · cases h
      · split at h
        · cases h
        · split at h
          · cases h
          · have := ih _ _ h (by omega)
            rw [List.map_cons, total_cons]
            omega
  have h := d.accepted
  rw [checkTokens] at h
  split at h
  · split at h
    · have := key _ _ _ h (Nat.zero_le _)
      rwa [Nat.zero_add, ← utf8ByteSize_textOf, ← d.text_eq] at this
    · cases h
  · cases h

end Document

end LayoutLint
