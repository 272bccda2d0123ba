import LayoutLint.Proofs.Lexing.Pieces
/-!
# Relex — reading a text again after its trivia has changed

Mending takes away white space at the ends of lines, cuts blanks at the end of the text, and clears what stands between
a word and a parenthesis (`Mended`). The text that is left is read as the pieces that are left (`Mended.reads`); only a
CR that has come to stand in front of an LF is one break with it (`joinBreaks`). A line break put at the end of the text
is a piece of its own, unless a literal or a block comment that nothing closes takes it in (`reads_append_break`).
-/
namespace LayoutLint

open Piece (Reads charsOf)

variable {p : Piece} {ps qs : List Piece}

/-- A break in front of pieces, one with the break there if it is a CR and that an LF. -/
def glue : Piece → List Piece → List Piece
  | .trivia ⟨.endOfLine, "\r"⟩, .trivia ⟨.endOfLine, "\n"⟩ :: ps => .trivia (.endOfLine "\r\n") :: ps
  | p, ps => p :: ps

/-- The pieces with every CR joined to the LF behind it. -/
def joinBreaks (ps : List Piece) : List Piece := ps.foldr glue []

theorem glue_cases (p : Piece) (ps : List Piece) :
    glue p ps = p :: ps ∨ (p = .trivia (.endOfLine "\r") ∧ ∃ rest, ps = .trivia (.endOfLine "\n") :: rest ∧
      glue p ps = .trivia (.endOfLine "\r\n") :: rest) := by
  unfold glue
  split
  · exact .inr ⟨rfl, _, rfl, rfl⟩
  · exact .inl rfl

@[simp] theorem charsOf_glue (p : Piece) (ps : List Piece) : charsOf (glue p ps) = p.chars ++ charsOf ps := by
  rcases glue_cases p ps with h | ⟨rfl, rest, rfl, h⟩
  · rw [h, Piece.charsOf_cons]
  · rw [h]
    rfl

@[simp] theorem charsOf_joinBreaks (ps : List Piece) : charsOf (joinBreaks ps) = charsOf ps := by
  induction ps with
  | nil => rfl
  | cons p ps ih => rw [joinBreaks, List.foldr_cons, ← joinBreaks, charsOf_glue, ih, Piece.charsOf_cons]

/-- What a round of mending does to the pieces of a text. -/
inductive Mended : List Piece → List Piece → Prop
  | nil : Mended [] []
  | keep (p : Piece) {ps qs : List Piece} : Mended ps qs → Mended (p :: ps) (p :: qs)
  /-- White space in front of a line break, or at the end of the text. -/
  | drop (w : String) {ps qs : List Piece} : (∀ p ∈ ps.head?, p.isEndOfLine = true) → Mended ps qs →
    Mended (.trivia (.whitespace w) :: ps) qs
  /-- Blanks at the end of the text, for which a line break may stand in. -/
  | cut {ps qs : List Piece} : (∀ p ∈ ps, p.isBlank = true) → ps ≠ [] →
    (qs = [] ∨ ∃ e : String, IsBreak e.toList ∧ qs = [.trivia (.endOfLine e)]) → Mended ps qs
  /-- What stands between two words of which the second is a parenthesis, or the first one closes a cast. -/
  | gap {k k' : TokenKind} {l r : String} (g g' : List Trivia) {ps qs : List Piece} : k.isQuoted = false →
    (r = "(" ∧ (g' = [] ∨ g' = [.space])) ∨ (l = ")" ∧ g' = []) →
    Mended (.word k' r :: ps) (.word k' r :: qs) →
    Mended (.word k l :: (g.map .trivia ++ .word k' r :: ps)) (.word k l :: (g'.map .trivia ++ .word k' r :: qs))

/-! ### Single pieces -/

namespace Piece

theorem Heads.isBreak {b : Bool} {t : Trivia} {r : List Char} (h : (Piece.trivia t).Heads b r)
    (hk : t.kind = .endOfLine) : IsBreak t.text.toList := by
  have hs : Trivia.scan? b (t.text.toList ++ r) = some (t.kind, t.text.toList.length) := h
  rw [hk] at hs
  have := isBreak_of_scan? hs
  rwa [List.take_left] at this

/-- The end of a line is a piece of its own. -/
theorem heads_endOfLine {b : Bool} {e : String} (he : IsBreak e.toList) {r : List Char}
    (hr : e.toList = ['\r'] → r.head? ≠ some '\n') : (Piece.trivia (.endOfLine e)).Heads b r := by
  show Trivia.scan? b (e.toList ++ r) = some (.endOfLine, e.toList.length)
  rcases he with he | he | he
  · rw [he]
    have hlf := hr he
    rw [List.singleton_append, scan?_break (by decide)]
    cases r with
    | nil => rfl
    | cons d r =>
      have hd : d ≠ '\n' := fun h => hlf (by rw [h]; rfl)
      simp [breakLength, hd, isBreakChar]
  · rw [he, List.singleton_append, scan?_break (by decide)]
    rfl
  · rw [he]
    show Trivia.scan? b ('\r' :: '\n' :: r) = _
    rw [scan?_break (by decide)]
    rfl

/-- What stands at an LF is a line break. -/
theorem Heads.eq_newline {b : Bool} {p : Piece} {r : List Char} (h : p.Heads b r) (hp : p.chars ≠ [])
    (hn : p.chars.head? = some '\n') : p = .trivia (.endOfLine "\n") := by
  refine h.eq (heads_endOfLine (r := p.chars.tail ++ r) (.inr (.inl rfl)) fun h => absurd h (by decide)) ?_
  obtain ⟨c, s, hs⟩ := List.exists_cons_of_ne_nil hp
  rw [hs, List.head?_cons, Option.some.injEq] at hn
  rw [hs, hn]
  rfl

/-- What stands at a CR is a line break. -/
theorem Heads.eq_endOfLine {b : Bool} {t : Trivia} {r : List Char} (h : (Piece.trivia t).Heads b r)
    (ht : t.text.toList = ['\r']) : t = .endOfLine "\r" := by
  have hs : Trivia.scan? b (t.text.toList ++ r) = some (t.kind, t.text.toList.length) := h
  rw [ht, List.singleton_append, scan?_break (by decide), Option.some.injEq, Prod.mk.injEq] at hs
  obtain ⟨k, text⟩ := t
  rw [show text = "\r" from String.ext ht, show k = .endOfLine from hs.1.symm]
  rfl

/-- A piece of blank trivia starts softly. -/
theorem Heads.softHead {b : Bool} {t : Trivia} {r : List Char} (h : (Piece.trivia t).Heads b r)
    (hb : b = false ∨ t.isBlank = true) (ht : t.text.toList ≠ []) : SoftHead (t.text.toList ++ r) := by
  have hs : Trivia.scan? b (t.text.toList ++ r) = some (t.kind, t.text.toList.length) := h
  obtain ⟨c, s, hc⟩ := List.exists_cons_of_ne_nil ht
  rw [hc, List.cons_append] at hs
  rw [hc, List.cons_append, softHead_cons]
  rcases head_of_scan? hs with ⟨-, hbr⟩ | ⟨-, hg⟩ | ⟨hk, rfl | ⟨rfl, rfl⟩⟩
  · exact isSoft_of_isBreakChar hbr
  · exact isSoft_of_isBlank (Bool.and_eq_true_iff.1 hg).1
  · decide
  · rcases hb with hb | hb
    · cases hb
    · rcases hk with hk | hk <;> simp [Trivia.isBlank, Trivia.isWhitespace, Trivia.isEndOfLine, hk] at hb

theorem charsOf_eq_nil {b : Bool} {ps : List Piece} (h : Reads b ps) : charsOf ps = [] ↔ ps = [] := by
  cases ps with
  | nil => simp
  | cons p ps =>
    simp only [charsOf_cons, List.append_eq_nil_iff, reduceCtorEq, iff_false, not_and]
    exact fun hp => absurd hp h.1

end Piece

/-! ### A text read again -/

/-- What may stand behind a piece in place of another text. -/
structure Stays (s t : List Char) : Prop where
  alike : Alike s t
  head : t.head? = s.head? ∨ (LineEnd t ∧ s ≠ [])

namespace Stays

variable {s t : List Char}

theorem eq_nil (h : Stays s t) (hs : s = []) : t = [] := by
  rcases h.head with h | h
  · rwa [hs, List.head?_nil, List.head?_eq_none_iff] at h
  · exact absurd hs h.2

theorem lineEnd (h : Stays s t) (hs : LineEnd s) : LineEnd t := by
  rcases h.head with h | h
  · exact fun c hc => hs c (h ▸ hc)
  · exact h.1

theorem of_alike {x : List Char} (hx : x ≠ []) (h : Alike s t) : Stays (x ++ s) (x ++ t) := by
  refine ⟨h.append x, .inl ?_⟩
  obtain ⟨c, x, rfl⟩ := List.exists_cons_of_ne_nil hx
  rfl

/-- A word stays what it is. -/
theorem word {b b' : Bool} {k : TokenKind} {w : String} (h : Stays s t) (hb : b' = true → b = true)
    (hw : w.toList ≠ []) (hs : (Piece.word k w).Heads b s) : (Piece.word k w).Heads b' t := by
  refine ⟨scan?_none_append hb h.alike hw hs.1, ?_⟩
  by_cases hnil : s = []
  · have := h.eq_nil hnil
    subst hnil this
    exact hs.2
  · exact scan_append h.alike hnil (fun _ => h.lineEnd) hw hs.2

end Stays

theorem joinBreaks_cons (p : Piece) (ps : List Piece) : joinBreaks (p :: ps) = glue p (joinBreaks ps) := rfl

theorem glue_word (k : TokenKind) (w : String) (ps : List Piece) : glue (.word k w) ps = .word k w :: ps := rfl

/-- A piece of trivia in front of a text that has changed, joined with what it meets there. -/
theorem reads_glue {b : Bool} {t : Trivia} {s : List Char} {qs : List Piece} (ht : t.text.toList ≠ [])
    (hs : (Piece.trivia t).Heads b s) (hqs : Reads (t.kind.lineStartAfter b) qs) (h : Stays s (charsOf qs)) :
    Reads b (glue (.trivia t) qs) := by
  rcases glue_cases (.trivia t) qs with hg | ⟨hcr, rest, rfl, hg⟩
  · rw [hg]
    refine ⟨ht, ?_, hqs⟩
    refine scan?_append (r := s) ?_ ht hs
    rcases h.head with h | ⟨hend, hne⟩
    · exact .inl h
    · refine .inr ⟨hend, hne, fun hcr hlf => ?_⟩
      -- An LF behind a CR would have been joined to it.
      cases qs with
      | nil => cases hlf
      | cons q qs =>
        obtain ⟨c, u, hc⟩ := List.exists_cons_of_ne_nil hqs.1
        rw [Piece.charsOf_cons, hc] at hlf
        have hq := hqs.2.1.eq_newline hqs.1 (by rw [hc]; exact hlf)
        rw [Piece.Heads.eq_endOfLine hs hcr, hq] at hg
        have hlen := congrArg List.length hg
        simp [glue, Trivia.endOfLine] at hlen
  · injection hcr with hcr
    subst hcr
    rw [hg]
    refine ⟨by simp [Piece.chars, Piece.text, Trivia.endOfLine], ?_, hqs.2.2⟩
    exact Piece.heads_endOfLine (.inr (.inr rfl)) fun h => absurd h (by decide)

theorem charsOf_openParen (k : TokenKind) (ps : List Piece) : charsOf (.word k "(" :: ps) = '(' :: charsOf ps := by
  rw [Piece.charsOf_cons, Piece.chars, Piece.text, show "(".toList = ['('] from rfl, List.singleton_append]

theorem charsOf_space (ps : List Piece) : charsOf (.trivia .space :: ps) = ' ' :: charsOf ps := by
  rw [Piece.charsOf_cons, Piece.chars, Piece.text, Trivia.space, Trivia.whitespace, show " ".toList = [' '] from rfl,
    List.singleton_append]

/-- What stands behind a word goes on softly. -/
theorem softHead_gap {g : List Trivia} (h : Reads false (g.map .trivia ++ ps)) (hs : SoftHead (charsOf ps)) :
    SoftHead (charsOf (g.map .trivia ++ ps)) := by
  cases g with
  | nil => exact hs
  | cons t g => exact h.2.1.softHead (.inl rfl) h.1

/-- Trivia is skipped by what reads behind it. -/
theorem reads_of_append_trivia : ∀ {b : Bool} (g : List Trivia) {ps : List Piece},
    Reads b (g.map .trivia ++ ps) → ∃ b', Reads b' ps
  | b, [], _, h => ⟨b, h⟩
  | _, _ :: g, _, h => reads_of_append_trivia g h.2.2

/-- A text of the pieces `ps` is read as the pieces `qs` when these are written in their place. -/
def ReadsAs (ps qs : List Piece) : Prop :=
  ∀ b, Reads b ps → Reads b (joinBreaks qs) ∧ Stays (charsOf ps) (charsOf qs)

namespace ReadsAs

theorem nil : ReadsAs [] [] := fun _ _ => ⟨trivial, .refl _, .inl rfl⟩

/-- Pieces that are kept in front. -/
theorem keep (h : ReadsAs ps qs) (p : Piece) : ReadsAs (p :: ps) (p :: qs) := by
  intro b hr
  obtain ⟨hqs, hst⟩ := h _ hr.2.2
  refine ⟨?_, .of_alike hr.1 hst.alike⟩
  cases p with
  | word k w =>
    rw [joinBreaks_cons, glue_word]
    refine ⟨hr.1, ?_, hqs⟩
    rw [charsOf_joinBreaks]
    exact hst.word id hr.1 hr.2.1
  | trivia t =>
    rw [joinBreaks_cons]
    exact reads_glue hr.1 hr.2.1 hqs (by rwa [charsOf_joinBreaks])

/-- White space that is taken away in front of a line break, or at the end of the text. -/
theorem drop (h : ReadsAs ps qs) (w : String) (hhead : ∀ p ∈ ps.head?, p.isEndOfLine = true) :
    ReadsAs (.trivia (.whitespace w) :: ps) qs := by
  intro b hr
  obtain ⟨hqs, hst⟩ := h _ hr.2.2
  refine ⟨hqs, ?_⟩
  have hend : LineEnd (charsOf ps) := by
    cases ps with
    | nil => exact lineEnd_nil
    | cons p ps =>
      cases p with
      | word k s => exact absurd (hhead _ rfl) (by simp [Piece.isEndOfLine])
      | trivia t =>
        have hb := hr.2.2.2.1.isBreak (beq_iff_eq.1 (hhead _ rfl))
        obtain ⟨c, u, hc⟩ := List.exists_cons_of_ne_nil hb.ne_nil
        have hl := hb.lineEnd
        rw [hc] at hl
        rw [Piece.charsOf_cons, show (Piece.trivia t).chars = c :: u from hc]
        exact lineEnd_cons.2 (lineEnd_cons.1 hl)
  have hsoft := hr.2.1.softHead (.inr rfl) hr.1
  have hne : charsOf (.trivia (.whitespace w) :: ps) ≠ [] := by
    rw [Piece.charsOf_cons]
    exact fun h => hr.1 (List.append_eq_nil_iff.1 h).1
  exact ⟨.of_lineEnd hsoft (hst.lineEnd hend), .inr ⟨hst.lineEnd hend, hne⟩⟩

/-- Blanks at the end of the text that make way for at most one line break. -/
theorem cut (hall : ∀ p ∈ ps, p.isBlank = true) (hne : ps ≠ [])
    (hqs : qs = [] ∨ ∃ e : String, IsBreak e.toList ∧ qs = [.trivia (.endOfLine e)]) : ReadsAs ps qs := by
  intro b hr
  have hsoft : SoftHead (charsOf ps) := by
    cases ps with
    | nil => exact softHead_nil
    | cons p ps =>
      have hp := hall p List.mem_cons_self
      cases p with
      | word k s => cases hp
      | trivia t => exact hr.2.1.softHead (.inr hp) hr.1
  have hne' : charsOf ps ≠ [] := fun h => hne ((Piece.charsOf_eq_nil hr).1 h)
  rcases hqs with rfl | ⟨e, he, rfl⟩
  · exact ⟨trivial, .of_lineEnd hsoft lineEnd_nil, .inr ⟨lineEnd_nil, hne'⟩⟩
  · have hchars : charsOf [.trivia (.endOfLine e)] = e.toList := by
      simp [Piece.chars, Piece.text, Trivia.endOfLine]
    refine ⟨?_, ?_, ?_⟩
    · rw [joinBreaks_cons, joinBreaks, List.foldr_nil]
      rcases glue_cases (.trivia (.endOfLine e)) [] with hg | ⟨-, rest, h, -⟩
      · rw [hg]
        exact ⟨he.ne_nil, Piece.heads_endOfLine he (by simp), trivial⟩
      · cases h
    · rw [hchars]
      exact .of_lineEnd hsoft he.lineEnd
    · rw [hchars]
      exact .inr ⟨he.lineEnd, hne'⟩

variable {k k' : TokenKind} {l r : String}

/-- A word behind which a gap has changed reads on when the word stays one and so does what stands behind it. -/
theorem of_gap {g g' : List Trivia} (h : ReadsAs (.word k' r :: ps) (.word k' r :: qs))
    (hg' : Reads false (.word k' r :: joinBreaks qs) → Reads false (g'.map .trivia ++ .word k' r :: joinBreaks qs))
    (hjoin : joinBreaks (g'.map .trivia ++ .word k' r :: qs) = g'.map .trivia ++ .word k' r :: joinBreaks qs)
    (hword : ∀ b, Reads b (.word k l :: (g.map .trivia ++ .word k' r :: ps)) →
      (Piece.word k l).Heads b (charsOf (g'.map .trivia ++ .word k' r :: qs)) ∧
        Stays (charsOf (.word k l :: (g.map .trivia ++ .word k' r :: ps)))
          (charsOf (.word k l :: (g'.map .trivia ++ .word k' r :: qs)))) :
    ReadsAs (.word k l :: (g.map .trivia ++ .word k' r :: ps)) (.word k l :: (g'.map .trivia ++ .word k' r :: qs)) := by
  intro b hr
  obtain ⟨f, hf⟩ := reads_of_append_trivia g hr.2.2
  obtain ⟨hqs, -⟩ := h f hf
  rw [joinBreaks_cons, glue_word] at hqs
  have hr' : Reads false (.word k' r :: joinBreaks qs) :=
    ⟨hqs.1, Stays.word ⟨.refl _, .inl rfl⟩ (fun h => absurd h Bool.false_ne_true) hqs.1 hqs.2.1, hqs.2.2⟩
  obtain ⟨hheads, hst⟩ := hword b hr
  rw [joinBreaks_cons, glue_word, hjoin]
  refine ⟨⟨hr.1, ?_, hg' hr'⟩, hst⟩
  rwa [← hjoin, charsOf_joinBreaks]

/-- What stands in front of a parenthesis makes way for at most one space. -/
theorem beforeParen (h : ReadsAs (.word k' "(" :: ps) (.word k' "(" :: qs)) (hk : k.isQuoted = false) (g : List Trivia)
    {g' : List Trivia} (hg' : g' = [] ∨ g' = [.space]) :
    ReadsAs (.word k l :: (g.map .trivia ++ .word k' "(" :: ps))
      (.word k l :: (g'.map .trivia ++ .word k' "(" :: qs)) := by
  refine h.of_gap (fun hr => ?_) (by rcases hg' with rfl | rfl <;> rfl) fun b hr => ?_
  · rcases hg' with rfl | rfl
    · exact hr
    · refine ⟨by decide, ?_, hr⟩
      show Trivia.scan? false (" ".toList ++ charsOf (.word k' "(" :: joinBreaks qs)) = _
      rw [show " ".toList = [' '] from rfl, charsOf_openParen]
      exact scan?_gap (by decide)
  · have hne : charsOf (g.map .trivia ++ .word k' "(" :: ps) ≠ [] := by
      intro h
      rw [Piece.charsOf_append, charsOf_openParen] at h
      exact List.cons_ne_nil _ _ (List.append_eq_nil_iff.1 h).2
    have hsoft := softHead_gap hr.2.2 (by rw [charsOf_openParen]; exact softHead_cons.2 (by decide))
    have hst : Alike (charsOf (g.map .trivia ++ .word k' "(" :: ps))
        (charsOf (g'.map .trivia ++ .word k' "(" :: qs)) := by
      rcases hg' with rfl | rfl
      · rw [List.map_nil, List.nil_append, charsOf_openParen]
        exact .cut hsoft (softHead_cons.2 (by decide)) (by simp)
      · rw [List.map_singleton, List.singleton_append, charsOf_space]
        exact .cut hsoft (softHead_cons.2 (by decide)) (by simp)
    exact ⟨⟨scan?_none_append id hst hr.1 hr.2.1.1,
      scan_append hst hne (fun h => absurd h (by rw [hk]; exact Bool.false_ne_true)) hr.1 hr.2.1.2⟩,
      .of_alike hr.1 hst⟩

/-- What stands behind the parenthesis that closes a cast is taken away. -/
theorem behindParen (h : ReadsAs (.word k' r :: ps) (.word k' r :: qs)) (g : List Trivia) :
    ReadsAs (.word k ")" :: (g.map .trivia ++ .word k' r :: ps)) (.word k ")" :: .word k' r :: qs) := by
  have hparen : ∀ u, (Piece.word k ")").chars ++ u = ')' :: u := by
    intro u
    rw [Piece.chars, Piece.text, show ")".toList = [')'] from rfl, List.singleton_append]
  refine @of_gap ps qs k k' ")" r g [] h id rfl fun b hr => ⟨⟨?_, ?_⟩, ?_, .inl ?_⟩
  · show Trivia.scan? b ((Piece.word k ")").chars ++ _) = none
    rw [hparen, scan?_of_not_blank (by decide) (by decide)]
    simp [List.isPrefixOf]
  · have hs : Token.scan ((Piece.word k ")").chars ++ _) = (k, (Piece.word k ")").chars.length) := hr.2.1.2
    show Token.scan ((Piece.word k ")").chars ++ _) = (k, (Piece.word k ")").chars.length)
    rw [hparen, scan_closingParen] at hs ⊢
    exact hs
  · rw [Piece.charsOf_cons, Piece.charsOf_cons, hparen, hparen]
    exact .cut (softHead_cons.2 (by decide)) (softHead_cons.2 (by decide)) (by simp)
  · rw [Piece.charsOf_cons, Piece.charsOf_cons, hparen, hparen]
    rfl

end ReadsAs

/-- **The text that mending leaves is read as the pieces that it leaves.** -/
theorem Mended.reads (h : Mended ps qs) : ReadsAs ps qs := by
  induction h with
  | nil => exact .nil
  | keep p _ ih => exact ih.keep p
  | drop w hhead _ ih => exact ih.drop w hhead
  | cut hall hne hqs => exact .cut hall hne hqs
  | gap g g' hk hgap _ ih =>
    rcases hgap with ⟨rfl, hg'⟩ | ⟨rfl, rfl⟩
    · exact ih.beforeParen hk g hg'
    · exact ih.behindParen g

/-! ### A line break put at the end of the text -/

namespace Piece

/-- A literal or a block comment that takes in a line break put behind it. -/
def Open : Piece → Prop
  | word k w => k.isQuoted = true ∧ ∃ e, LineEnd e ∧ Token.scan (w.toList ++ e) ≠ (k, w.toList.length)
  | trivia t => Unclosed t.text.toList

/-- The piece with characters behind it. -/
def extend : Piece → List Char → Piece
  | word k w, x => word k (w ++ String.ofList x)
  | trivia t, x => trivia ⟨t.kind, t.text ++ String.ofList x⟩

theorem chars_extend (p : Piece) (x : List Char) : (p.extend x).chars = p.chars ++ x := by
  cases p <;> simp [extend, chars, text]

end Piece

/-- Pieces with a line break put at the end, which the last piece may take in, or the front of it. -/
inductive Grown : List Piece → List Piece → Prop
  | add (ps : List Piece) {e : String} : IsBreak e.toList → Grown ps (ps ++ [.trivia (.endOfLine e)])
  | take (ps : List Piece) {p : Piece} {x : List Char} {rest : List Piece} : p.Open → x ≠ [] →
    (∀ c ∈ x, isBreakChar c = true) →
    (rest = [] ∨ ∃ e : String, IsBreak e.toList ∧ rest = [.trivia (.endOfLine e)]) →
    Grown (ps ++ [p]) (ps ++ p.extend x :: rest)

theorem Grown.cons (p : Piece) (h : Grown ps qs) : Grown (p :: ps) (p :: qs) := by
  cases h with
  | add _ he => exact .add (p :: ps) he
  | take ps ho hx hb hrest => exact .take (p :: ps) ho hx hb hrest

theorem IsBreak.drop {e : List Char} (h : IsBreak e) (n : Nat) : e.drop n = [] ∨ IsBreak (e.drop n) := by
  rcases h with rfl | rfl | rfl
  · cases n with
    | zero => exact .inr (.inl rfl)
    | succ n => exact .inl (by simp)
  · cases n with
    | zero => exact .inr (.inr (.inl rfl))
    | succ n => exact .inl (by simp)
  · rcases n with _ | _ | n
    · exact .inr (.inr (.inr rfl))
    · exact .inr (.inr (.inl rfl))
    · exact .inl (by simp)

/-- What is left of a line break, as a piece. -/
theorem reads_rest {b : Bool} {e : List Char} (h : e = [] ∨ IsBreak e) :
    ∃ rest, Reads b rest ∧ charsOf rest = e ∧
      (rest = [] ∨ ∃ e : String, IsBreak e.toList ∧ rest = [.trivia (.endOfLine e)]) := by
  rcases h with rfl | h
  · exact ⟨[], trivial, rfl, .inl rfl⟩
  · have hl : (String.ofList e).toList = e := String.toList_ofList
    refine ⟨[.trivia (.endOfLine (String.ofList e))], ⟨?_, ?_, trivial⟩, ?_, .inr ⟨_, ?_, rfl⟩⟩
    · show (String.ofList e).toList ≠ []
      rw [hl]
      exact h.ne_nil
    · exact Piece.heads_endOfLine (by rwa [hl]) (by simp)
    · simp [Piece.chars, Piece.text, Trivia.endOfLine]
    · rwa [hl]

/-- The last piece with what it takes in of a line break behind it. -/
theorem reads_extend {b : Bool} {p : Piece} {e : List Char} (he : IsBreak e) {m : Nat} (hp : p.chars ≠ [])
    (hm : p.chars.length ≤ m) (hopen : m ≠ p.chars.length → p.Open)
    (heads : ∀ (q : Piece) (r : List Char), q = p.extend (e.take (m - p.chars.length)) →
      q.chars ++ r = p.chars ++ e → q.chars.length = min m (p.chars.length + e.length) → q.Heads b r) :
    ∃ qs, Reads b qs ∧ charsOf qs = p.chars ++ e ∧ Grown [p] qs := by
  have hq := p.chars_extend (e.take (m - p.chars.length))
  obtain ⟨rest, hrest, htext, hform⟩ := reads_rest
    (b := (p.extend (e.take (m - p.chars.length))).lineStartAfter b) (he.drop (m - p.chars.length))
  refine ⟨p.extend (e.take (m - p.chars.length)) :: rest, ⟨?_, ?_, hrest⟩, ?_, ?_⟩
  · rw [hq]
    exact fun h => hp (List.append_eq_nil_iff.1 h).1
  · refine heads _ _ rfl ?_ ?_
    · rw [hq, htext, List.append_assoc, List.take_append_drop]
    · rw [hq, List.length_append, List.length_take]
      omega
  · rw [Piece.charsOf_cons, hq, htext, List.append_assoc, List.take_append_drop]
  · by_cases hk : m = p.chars.length
    · rw [hk, Nat.sub_self, List.take_zero] at hq ⊢
      rw [hk, Nat.sub_self, List.drop_zero] at htext
      have hself : p.extend [] = p := by cases p <;> simp [Piece.extend]
      rcases hform with rfl | ⟨e', he', rfl⟩
      · exact absurd htext.symm he.ne_nil
      · rw [hself]
        exact .add [p] he'
    · refine .take [] (hopen hk) ?_ (fun c hc => he.all c (List.mem_of_mem_take hc)) hform
      intro h
      rcases List.take_eq_nil_iff.1 h with h | h
      · omega
      · exact he.ne_nil h

/-- A word at the end of a text, with a line break behind it. -/
theorem reads_word_append_break {b : Bool} {k : TokenKind} {w : String} {e : List Char} (he : IsBreak e)
    (hr : Reads b [.word k w]) : ∃ qs, Reads b qs ∧ charsOf qs = w.toList ++ e ∧ Grown [.word k w] qs := by
  have hne : w.toList ≠ [] := hr.1
  obtain ⟨hnone, hscan⟩ := hr.2.1
  rw [Piece.charsOf_nil, List.append_nil] at hnone hscan
  have hnone' : Trivia.scan? b (w.toList ++ e) = none :=
    scan?_none_append (r := []) id (.of_lineEnd softHead_nil he.lineEnd) hne (by rwa [List.append_nil])
  obtain ⟨m, hm, hle, hquoted⟩ := scan_append_break he.lineEnd hne hscan
  have hbound := (scan_bounds (s := w.toList ++ e) fun h => hne (List.append_eq_nil_iff.1 h).1).2
  rw [hm, List.length_append] at hbound
  refine reads_extend (p := .word k w) he hne hle (fun hm' => ⟨?_, e, he.lineEnd, ?_⟩) ?_
  · cases hk : k.isQuoted with
    | true => rfl
    | false => exact absurd (hquoted hk) hm'
  · rw [hm]
    exact fun h => hm' (Prod.mk.inj h).2
  · rintro q r rfl htext hlen
    refine ⟨?_, ?_⟩
    · show Trivia.scan? b ((Piece.extend (.word k w) _).chars ++ r) = none
      rw [htext]
      exact hnone'
    · show Token.scan ((Piece.extend (.word k w) _).chars ++ r) = (k, (Piece.extend (.word k w) _).chars.length)
      rw [htext, hlen]
      show Token.scan (w.toList ++ e) = (k, min m (w.toList.length + e.length))
      rw [hm, Nat.min_eq_left hbound]

/-- Trivia at the end of a text, other than a line break, with a line break behind it. -/
theorem reads_trivia_append_break {b : Bool} {t : Trivia} {e : List Char} (he : IsBreak e) (hr : Reads b [.trivia t])
    (hk : t.kind ≠ .endOfLine) :
    ∃ qs, Reads b qs ∧ charsOf qs = t.text.toList ++ e ∧ Grown [.trivia t] qs := by
  have hne : t.text.toList ≠ [] := hr.1
  have hscan : Trivia.scan? b (t.text.toList ++ charsOf []) = some (t.kind, t.text.toList.length) := hr.2.1
  rw [Piece.charsOf_nil, List.append_nil] at hscan
  obtain ⟨m, hm, hle, hclosed⟩ := scan?_append_break he.lineEnd hne hk hscan
  have hbound := (scan?_bounds hm).2
  rw [List.length_append] at hbound
  refine reads_extend (p := .trivia t) he hne hle
    (fun hm' => Classical.byContradiction fun h => hm' (hclosed h)) ?_
  rintro q r rfl htext hlen
  show Trivia.scan? b ((Piece.extend (.trivia t) _).chars ++ r) =
    some (t.kind, (Piece.extend (.trivia t) _).chars.length)
  rw [htext, hlen]
  show Trivia.scan? b (t.text.toList ++ e) = some (t.kind, min m (t.text.toList.length + e.length))
  rw [hm, Nat.min_eq_left hbound]

/-- **A line break put at the end of a text is a piece of its own, unless the last piece takes it in.** -/
theorem reads_append_break {e : List Char} (he : IsBreak e) : ∀ {b : Bool} {ps : List Piece}, Reads b ps →
    (∀ p ∈ ps.getLast?, p.isEndOfLine = false) → ∃ qs, Reads b qs ∧ charsOf qs = charsOf ps ++ e ∧ Grown ps qs
  | b, [], _, _ => by
    obtain ⟨rest, hrest, htext, hform⟩ := reads_rest (b := b) (.inr he)
    refine ⟨rest, hrest, htext, ?_⟩
    rcases hform with rfl | ⟨e', he', rfl⟩
    · exact absurd htext.symm he.ne_nil
    · exact .add [] he'
  | b, [p], hr, hlast => by
    rw [Piece.charsOf_cons, Piece.charsOf_nil, List.append_nil]
    cases p with
    | word k w => exact reads_word_append_break he hr
    | trivia t =>
      refine reads_trivia_append_break he hr fun hk => ?_
      have := hlast _ rfl
      simp [Piece.isEndOfLine, Trivia.isEndOfLine, hk] at this
  | b, p :: q :: ps, hr, hlast => by
    obtain ⟨qs, hqs, htext, hg⟩ := reads_append_break he hr.2.2 (by simpa using hlast)
    have hst : Stays (charsOf (q :: ps)) (charsOf qs) := by
      rw [htext]
      refine ⟨.append_lineEnd _ he.lineEnd, .inl ?_⟩
      obtain ⟨c, u, hc⟩ := List.exists_cons_of_ne_nil hr.2.2.1
      rw [Piece.charsOf_cons, hc]
      rfl
    have htext' : charsOf (p :: qs) = charsOf (p :: q :: ps) ++ e := by
      rw [Piece.charsOf_cons, htext, Piece.charsOf_cons p, List.append_assoc]
    refine ⟨p :: qs, ⟨hr.1, ?_, hqs⟩, htext', hg.cons p⟩
    cases p with
    | word k w => exact hst.word id hr.1 hr.2.1
    | trivia t =>
      refine scan?_append (.inl ?_) hr.1 hr.2.1
      rcases hst.head with h | h
      · exact h
      · rw [htext]
        obtain ⟨c, u, hc⟩ := List.exists_cons_of_ne_nil hr.2.2.1
        rw [Piece.charsOf_cons, hc]
        rfl

end LayoutLint
