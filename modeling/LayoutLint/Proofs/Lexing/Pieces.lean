import LayoutLint.Document.Source
import LayoutLint.Proofs.Lexing.Between
/-!
# Pieces — a text as words and trivia

A document is a list of pieces, the words of its tokens and the trivia between them. Pieces are read from their text
(`Reads`) when each of them is what stands at the head of the text from it on. A text is read in one way only
(`Reads.unique`), and the tokens of a text are its pieces put together (`reads_tokensOf`).
-/
namespace LayoutLint

/-- A word of the program, or a piece of trivia. -/
inductive Piece where
  | word (kind : TokenKind) (text : String)
  | trivia (t : Trivia)
  deriving DecidableEq, Repr

namespace Piece

def text : Piece → String
  | word _ text => text
  | trivia t => t.text

def chars (p : Piece) : List Char := p.text.toList

def isEndOfLine : Piece → Bool
  | word .. => false
  | trivia t => t.isEndOfLine

/-- White space or a line break. -/
def isBlank : Piece → Bool
  | word .. => false
  | trivia t => t.isBlank

/-- The text of pieces. -/
def charsOf (ps : List Piece) : List Char := ps.flatMap chars

@[simp] theorem charsOf_nil : charsOf [] = [] := rfl

@[simp] theorem charsOf_cons (p : Piece) (ps : List Piece) : charsOf (p :: ps) = p.chars ++ charsOf ps := rfl

@[simp] theorem charsOf_append (ps qs : List Piece) : charsOf (ps ++ qs) = charsOf ps ++ charsOf qs :=
  List.flatMap_append

/-- Does the piece, its line starting there or not, stand at the head of the text with `rest` behind it? -/
def Heads (atLineStart : Bool) (rest : List Char) : Piece → Prop
  | word kind text =>
    Trivia.scan? atLineStart (text.toList ++ rest) = none ∧
      Token.scan (text.toList ++ rest) = (kind, text.toList.length)
  | trivia t => Trivia.scan? atLineStart (t.text.toList ++ rest) = some (t.kind, t.text.toList.length)

/-- May a directive stand behind the piece? -/
def lineStartAfter (before : Bool) : Piece → Bool
  | word .. => false
  | trivia t => t.kind.lineStartAfter before

/-- The pieces are what their text is read as. -/
def Reads : Bool → List Piece → Prop
  | _, [] => True
  | b, p :: ps => p.chars ≠ [] ∧ p.Heads b (charsOf ps) ∧ Reads (p.lineStartAfter b) ps

theorem Heads.eq {b : Bool} {p q : Piece} {r r' : List Char} (hp : p.Heads b r) (hq : q.Heads b r')
    (h : p.chars ++ r = q.chars ++ r') : p = q := by
  have text_eq : ∀ s s' : String, s.toList ++ r = s'.toList ++ r' → s.toList.length = s'.toList.length → s = s' :=
    fun s s' h hl => String.ext (List.append_inj_left h hl)
  cases p with
  | word k s =>
    cases q with
    | word k' s' =>
      have hscan := hp.2
      rw [show s.toList ++ r = s'.toList ++ r' from h, hq.2, Prod.mk.injEq] at hscan
      rw [hscan.1, text_eq s s' h hscan.2.symm]
    | trivia t =>
      have hnone := hp.1
      rw [show s.toList ++ r = t.text.toList ++ r' from h, show Trivia.scan? b _ = _ from hq] at hnone
      cases hnone
  | trivia t =>
    cases q with
    | word k' s' =>
      have hnone := hq.1
      rw [← show t.text.toList ++ r = s'.toList ++ r' from h, show Trivia.scan? b _ = _ from hp] at hnone
      cases hnone
    | trivia t' =>
      have hscan : Trivia.scan? b _ = _ := hp
      rw [show t.text.toList ++ r = t'.text.toList ++ r' from h, show Trivia.scan? b _ = _ from hq,
        Option.some.injEq, Prod.mk.injEq] at hscan
      obtain ⟨k, s⟩ := t
      obtain ⟨k', s'⟩ := t'
      rw [text_eq s s' h hscan.2.symm, show k = k' from hscan.1.symm]

/-- **A text is read in one way only.** -/
theorem Reads.unique : ∀ {b : Bool} {ps qs : List Piece}, Reads b ps → Reads b qs → charsOf ps = charsOf qs → ps = qs
  | _, [], [], _, _, _ => rfl
  | _, [], q :: qs, _, hq, h => absurd (List.append_eq_nil_iff.1 h.symm).1 hq.1
  | _, p :: ps, [], hp, _, h => absurd (List.append_eq_nil_iff.1 h).1 hp.1
  | b, p :: ps, q :: qs, hp, hq, h => by
    obtain rfl := hp.2.1.eq hq.2.1 h
    rw [Reads.unique hp.2.2 hq.2.2 (List.append_cancel_left h)]

end Piece

/-! ### The pieces of tokens -/

namespace Token

/-- The word of the token; a token without text has none. -/
def own (t : Token) : List Piece := if t.text.isEmpty then [] else [.word t.kind t.text]

/-- The token's word with its trivia. -/
def parts (t : Token) : List Piece := t.leading.map .trivia ++ t.own ++ t.trailing.map .trivia

/-- The pieces of tokens. -/
def partsOf (ts : List Token) : List Piece := ts.flatMap parts

@[simp] theorem partsOf_nil : partsOf [] = [] := rfl

@[simp] theorem partsOf_cons (t : Token) (ts : List Token) : partsOf (t :: ts) = t.parts ++ partsOf ts := rfl

@[simp] theorem partsOf_append (ts us : List Token) : partsOf (ts ++ us) = partsOf ts ++ partsOf us :=
  List.flatMap_append

theorem charsOf_own (t : Token) : Piece.charsOf t.own = t.text.toList := by
  unfold own
  split
  · rename_i h
    rw [String.isEmpty_iff.1 h]
    rfl
  · simp [Piece.chars, Piece.text]

theorem charsOf_parts (t : Token) : Piece.charsOf t.parts = t.fullText.toList := by
  have htrivia : ∀ l : List Trivia, Piece.charsOf (l.map .trivia) = l.flatMap (·.text.toList) := by
    intro l
    induction l with
    | nil => rfl
    | cons t l ih => rw [List.map_cons, Piece.charsOf_cons, ih]; rfl
  rw [parts, Piece.charsOf_append, Piece.charsOf_append, htrivia, htrivia, charsOf_own, fullText, pieces,
    String.toList_join]
  simp [List.flatMap_append, List.flatMap_map]

/-- The text of tokens is that of their pieces. -/
theorem charsOf_partsOf (ts : List Token) : Piece.charsOf (partsOf ts) = (textOf ts).toList := by
  rw [textOf, String.toList_join]
  induction ts with
  | nil => rfl
  | cons t ts ih => rw [partsOf_cons, Piece.charsOf_append, ih, charsOf_parts]; rfl

end Token

/-! ### Reading -/

open Piece (Reads charsOf)

/-- The trivia of a run, read from the front of a text. -/
structure TriviaRun.ReadsFrom (run : TriviaRun) (b : Bool) (s : List Char) : Prop where
  text : charsOf (run.trivia.map .trivia) ++ run.rest = s
  reads : ∀ ps, charsOf ps = run.rest → Reads run.atLineStart ps → Reads b (run.trivia.map .trivia ++ ps)

theorem TriviaRun.ReadsFrom.nil (b : Bool) (s : List Char) : TriviaRun.ReadsFrom ⟨[], b, s⟩ b s :=
  ⟨rfl, fun _ _ h => h⟩

/-- A piece of trivia in front of a run. -/
theorem TriviaRun.ReadsFrom.cons {run : TriviaRun} {b : Bool} {c : Char} {r : List Char} {kind : TriviaKind} {n : Nat}
    (hs : Trivia.scan? b (c :: r) = some (kind, n))
    (h : run.ReadsFrom (kind.lineStartAfter b) (r.drop (n - 1))) :
    (run.cons ⟨kind, String.ofList ((c :: r).take n)⟩).ReadsFrom b (c :: r) := by
  have hb := scan?_bounds hs
  obtain ⟨n, rfl⟩ : ∃ m, n = m + 1 := ⟨n - 1, by omega⟩
  have hlen : ((c :: r).take (n + 1)).length = n + 1 := by rw [List.length_take]; omega
  have htext : (c :: r).take (n + 1) ++ r.drop n = c :: r := by
    rw [List.take_succ_cons, List.cons_append, List.take_append_drop]
  rw [Nat.add_sub_cancel] at h
  refine ⟨?_, fun ps hps hr => ⟨?_, ?_, ?_⟩⟩
  · simp only [TriviaRun.cons, List.map_cons, Piece.charsOf_cons, Piece.chars, Piece.text, String.toList_ofList,
      List.append_assoc]
    rw [h.text, htext]
  · simp [Piece.chars, Piece.text]
  · show Trivia.scan? b ((String.ofList ((c :: r).take (n + 1))).toList ++ charsOf (run.trivia.map .trivia ++ ps)) =
      some (kind, (String.ofList ((c :: r).take (n + 1))).toList.length)
    have hps' : charsOf ps = run.rest := hps
    rw [String.toList_ofList, Piece.charsOf_append, hps', h.text, htext, hlen, hs]
  · exact h.reads ps hps hr

theorem readsFrom_readLeading (b : Bool) (s : List Char) : (readLeading b s).ReadsFrom b s := by
  fun_induction readLeading b s with
  | case1 b => exact .nil b []
  | case2 b c r h => exact .nil b (c :: r)
  | case3 b c r kind n h ih => exact .cons h ih

theorem scan?_rest_readLeading (b : Bool) (s : List Char) :
    Trivia.scan? (readLeading b s).atLineStart (readLeading b s).rest = none := by
  fun_induction readLeading b s with
  | case1 b => rfl
  | case2 b c r h => exact h
  | case3 b c r kind n h ih => exact ih

theorem readsFrom_readTrailing (s : List Char) : (readTrailing s).ReadsFrom false s := by
  fun_induction readTrailing s with
  | case1 => exact .nil false []
  | case2 c r h => exact .nil false (c :: r)
  | case3 c r kind n h t ht =>
    have hk : kind = .endOfLine := beq_iff_eq.1 ht
    subst hk
    exact @TriviaRun.ReadsFrom.cons ⟨[], true, r.drop (n - 1)⟩ _ _ _ _ _ h (.nil true _)
  | case4 c r kind n h t ht ih =>
    have hk : kind.lineStartAfter false = false := by
      cases kind <;> first | rfl | exact absurd rfl ht
    exact .cons h (by rw [hk]; exact ih)

/-- What trails a token ends in a line break, unless no trivia follows it. -/
theorem endOfLine_of_readTrailing (s : List Char) :
    ((readTrailing s).atLineStart = true → ∃ t ∈ (readTrailing s).trivia, t.isEndOfLine = true) ∧
      ((readTrailing s).atLineStart = false → Trivia.scan? false (readTrailing s).rest = none) := by
  fun_induction readTrailing s with
  | case1 => exact ⟨fun h => absurd h Bool.false_ne_true, fun _ => rfl⟩
  | case2 c r h => exact ⟨fun h => absurd h Bool.false_ne_true, fun _ => h⟩
  | case3 c r kind n h t ht => exact ⟨fun _ => ⟨t, List.mem_cons_self, ht⟩, fun h => absurd h.symm Bool.false_ne_true⟩
  | case4 c r kind n h t ht ih =>
    refine ⟨fun hl => ?_, ih.2⟩
    obtain ⟨u, hu, hl⟩ := ih.1 hl
    exact ⟨u, List.mem_cons_of_mem _ hu, hl⟩

theorem kind_scan_ne_endOfFile (s : List Char) : (Token.scan s).1 ≠ .endOfFile := by
  cases hm : Literal.stringLength? s with
  | some n =>
    rw [scan_of_string hm]
    intro h
    cases h
  | none =>
    cases s with
    | nil =>
      rw [Token.scan.eq_def, hm]
      intro h
      cases h
    | cons c s =>
      rw [scan_cons hm]
      repeat' split
      all_goals intro h; cases h

/-- Tokens as a text is read as: words and no missing tokens, each with its trivia up to the end of its line, and at the
end the token that closes the document. -/
inductive Attached : List Token → Prop
  | last (ts : List Trivia) : Attached [{ Token.endOfFile with leading := ts }]
  | cons {t next : Token} {rest : List Token} (kind : t.kind ≠ .endOfFile) (text : t.text ≠ "")
      (present : t.missing = false) (line : next.leading ≠ [] → ∃ x ∈ t.trailing, x.isEndOfLine = true)
      (h : Attached (next :: rest)) : Attached (t :: next :: rest)

theorem leading_readLeading_of_none {b : Bool} {s : List Char} (h : Trivia.scan? b s = none) :
    (readLeading b s).trivia = [] := by
  cases s with
  | nil => rw [readLeading]
  | cons c r => rw [readLeading, h]

/-- Trivia leads a token only behind the end of a line. -/
theorem exists_endOfLine_of_leading {s : List Char}
    (h : (readLeading (readTrailing s).atLineStart (readTrailing s).rest).trivia ≠ []) :
    ∃ t ∈ (readTrailing s).trivia, t.isEndOfLine = true := by
  obtain ⟨hend, hnone⟩ := endOfLine_of_readTrailing s
  cases hat : (readTrailing s).atLineStart with
  | true => exact hend hat
  | false =>
    rw [hat] at h
    exact absurd (leading_readLeading_of_none (hnone hat)) h

/-- The word at the front of a text, in front of what the text behind it is read as. -/
theorem reads_word {b : Bool} {c : Char} {r : List Char} {kind : TokenKind} {n : Nat} {ps : List Piece}
    (hnone : Trivia.scan? b (c :: r) = none) (hscan : Token.scan (c :: r) = (kind, n))
    (hps : charsOf ps = r.drop (n - 1)) (h : Reads false ps) :
    charsOf (.word kind (String.ofList ((c :: r).take n)) :: ps) = c :: r ∧
      Reads b (.word kind (String.ofList ((c :: r).take n)) :: ps) := by
  have hb := scan_bounds (s := c :: r) (List.cons_ne_nil c r)
  rw [hscan] at hb
  obtain ⟨n, rfl⟩ : ∃ m, n = m + 1 := ⟨n - 1, (Nat.sub_add_cancel hb.1).symm⟩
  have hlen : ((c :: r).take (n + 1)).length = n + 1 := List.length_take_of_le hb.2
  have htext : (c :: r).take (n + 1) ++ charsOf ps = c :: r := by
    rw [hps, List.take_succ_cons, List.cons_append, Nat.add_sub_cancel, List.take_append_drop]
  refine ⟨?_, ?_, ⟨?_, ?_⟩, h⟩
  · rw [Piece.charsOf_cons, Piece.chars, Piece.text, String.toList_ofList, htext]
  · rw [Piece.chars, Piece.text, String.toList_ofList]
    exact List.cons_ne_nil _ _
  · rw [String.toList_ofList, htext, hnone]
  · rw [String.toList_ofList, htext, hscan, hlen]

/-- **The tokens of a text are its pieces.** -/
theorem reads_readTokens (done : Array Token) (b : Bool) (s : List Char) :
    ∃ t ts, (readTokens done b s).toList = done.toList ++ t :: ts ∧ t.leading = (readLeading b s).trivia ∧
      charsOf (Token.partsOf (t :: ts)) = s ∧ Reads b (Token.partsOf (t :: ts)) ∧ Attached (t :: ts) := by
  fun_induction readTokens done b s with
  | case1 done b s before h =>
    have hr := readsFrom_readLeading b s
    have hparts : Token.partsOf [{ Token.endOfFile with leading := before.trivia }] =
        (readLeading b s).trivia.map .trivia := by
      simp [Token.partsOf, Token.parts, Token.own, Token.endOfFile, before]
    refine ⟨_, [], Array.toList_push, rfl, ?_, ?_, .last _⟩
    · have := hr.text
      rwa [show (readLeading b s).rest = [] from h, List.append_nil, ← hparts] at this
    · have := hr.reads [] h.symm trivial
      rwa [List.append_nil, ← hparts] at this
  | case2 done b s before c r h kind n hscan after text token ih =>
    obtain ⟨t, ts, heq, hlead, htext, hreads, hatt⟩ := ih
    have hl := readsFrom_readLeading b s
    have ha := readsFrom_readTrailing (r.drop (n - 1))
    have hrest : (readLeading b s).rest = c :: r := h
    have hkind : kind ≠ .endOfFile := by
      have := kind_scan_ne_endOfFile (c :: r)
      rwa [hscan] at this
    have htail : charsOf (token.trailing.map .trivia ++ Token.partsOf (t :: ts)) = r.drop (n - 1) := by
      rw [Piece.charsOf_append, htext]
      exact ha.text
    obtain ⟨hword, hwords⟩ := reads_word (hrest ▸ scan?_rest_readLeading b s) hscan htail (ha.reads _ htext hreads)
    have hne : token.text ≠ "" := fun hnil => hwords.1 (congrArg String.toList hnil)
    have hsplit : Token.partsOf (token :: t :: ts) = (readLeading b s).trivia.map .trivia ++
        .word kind text :: (token.trailing.map .trivia ++ Token.partsOf (t :: ts)) := by
      rw [Token.partsOf_cons, Token.parts, Token.own, if_neg (by rw [String.isEmpty_iff]; exact hne)]
      simp [token, before]
    refine ⟨token, t :: ts, ?_, rfl, ?_, ?_, .cons hkind hne rfl (fun hne => ?_) hatt⟩
    · rw [heq]
      simp
    · rw [hsplit, Piece.charsOf_append, hword, ← hrest]
      exact hl.text
    · rw [hsplit]
      exact hl.reads _ (hword.trans hrest.symm) hwords
    · exact exists_endOfLine_of_leading (hlead ▸ hne)

/-- **The tokens of a text are its pieces.** -/
theorem reads_tokensOf (source : String) :
    Reads true (Token.partsOf (tokensOf source).toList) ∧
      charsOf (Token.partsOf (tokensOf source).toList) = source.toList ∧ Attached (tokensOf source).toList := by
  obtain ⟨t, ts, heq, -, htext, hreads, hatt⟩ := reads_readTokens #[] true source.toList
  have heq : (tokensOf source).toList = t :: ts := heq
  rw [heq]
  exact ⟨hreads, htext, hatt⟩

end LayoutLint
