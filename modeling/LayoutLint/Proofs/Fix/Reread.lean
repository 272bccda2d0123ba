import LayoutLint.Proofs.Fix.Applied
/-!
# Reread — the text that edits leave, read again

The text that edits made together leave is read as the words it had, with each gap as its plan says and with every CR
joined to the LF that has come to stand behind it. A line break put at the end of the text may be taken in by a literal
or a block comment that nothing closes (`Turn`, `Batch.turn`).
-/
namespace LayoutLint

open Piece (Reads charsOf)

namespace Registry

variable {R : Registry} {c : RuleContext} {S : List Edit}

/-- The rules about gaps are not those about line ends. -/
theorem Wants.id_ne {t : SyntaxTree} {k : GapContract} {id : String} {j : Nat} (h : R.Wants t k id j) :
    id ≠ Rule.noTrailingWhitespace.id ∧ id ≠ Rule.finalNewline.id := by
  obtain ⟨r, hr, -, rfl, -⟩ := h
  have key : ∀ p ∈ gapRules, p.1.id ≠ Rule.noTrailingWhitespace.id ∧ p.1.id ≠ Rule.finalNewline.id := by decide
  exact key _ hr

namespace Batch

theorem isRun_of_mem (hS : R.Batch c S) (hd : c.document.Parsed) (ht : SyntaxTree.ofDocument? c.document = some c.tree)
    {j i : Nat} {t : Trivia} (hp : (c.document.gap j)[i]? = some t) (he : c.document.runEdit j i t ∈ S) :
    R.Has .noTrailingWhitespace ∧ c.document.IsRun j i t := by
  have hx := (hS.mends _ he).splits hd ht (x := c.document.removal j i t) (List.mem_singleton.2 rfl)
  generalize hg : c.document.runEdit j i t = e at hx
  generalize hr : c.document.removal j i t = x at hx
  have hid : e.ruleId = Rule.noTrailingWhitespace.id := by rw [← hg]; rfl
  cases hx with
  | run hrule hrun =>
    have hspot := congrArg c.document.spot hr
    rw [Document.spot_removal, Document.spot_removal, Prod.mk.injEq] at hspot
    obtain ⟨rfl, rfl⟩ := hspot
    obtain rfl := Option.some.inj (hp.symm.trans hrun.piece)
    exact ⟨hrule, hrun⟩
  | trailing hw => exact absurd hid hw.id_ne.1
  | leading hw => exact absurd hid hw.id_ne.1
  | final => exact absurd (show Rule.finalNewline.id = Rule.noTrailingWhitespace.id from hid) (by decide)

theorem picksRuns (hS : R.Batch c S) (hd : c.document.Parsed) (ht : SyntaxTree.ofDocument? c.document = some c.tree)
    (j : Nat) : PicksRuns (j == c.document.endOfFile) (c.document.takesRun S j) (c.document.gap j) := by
  intro i t hp htakes
  obtain ⟨u, hu, he⟩ := Document.takesRun_iff.1 htakes
  obtain rfl := Option.some.inj (hp.symm.trans hu)
  exact (hS.isRun_of_mem hd ht hp he).2.ends

end Batch

namespace Plan

variable {j keep : Nat} {added : List Trivia}

/-- What a plan leaves of a gap between words. -/
theorem gapLeft (h : R.Plan c S j keep added) (hS : R.Batch c S) (hd : c.document.Parsed)
    (ht : SyntaxTree.ofDocument? c.document = some c.tree) (hj : j < c.document.endOfFile) :
    c.document.GapLeft j (c.document.left S j keep added) := by
  cases h with
  | @contract k _ _ hw =>
    obtain ⟨r, -, -, -, n, hn, -, hg⟩ := hw
    obtain ⟨opens, hopens⟩ := hd.gaps_of_tree ht
    have hm := (hopens n hn _ _ _ hg).1
    rw [Document.left, List.take_zero]
    refine .contract hm.plain ?_
    rcases hm.words with hparen | ⟨rfl, hparen⟩
    · refine .inl ⟨beq_iff_eq.1 hparen, ?_⟩
      cases k with
      | noWhitespace => exact .inl rfl
      | singleSpace => exact .inr rfl
    · exact .inr ⟨beq_iff_eq.1 hparen, rfl⟩
  | final => exact absurd hj (Nat.lt_irrefl _)
  | free =>
    rw [Document.left, List.take_length, List.append_nil]
    refine .runs _ ?_
    have := hS.picksRuns hd ht j
    rwa [beq_eq_false_iff_ne.2 (Nat.ne_of_lt hj)] at this

end Plan

variable {keep : Nat} {added : List Trivia}

theorem Plan.added_eq (h : R.Plan c S c.document.endOfFile keep added) :
    added = [] ∨ (added = [.endOfLine c.document.lineBreak] ∧ R.Has .finalNewline ∧
      ∃ b, c.document.finalBreak? = some b ∧ c.document.EndCut b keep added ∧
        c.document.endEdit Rule.finalNewline.id b.span keep added ∈ S) := by
  generalize hj : c.document.endOfFile = j at h
  cases h with
  | contract _ hlt => omega
  | final hr hb hcut hmem => exact hcut.added_eq.imp_right fun h => ⟨h, hr, _, hb, hcut, hmem⟩
  | free => exact .inl rfl

/-- What a plan leaves behind the last word, when it puts nothing behind all that is there. -/
theorem Plan.mended_tail (h : R.Plan c S c.document.endOfFile keep added) (hS : R.Batch c S) (hd : c.document.Parsed)
    (ht : SyntaxTree.ofDocument? c.document = some c.tree) (hlt : keep < c.document.tail.length ∨ added = []) :
    Mended (c.document.tail.map .trivia) ((c.document.left S c.document.endOfFile keep added).map .trivia) := by
  refine LayoutLint.mended_tail ?_ ?_ ?_ hlt
  · exact h.added_eq.imp_right fun h => ⟨_, hd.isBreak_lineBreak, h.1⟩
  · have := hS.picksRuns hd ht c.document.endOfFile
    rwa [beq_self_eq_true] at this
  · generalize hj : c.document.endOfFile = j at h
    cases h with
    | contract _ hlt => omega
    | final _ _ hcut => exact hcut.blank
    | free =>
      rw [← hj]
      intro t ht
      rw [show (c.document.gap c.document.endOfFile).length = c.document.tail.length from rfl, List.drop_length] at ht
      cases ht

end Registry

/-! ### Breaks that are joined already -/

theorem Mended.refl : ∀ ps : List Piece, Mended ps ps
  | [] => .nil
  | p :: ps => .keep p (Mended.refl ps)

/-- A document of a text is what its pieces are mended to when nothing is done to them. -/
theorem Document.Parsed.joinBreaks_parts {d : Document} (h : d.Parsed) : joinBreaks d.parts = d.parts :=
  (((Mended.refl d.parts).reads true h.reads).1.unique h.reads (charsOf_joinBreaks _))

theorem Document.Parsed.joinGap_gap {d : Document} (h : d.Parsed) (j : Nat) : joinGap (d.gap j) = d.gap j := by
  rw [← h.proper.getD_gapsOf]
  conv => rhs; rw [← h.joinBreaks_parts, gapsOf_joinBreaks]
  rw [List.getD_eq_getElem?_getD, List.getD_eq_getElem?_getD, List.getElem?_map]
  cases (Piece.gapsOf d.parts)[j]? <;> rfl

/-- What is taken in of a line break, and what is left of it. -/
inductive Taken (e : List Char) : List Char → List Trivia → Prop
  | whole : Taken e e []
  | half : e = ['\r', '\n'] → Taken e ['\r'] [.endOfLine "\n"]

namespace Taken

variable {e x : List Char} {rest : List Trivia}

theorem of_append (he : IsBreak e) (hx : x ≠ [])
    (hrest : rest = [] ∨ ∃ e : String, IsBreak e.toList ∧ rest = [.endOfLine e])
    (h : x ++ charsOf (rest.map .trivia) = e) : Taken e x rest := by
  rcases hrest with rfl | ⟨r, hr, rfl⟩
  · rw [List.map_nil, Piece.charsOf_nil, List.append_nil] at h
    exact h ▸ .whole
  · have hchars : charsOf ([Trivia.endOfLine r].map .trivia) = r.toList := by
      rw [List.map_singleton, Piece.charsOf_cons, Piece.charsOf_nil, List.append_nil]
      rfl
    rw [hchars] at h
    have hlength := congrArg List.length h
    have hxpos := List.length_pos_iff.2 hx
    have hrpos := List.length_pos_iff.2 hr.ne_nil
    rw [List.length_append] at hlength
    rcases he with rfl | rfl | rfl
    · simp only [List.length_singleton] at hlength
      omega
    · simp only [List.length_singleton] at hlength
      omega
    · obtain ⟨hcr, hlf⟩ := List.append_inj (h.trans (rfl : _ = ['\r'] ++ ['\n'])) (by
        simp only [List.length_cons, List.length_nil] at hlength ⊢
        omega)
      rw [hcr, show r = "\n" from String.ext hlf]
      exact .half rfl

theorem ne_nil (h : Taken e x rest) (he : IsBreak e) : x ≠ [] := by
  cases h with
  | whole => exact he.ne_nil
  | half => exact List.cons_ne_nil _ _

/-- Only characters of line breaks are taken in. -/
theorem isBreakChar (h : Taken e x rest) (he : IsBreak e) : ∀ a ∈ x, isBreakChar a = true := by
  cases h with
  | whole => exact he.all
  | half => exact List.all_eq_true.1 (by decide)

/-- What takes in a line break ends in one. -/
theorem getLast?_append (h : Taken e x rest) (he : IsBreak e) (w : String) :
    ∃ a, (w ++ String.ofList x).toList.getLast? = some a ∧ LayoutLint.isBreakChar a = true ∧
      (rest ≠ [] → a = '\r') := by
  have hne := h.ne_nil he
  have hlast : (w ++ String.ofList x).toList.getLast? = some (x.getLast hne) := by
    rw [String.toList_append, String.toList_ofList, List.getLast?_append_of_ne_nil _ hne, List.getLast?_eq_some_getLast]
  refine ⟨_, hlast, h.isBreakChar he _ (List.getLast_mem hne), fun hrest => ?_⟩
  cases h with
  | whole => exact absurd rfl hrest
  | half => rfl

theorem rest_eq (h : Taken e x rest) : rest = [] ∨ rest = [.endOfLine "\n"] := by
  cases h with
  | whole => exact .inl rfl
  | half => exact .inr rfl

end Taken

namespace Registry

variable {R : Registry} {c : RuleContext} {S : List Edit} {q : Document}

/-- The end of a text after edits made together, read again. -/
inductive LastTurn (R : Registry) (c : RuleContext) (S : List Edit) (q : Document) : Prop
  | plain {keep : Nat} {added : List Trivia} : R.Plan c S c.document.endOfFile keep added →
    (∀ i < c.document.endOfFile, q.piece i = c.document.piece i) →
    q.tail = joinGap (c.document.left S c.document.endOfFile keep added) → LastTurn R c S q
  /-- The last word is a literal that nothing closes, and takes in some of the break that is put behind it. -/
  | literal {m : Nat} {x : List Char} {rest : List Trivia} : c.document.endOfFile = m + 1 → c.document.tail = [] →
    R.Plan c S c.document.endOfFile 0 [.endOfLine c.document.lineBreak] → (c.document.piece m).Open →
    Taken c.document.lineBreak.toList x rest → (∀ i < m, q.piece i = c.document.piece i) →
    q.piece m = (c.document.piece m).extend x → q.tail = rest → LastTurn R c S q
  /-- The last piece is a comment that nothing closes, and takes in some of the break that is put behind it. -/
  | comment {g : List Trivia} {t : Trivia} {x : List Char} {rest : List Trivia} :
    c.document.tail.getLast? = some t →
    R.Plan c S c.document.endOfFile c.document.tail.length [.endOfLine c.document.lineBreak] →
    joinGap (dropAt (c.document.takesRun S c.document.endOfFile) c.document.tail) = g ++ [t] →
    Unclosed t.text.toList → Taken c.document.lineBreak.toList x rest →
    (∀ i < c.document.endOfFile, q.piece i = c.document.piece i) →
    q.tail = g ++ ⟨t.kind, t.text ++ String.ofList x⟩ :: rest → LastTurn R c S q

/-- **A text after edits made together, read again.** -/
structure Turn (R : Registry) (c : RuleContext) (S : List Edit) (q : Document) : Prop where
  parsed : q.Parsed
  endOfFile : q.endOfFile = c.document.endOfFile
  gap : ∀ j < c.document.endOfFile, ∃ keep added, R.Plan c S j keep added ∧
    q.gap j = joinGap (c.document.left S j keep added)
  last : R.LastTurn c S q

/-- The pieces of a text are what mending leaves of the pieces of another one. -/
theorem reads_of_mended {d q : Document} {ps : List Piece} (hd : d.Parsed) (hq : q.Parsed)
    (hm : Mended d.parts ps) (htext : q.text.toList = charsOf ps) : q.parts = joinBreaks ps := by
  refine hq.reads.unique (hm.reads true hd.reads).1 ?_
  rw [Document.charsOf_parts, htext, charsOf_joinBreaks]

/-- What a line break becomes that is put behind words and gaps. -/
inductive BreakRead (words : Nat → Piece) (gaps : Nat → List Trivia) (n : Nat) (e : String) (q : Document) : Prop
  | added : (∀ i < n, q.piece i = words i) → q.tail = joinGap (gaps n ++ [.endOfLine e]) → BreakRead words gaps n e q
  /-- The last word is a literal that nothing closes, and takes in some of it. -/
  | literal {m : Nat} {x : List Char} {rest : List Trivia} : n = m + 1 → gaps n = [] → (words m).Open →
    Taken e.toList x rest → (∀ i < m, q.piece i = words i) → q.piece m = (words m).extend x → q.tail = rest →
    BreakRead words gaps n e q
  /-- The last piece is a comment that nothing closes, and takes in some of it. -/
  | comment {g : List Trivia} {t : Trivia} {x : List Char} {rest : List Trivia} : joinGap (gaps n) = g ++ [t] →
    Unclosed t.text.toList → Taken e.toList x rest → (∀ i < n, q.piece i = words i) →
    q.tail = g ++ ⟨t.kind, t.text ++ String.ofList x⟩ :: rest → BreakRead words gaps n e q

/-- The last of words and gaps, and all in front of it. -/
inductive LastPiece (words : Nat → Piece) (gaps : Nat → List Trivia) (n : Nat) : List Piece → Piece → Prop
  | word {m : Nat} : n = m + 1 → gaps n = [] →
    LastPiece words gaps n (weave words (fun i => joinGap (gaps i)) 0 m) (words m)
  | trivia {a : List Trivia} {t : Trivia} : joinGap (gaps n) = a ++ [t] →
    LastPiece words gaps n (weave words (fun i => if i = n then a else joinGap (gaps i)) 0 n) (.trivia t)

section

variable {words : Nat → Piece} {gaps : Nat → List Trivia} {n : Nat} {e : String}

theorem exists_lastPiece (hwords : ∀ i < n, ∃ k w, words i = .word k w)
    (hlast : ∀ t ∈ (gaps n).getLast?, t.isEndOfLine = false) (hcontent : n = 0 → gaps 0 ≠ []) :
    ∃ front p, weave words (fun i => joinGap (gaps i)) 0 n = front ++ [p] ∧ p.isEndOfLine = false ∧
      LastPiece words gaps n front p := by
  rcases List.eq_nil_or_concat (gaps n) with hnil | ⟨a, t, hconcat⟩
  · cases n with
    | zero => exact absurd hnil (hcontent rfl)
    | succ m =>
      obtain ⟨k, w, hword⟩ := hwords m (Nat.lt_succ_self m)
      refine ⟨_, words m, ?_, by rw [hword]; rfl, .word rfl hnil⟩
      rw [weave_succ, Nat.zero_add, hnil]
      rfl
  · have ht : t.isEndOfLine = false := hlast t (by rw [hconcat]; simp)
    have hjoin : joinGap (gaps n) = joinGap a ++ [t] := by
      rw [hconcat, List.concat_eq_append, joinGap_concat (.inl ht)]
    refine ⟨_, .trivia t, ?_, ht, .trivia hjoin⟩
    rw [show [Piece.trivia t] = [t].map .trivia from rfl, weave_append]
    refine weave_congr (Nat.zero_add n) (fun _ _ => rfl) fun i _ => ?_
    by_cases hi : i = n
    · rw [if_pos hi, if_pos hi, hi, hjoin]
    · rw [if_neg hi, if_neg hi]

/-- What the last piece becomes that takes in some of a line break, `rest` of which is left. -/
theorem LastPiece.breakRead {front : List Piece} {p : Piece} (h : LastPiece words gaps n front p) (hq : q.Parsed)
    (hwords : ∀ i < n, ∃ k w, words i = .word k w) (hopen : p.Open) {x : List Char} {rest : List Trivia}
    (htaken : Taken e.toList x rest) (hparts : q.parts = front ++ p.extend x :: rest.map .trivia) :
    q.endOfFile = n ∧ (∀ j < n, q.gap j = joinGap (gaps j)) ∧ BreakRead words gaps n e q := by
  cases h with
  | @word m hn hnil =>
    subst hn
    obtain ⟨k, w, hword⟩ := hwords m (Nat.lt_succ_self m)
    have hext : q.parts = weave (fun i => if i = m then (words m).extend x else words i)
        (fun i => if i = m + 1 then rest else joinGap (gaps i)) 0 (m + 1) := by
      rw [hparts, weave_succ, Nat.zero_add, if_pos rfl, if_pos rfl]
      congr 1
      exact weave_congr (Nat.zero_add m) (fun i hi => if_neg (Nat.ne_of_lt hi) |>.symm)
        fun i hi => if_neg (by omega) |>.symm
    have hwords' : ∀ i < m + 1, ∃ k w, (if i = m then (words m).extend x else words i) = .word k w := by
      intro i hi
      by_cases him : i = m
      · rw [if_pos him, hword]
        exact ⟨_, _, rfl⟩
      · rw [if_neg him]
        exact hwords i hi
    obtain ⟨heof, hpieces, hgap⟩ := hq.proper.of_parts_eq_weave hwords' hext
    refine ⟨heof, fun j hj => ?_, .literal rfl hnil hopen htaken (fun i hi => ?_) ?_ ?_⟩
    · rw [hgap j (Nat.le_of_lt hj), if_neg (Nat.ne_of_lt hj)]
    · rw [hpieces i (by omega), if_neg (Nat.ne_of_lt hi)]
    · rw [hpieces m (Nat.lt_succ_self m), if_pos rfl]
    · rw [Document.tail, heof, hgap _ (Nat.le_refl _), if_pos rfl]
  | @trivia a t hjoin =>
    have hext : q.parts = weave words (fun i => if i = n then a ++ ⟨t.kind, t.text ++ String.ofList x⟩ :: rest
        else joinGap (gaps i)) 0 n := by
      rw [hparts, show (Piece.trivia t).extend x :: rest.map .trivia =
        ((⟨t.kind, t.text ++ String.ofList x⟩ : Trivia) :: rest).map .trivia from rfl, weave_append]
      refine weave_congr (Nat.zero_add n) (fun _ _ => rfl) fun i _ => ?_
      by_cases hi : i = n
      · rw [if_pos hi, if_pos hi, if_pos hi]
      · rw [if_neg hi, if_neg hi, if_neg hi]
    obtain ⟨heof, hpieces, hgap⟩ := hq.proper.of_parts_eq_weave hwords hext
    refine ⟨heof, fun j hj => ?_, .comment hjoin hopen htaken hpieces ?_⟩
    · rw [hgap j (Nat.le_of_lt hj), if_neg (Nat.ne_of_lt hj)]
    · rw [Document.tail, heof, hgap n (Nat.le_refl n), if_pos rfl]

/-- What pieces become with a line break behind them that none of them takes in. -/
theorem breakRead_of_added (hq : q.Parsed) (hwords : ∀ i < n, ∃ k w, words i = .word k w)
    (hlast : ∀ t ∈ (gaps n).getLast?, t.isEndOfLine = false)
    (hparts : q.parts = weave words (fun i => joinGap (gaps i)) 0 n ++ [.trivia (.endOfLine e)]) :
    q.endOfFile = n ∧ (∀ j < n, q.gap j = joinGap (gaps j)) ∧ BreakRead words gaps n e q := by
  rw [show [Piece.trivia (.endOfLine e)] = [Trivia.endOfLine e].map .trivia from rfl, weave_append] at hparts
  obtain ⟨heof, hpieces, hgap⟩ := hq.proper.of_parts_eq_weave hwords hparts
  refine ⟨heof, fun j hj => ?_, .added hpieces ?_⟩
  · rw [hgap j (Nat.le_of_lt hj), if_neg (Nat.ne_of_lt hj)]
  · rw [Document.tail, heof, hgap n (Nat.le_refl n), if_pos rfl, joinGap_concat (.inr hlast)]

/-- **A text with a line break put behind it, read again.** -/
theorem breakRead (hq : q.Parsed) (hwords : ∀ i < n, ∃ k w, words i = .word k w)
    (hreads : Reads true (joinBreaks (weave words gaps 0 n))) (hlast : ∀ t ∈ (gaps n).getLast?, t.isEndOfLine = false)
    (hcontent : n = 0 → gaps 0 ≠ []) (he : IsBreak e.toList)
    (htext : q.text.toList = charsOf (weave words gaps 0 n) ++ e.toList) :
    q.endOfFile = n ∧ (∀ j < n, q.gap j = joinGap (gaps j)) ∧ BreakRead words gaps n e q := by
  rw [joinBreaks_weave gaps (by rwa [Nat.zero_add])] at hreads
  obtain ⟨front, p, hfront, hp, hlastPiece⟩ := exists_lastPiece hwords hlast hcontent
  obtain ⟨qs, hqs, hchars, hgrown⟩ := reads_append_break he hreads (by rw [hfront]; simpa using hp)
  obtain rfl : q.parts = qs := by
    refine hq.reads.unique hqs ?_
    rw [Document.charsOf_parts, htext, hchars, ← joinBreaks_weave gaps (by rwa [Nat.zero_add]), charsOf_joinBreaks]
  generalize hparts : q.parts = parts at hgrown hchars
  generalize hall : weave words (fun i => joinGap (gaps i)) 0 n = all at hgrown hchars hfront
  cases hgrown with
  | @add _ e' he' =>
    obtain rfl : e' = e := by
      rw [Piece.charsOf_append] at hchars
      have := List.append_cancel_left hchars
      rw [Piece.charsOf_cons, Piece.charsOf_nil, List.append_nil] at this
      exact String.ext this
    exact breakRead_of_added hq hwords hlast (hall ▸ hparts)
  | @take front' p' x rest hopen hx _ hrest =>
    obtain ⟨rfl, hpp⟩ := List.append_inj' hfront rfl
    obtain rfl := List.singleton_inj.1 hpp
    obtain ⟨r, rfl, hr⟩ : ∃ r : List Trivia, rest = r.map .trivia ∧
        (r = [] ∨ ∃ e : String, IsBreak e.toList ∧ r = [.endOfLine e]) := by
      rcases hrest with rfl | ⟨e', he', rfl⟩
      · exact ⟨[], rfl, .inl rfl⟩
      · exact ⟨[.endOfLine e'], rfl, .inr ⟨e', he', rfl⟩⟩
    have htaken : Taken e.toList x r := by
      refine .of_append he hx hr ?_
      rw [Piece.charsOf_append, Piece.charsOf_append, Piece.charsOf_cons, Piece.charsOf_cons, Piece.charsOf_nil,
        List.append_nil, Piece.chars_extend, List.append_assoc, List.append_assoc] at hchars
      exact List.append_cancel_left (List.append_cancel_left hchars)
    exact hlastPiece.breakRead hq hwords hopen htaken hparts

end

/-- A line break put behind all there is: the text behind the last word does not end in blanks. -/
theorem Plan.of_not_cut {keep : Nat} {added : List Trivia} (h : R.Plan c S c.document.endOfFile keep added)
    (hcut : ¬ (keep < c.document.tail.length ∨ added = [])) :
    keep = c.document.tail.length ∧ added = [.endOfLine c.document.lineBreak] ∧ c.document.text ≠ "" ∧
      ∀ t ∈ c.document.tail.getLast?, t.isBlank = false := by
  have hle := h.keep_le
  rw [not_or, Nat.not_lt] at hcut
  have hkeep : keep = c.document.tail.length := Nat.le_antisymm hle hcut.1
  obtain hadded | ⟨hadded, -, b, -, hendcut, -⟩ := h.added_eq
  · exact absurd hadded hcut.2
  refine ⟨hkeep, hadded, ?_⟩
  cases hendcut with
  | missing hne =>
    have hlen := c.document.length_tail
    have hblanks : c.document.blanks = [] := List.length_eq_zero_iff.1 (by omega)
    have htail := c.document.content_append_blanks
    rw [hblanks, List.append_nil] at htail
    exact ⟨hne, htail ▸ c.document.isBlank_getLast?_content⟩
  | rows _ _ hblanks =>
    have hlen := c.document.length_tail
    have := List.length_pos_iff.2 hblanks
    omega
  | lines => exact absurd rfl hcut.2

/-- Taking white space away at the ends of lines leaves the last piece of what does not end in blanks. -/
theorem getLast?_dropAt {p : Nat → Bool} {g : List Trivia} (hp : PicksRuns true p g)
    (hg : ∀ t ∈ g.getLast?, t.isBlank = false) : (dropAt p g).getLast? = g.getLast? := by
  rcases List.eq_nil_or_concat g with rfl | ⟨a, t, rfl⟩
  · rfl
  · rw [List.concat_eq_append] at hp hg ⊢
    have ht := Bool.or_eq_false_iff.1 (hg t (by simp))
    rw [dropAt_concat t (hp.eq_false (by simp) ht.1), List.getLast?_concat, List.getLast?_concat]

theorem getLast?_joinGap {g : List Trivia} (hg : ∀ t ∈ g.getLast?, t.isEndOfLine = false) :
    (joinGap g).getLast? = g.getLast? := by
  rcases List.eq_nil_or_concat g with rfl | ⟨a, t, rfl⟩
  · rfl
  · rw [List.concat_eq_append] at hg ⊢
    rw [joinGap_concat (.inl (hg t (by simp))), List.getLast?_concat, List.getLast?_concat]

/-- Words and gaps with a line break behind them are those without it, and the break. -/
theorem weave_break {words : Nat → Piece} {gaps : Nat → List Trivia} {n : Nat} {g : List Trivia} {e : String}
    (h : gaps n = g ++ [.endOfLine e]) : weave words gaps 0 n =
      weave words (fun j => if j = n then g else gaps j) 0 n ++ [.trivia (.endOfLine e)] := by
  rw [show [Piece.trivia (.endOfLine e)] = [Trivia.endOfLine e].map .trivia from rfl, weave_append]
  refine weave_congr (Nat.zero_add _) (fun _ _ => rfl) fun i _ => ?_
  by_cases hi : i = n
  · rw [if_pos hi, if_pos hi, hi, h]
  · rw [if_neg hi, if_neg hi]

/-- The text that edits made together leave, read again, when a line break is put behind all there is. -/
theorem Batch.turn_of_break (hS : R.Batch c S) (hd : c.document.Parsed)
    (ht : SyntaxTree.ofDocument? c.document = some c.tree) (hq : q.Parsed)
    (hplan : R.Plan c S c.document.endOfFile c.document.tail.length [.endOfLine c.document.lineBreak])
    (hnonempty : c.document.text ≠ "") (hnotBlank : ∀ t ∈ c.document.tail.getLast?, t.isBlank = false)
    {gaps : Nat → List Trivia} (hgap : ∀ j < c.document.endOfFile, c.document.GapLeft j (gaps j))
    (hlast : gaps c.document.endOfFile =
      c.document.left S c.document.endOfFile c.document.tail.length [.endOfLine c.document.lineBreak])
    (htext : q.text.toList = charsOf (weave c.document.piece gaps 0 c.document.endOfFile)) :
    q.endOfFile = c.document.endOfFile ∧ (∀ j < c.document.endOfFile, q.gap j = joinGap (gaps j)) ∧
      R.LastTurn c S q := by
  have hpicks := hS.picksRuns hd ht c.document.endOfFile
  rw [beq_self_eq_true] at hpicks
  -- What is left behind the last word ends in what stood at the end, which is not blank.
  have hleft : (dropAt (c.document.takesRun S c.document.endOfFile) c.document.tail).getLast? =
      c.document.tail.getLast? := getLast?_dropAt hpicks hnotBlank
  rw [Document.left, show (c.document.gap c.document.endOfFile).take c.document.tail.length = c.document.tail from
    List.take_length] at hlast
  generalize htailLeft : dropAt (c.document.takesRun S c.document.endOfFile) c.document.tail = tailLeft at hleft hlast
  have hend : ∀ t ∈ tailLeft.getLast?, t.isEndOfLine = false := fun t ht =>
    (Bool.or_eq_false_iff.1 (hnotBlank t (hleft ▸ ht))).2
  have hnil : tailLeft = [] → c.document.tail = [] := fun h => by
    rw [h] at hleft
    exact List.getLast?_eq_none_iff.1 hleft.symm
  let before : Nat → List Trivia := fun j => if j = c.document.endOfFile then tailLeft else gaps j
  have hbefore : before c.document.endOfFile = tailLeft := if_pos rfl
  have hbefore' : ∀ j < c.document.endOfFile, before j = gaps j := fun j hj => if_neg (Nat.ne_of_lt hj)
  have hm : Mended c.document.parts (weave c.document.piece before 0 c.document.endOfFile) := by
    refine Document.mended_weave hd.proper (fun j hj => (hbefore' j hj).symm ▸ hgap j hj) ?_
    rw [hbefore, ← htailLeft]
    exact mended_tail_of_runs hpicks
  have hcontent : c.document.endOfFile = 0 → before 0 ≠ [] := by
    intro h0 hnone
    rw [← h0, hbefore] at hnone
    refine hnonempty (String.ext ?_)
    rw [hd.proper.text_eq, Document.body, h0, hnil hnone]
    rfl
  have hchars : q.text.toList =
      charsOf (weave c.document.piece before 0 c.document.endOfFile) ++ c.document.lineBreak.toList := by
    rw [htext, weave_break hlast, Piece.charsOf_append, Piece.charsOf_cons, Piece.charsOf_nil, List.append_nil]
    rfl
  obtain ⟨heof, hgap', hread⟩ := breakRead hq (fun i _ => ⟨_, _, rfl⟩) (hm.reads true hd.reads).1
    (by rwa [hbefore]) hcontent hd.isBreak_lineBreak hchars
  refine ⟨heof, fun j hj => by rw [hgap' j hj, hbefore' j hj], ?_⟩
  cases hread with
  | added hpieces htail =>
    refine .plain hplan hpieces ?_
    rw [htail, hbefore, ← htailLeft, Document.left, show (c.document.gap c.document.endOfFile).take
      c.document.tail.length = c.document.tail from List.take_length]
  | literal hm hnone hopen htaken hpieces hpiece htail =>
    have hnone := hnil (hbefore.symm.trans hnone)
    rw [hnone] at hplan
    exact .literal hm hnone hplan hopen htaken hpieces hpiece htail
  | comment hjoin hunclosed htaken hpieces htail =>
    rw [hbefore] at hjoin
    have hlastPiece := getLast?_joinGap hend
    rw [hjoin, List.getLast?_concat, hleft] at hlastPiece
    exact .comment hlastPiece.symm hplan (htailLeft ▸ hjoin) hunclosed htaken hpieces htail

/-- **The text that edits made together leave, read again.** -/
theorem Batch.turn (hS : R.Batch c S) (hd : c.document.Parsed) (ht : SyntaxTree.ofDocument? c.document = some c.tree)
    (hne : S ≠ []) {o : FixOutcome} (ho : c.document.applyEdits S = .ok o)
    (hq : Document.ofSource o.document.text = .ok q) : R.Turn c S q := by
  obtain ⟨o', ho', -, -, hproper, hrewords, hgaps⟩ | ⟨herror, -⟩ := hS.applyEdits hd ht hne
  · obtain rfl : o' = o := Except.ok.inj (ho'.symm.trans ho)
    obtain ⟨hqp, hqtext⟩ := Document.parsed_of_ofSource hq
    obtain ⟨keep, added, hplan, hlast⟩ := hgaps _ (Nat.le_refl _)
    have hwords : ∀ i < c.document.endOfFile, ∃ k w, c.document.piece i = .word k w := fun i _ => ⟨_, _, rfl⟩
    have hgapLeft : ∀ j < c.document.endOfFile, c.document.GapLeft j (o'.document.gap j) := by
      intro j hj
      obtain ⟨keep, added, hplan, hg⟩ := hgaps j (Nat.le_of_lt hj)
      rw [hg]
      exact hplan.gapLeft hS hd ht hj
    have htext : q.text.toList = charsOf o'.document.parts := by rw [hqtext, Document.charsOf_parts]
    have hparts := hrewords.parts_eq hproper
    -- What the gaps are when those in front of the last one are what they should be.
    have hturn : (∀ j < c.document.endOfFile, q.gap j = joinGap (o'.document.gap j)) →
        q.endOfFile = c.document.endOfFile → R.LastTurn c S q → R.Turn c S q := by
      intro hg heof hl
      refine ⟨hqp, heof, fun j hj => ?_, hl⟩
      obtain ⟨keep, added, hplan, hleft⟩ := hgaps j (Nat.le_of_lt hj)
      exact ⟨keep, added, hplan, by rw [hg j hj, hleft]⟩
    by_cases hcut : keep < c.document.tail.length ∨ added = []
    · have hm : Mended c.document.parts (weave c.document.piece o'.document.gap 0 c.document.endOfFile) := by
        refine Document.mended_weave hd.proper hgapLeft ?_
        rw [hlast]
        exact hplan.mended_tail hS hd ht hcut
      have hq := reads_of_mended hd hqp hm (by rw [htext, hparts])
      rw [joinBreaks_weave _ (by rwa [Nat.zero_add])] at hq
      obtain ⟨heof, hpieces, hgap⟩ := hqp.proper.of_parts_eq_weave hwords hq
      refine hturn (fun j hj => hgap j (Nat.le_of_lt hj)) heof (.plain hplan hpieces ?_)
      rw [Document.tail, heof, hgap _ (Nat.le_refl _), hlast]
    · obtain ⟨rfl, rfl, hnonempty, hnotBlank⟩ := hplan.of_not_cut hcut
      obtain ⟨heof, hgap, hl⟩ :=
        hS.turn_of_break hd ht hqp hplan hnonempty hnotBlank hgapLeft hlast (by rw [htext, hparts])
      exact hturn hgap heof hl
  · rw [ho] at herror
    cases herror

end Registry

end LayoutLint
