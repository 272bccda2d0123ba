import LayoutLint.Proofs.Layout.Blanks
import LayoutLint.Proofs.Layout.Splices
/-!
# Weave — words and gaps put together

The pieces of a proper document are its gaps and its words in turn (`parts_eq_weave`). When each gap of one document
holds what mending may leave of that gap of another one with the same words, the pieces of the one are those of the
other mended (`mended_weave`).
-/
namespace LayoutLint

/-- Gap `j`, word `j`, and so on, up to the gap behind `n` words. -/
def weave (words : Nat → Piece) (gaps : Nat → List Trivia) (j : Nat) : Nat → List Piece
  | 0 => (gaps j).map .trivia
  | n + 1 => (gaps j).map .trivia ++ words j :: weave words gaps (j + 1) n

/-- A word, what is in front of it and what is behind it. -/
theorem weave_add (words : Nat → Piece) (gaps : Nat → List Trivia) (n : Nat) : ∀ m j,
    weave words gaps j (m + 1 + n) = weave words gaps j m ++ words (j + m) :: weave words gaps (j + m + 1) n
  | 0, j => by rw [Nat.zero_add, Nat.add_comm 1 n]; rfl
  | m + 1, j => by
    rw [Nat.add_right_comm (m + 1) 1 n, weave, weave_add words gaps n m (j + 1), weave, List.append_assoc,
      Nat.add_right_comm j 1 m]
    rfl

/-- The last word apart. -/
theorem weave_succ (words : Nat → Piece) (gaps : Nat → List Trivia) (n j : Nat) : weave words gaps j (n + 1) =
    weave words gaps j n ++ words (j + n) :: (gaps (j + n + 1)).map .trivia :=
  weave_add words gaps 0 n j

theorem weave_congr_from {words words' : Nat → Piece} {gaps gaps' : Nat → List Trivia} : ∀ {n j : Nat},
    (∀ i, j ≤ i → i < j + n → words' i = words i) → (∀ i, j ≤ i → i ≤ j + n → gaps' i = gaps i) →
      weave words' gaps' j n = weave words gaps j n
  | 0, j, _, hg => by rw [weave, weave, hg j (Nat.le_refl j) (Nat.le_refl j)]
  | n + 1, j, hw, hg => by
    rw [weave, weave, hw j (Nat.le_refl j) (by omega), hg j (Nat.le_refl j) (by omega),
      weave_congr_from (fun i hi hin => hw i (by omega) (by omega)) fun i hi hin => hg i (by omega) (by omega)]

theorem weave_congr {words words' : Nat → Piece} {gaps gaps' : Nat → List Trivia} {n j m : Nat} (hn : j + m = n)
    (hw : ∀ i < n, words' i = words i) (hg : ∀ i ≤ n, gaps' i = gaps i) :
    weave words' gaps' j m = weave words gaps j m :=
  weave_congr_from (fun i _ hi => hw i (hn ▸ hi)) fun i _ hi => hg i (hn ▸ hi)

/-- The words and the gaps behind gap `j`. -/
def behind (words : Nat → Piece) (gaps : Nat → List Trivia) (j : Nat) : Nat → List Piece
  | 0 => []
  | n + 1 => words j :: weave words gaps (j + 1) n

theorem weave_eq_append_behind (words : Nat → Piece) (gaps : Nat → List Trivia) (j n : Nat) :
    weave words gaps j n = (gaps j).map .trivia ++ behind words gaps j n := by
  cases n with
  | zero => exact (List.append_nil _).symm
  | succ n => rfl

/-- Trivia put behind the last gap. -/
theorem weave_append (words : Nat → Piece) (gaps : Nat → List Trivia) (ts : List Trivia) (n : Nat) :
    weave words gaps 0 n ++ ts.map .trivia =
      weave words (fun i => if i = n then gaps i ++ ts else gaps i) 0 n := by
  cases n with
  | zero => rw [weave, weave, if_pos rfl, List.map_append]
  | succ n =>
    rw [weave_succ, weave_succ, Nat.zero_add, if_pos rfl, List.map_append, List.append_assoc, List.cons_append]
    congr 1
    exact weave_congr (Nat.zero_add n) (fun _ _ => rfl) fun i hi => (if_neg (by omega)).symm

theorem gapsOf_weave {words : Nat → Piece} (gaps : Nat → List Trivia) : ∀ {j n : Nat},
    (∀ i < j + n, ∃ k w, words i = .word k w) →
    Piece.gapsOf (weave words gaps j n) = (List.range' j (n + 1)).map gaps ∧
      (Piece.wordsOf (weave words gaps j n)).map (fun p => Piece.word p.1 p.2) = (List.range' j n).map words
  | j, 0, _ => by
    rw [weave, Piece.gapsOf_trivia, Piece.wordsOf_trivia]
    exact ⟨rfl, rfl⟩
  | j, n + 1, hw => by
    obtain ⟨k, w, hword⟩ := hw j (by omega)
    obtain ⟨hg, hws⟩ := gapsOf_weave gaps (j := j + 1) (n := n) fun i hi => hw i (by omega)
    rw [weave, hword, Piece.gapsOf_append_word, hg, Piece.wordsOf_append, Piece.wordsOf_trivia, Piece.wordsOf,
      List.nil_append, List.map_cons, hws, ← hword]
    exact ⟨rfl, rfl⟩

/-- Breaks are joined gap by gap. -/
theorem joinBreaks_weave {words : Nat → Piece} (gaps : Nat → List Trivia) : ∀ {j n : Nat},
    (∀ i < j + n, ∃ k w, words i = .word k w) →
    joinBreaks (weave words gaps j n) = weave words (fun i => joinGap (gaps i)) j n
  | j, 0, _ => joinBreaks_trivia (gaps j)
  | j, n + 1, hw => by
    obtain ⟨k, w, hword⟩ := hw j (by omega)
    rw [weave, weave, hword, joinBreaks_trivia_append _ (by simp [joinBreaks_cons, glue_word]), joinBreaks_cons,
      glue_word, joinBreaks_weave gaps (j := j + 1) fun i hi => hw i (by omega)]

namespace Document

variable {d : Document}

/-- A word of the document. -/
def piece (d : Document) (i : Nat) : Piece := .word (d.kindAt i) (d.wordAt i)

/-- **The pieces of a document are its gaps and its words in turn.** -/
theorem Proper.parts_eq_weave (h : d.Proper) : d.parts = weave d.piece d.gap 0 d.endOfFile := by
  have hs := d.size_eq
  have hlen : d.tokens.toList.length = d.size := rfl
  have hdrop : ∀ {j}, j < d.size → d.tokens.toList.drop j = d.token j :: d.tokens.toList.drop (j + 1) := by
    intro j hj
    rw [List.drop_eq_getElem_cons (by omega), d.token_eq_getElem hj]
    rfl
  have key : ∀ n j before, j + n = d.endOfFile → before ++ (d.token j).leading = d.gap j →
      before.map .trivia ++ Token.partsOf (d.tokens.toList.drop j) = weave d.piece d.gap j n := by
    intro n
    induction n with
    | zero =>
      intro j before hj hgap
      obtain ⟨ts, hts⟩ := h.last
      rw [Nat.add_zero] at hj
      have hend : d.tokens.toList.drop (j + 1) = [] := List.drop_eq_nil_of_le (by omega)
      rw [hdrop (by omega), hend, weave, ← hgap, hj, hts]
      simp [Token.partsOf, Token.parts, Token.own, Token.endOfFile]
    | succ n ih =>
      intro j before hj hgap
      rw [hdrop (by omega), Token.partsOf_cons, parts_of_text (h.word j (by omega)), weave, ← hgap,
        ← ih (j + 1) (d.token j).trailing (by omega) rfl]
      simp [piece, kindAt, wordAt]
  have := key d.endOfFile 0 [] (Nat.zero_add _) rfl
  rwa [List.map_nil, List.nil_append, List.drop_zero] at this

/-- A token starts behind the words and gaps in front of it. -/
theorem width_weave (d : Document) {j : Nat} (hj : j < d.size) :
    Text.width (Piece.charsOf (weave d.piece d.gap 0 j)) = (d.span j).start := by
  induction j with
  | zero => rw [weave, width_trivia, d.span_start hj, gapStart, Nat.zero_add]
  | succ j ih =>
    rw [weave_succ, Piece.charsOf_append, Piece.charsOf_cons, Text.width_append, Text.width_append, ih (by omega),
      width_trivia, d.span_start hj, Nat.zero_add, ← Nat.add_assoc]
    congr 1
    rw [gapStart, span_stop_eq, Token.textWidth, Text.utf8ByteSize_eq_width]
    rfl

end Document

/-! ### What mending leaves of a gap -/

/-- The test picks nothing but white space at the ends of lines. -/
def PicksRuns (last : Bool) (p : Nat → Bool) (g : List Trivia) : Prop :=
  ∀ i t, g[i]? = some t → p i = true → isRun last t (g.drop (i + 1)) = true

theorem PicksRuns.tail {last : Bool} {p : Nat → Bool} {t : Trivia} {g : List Trivia} (h : PicksRuns last p (t :: g)) :
    PicksRuns last (fun i => p (i + 1)) g :=
  fun i u hu hp => h (i + 1) u hu hp

theorem Trivia.eq_whitespace {t : Trivia} (h : t.isWhitespace = true) : t = .whitespace t.text := by
  obtain ⟨k, w⟩ := t
  rw [show k = .whitespace from beq_iff_eq.1 h]
  rfl

/-- White space at the ends of lines is taken away. -/
theorem mended_runs {p : Nat → Bool} {g : List Trivia} {ps qs : List Piece} (hp : PicksRuns false p g)
    (h : Mended ps qs) : Mended (g.map .trivia ++ ps) ((dropAt p g).map .trivia ++ qs) := by
  induction g generalizing p with
  | nil => exact h
  | cons t g ih =>
    rw [dropAt]
    split
    · rename_i h0
      obtain ⟨hw, hend⟩ := Bool.and_eq_true_iff.1 (hp 0 t rfl h0)
      rw [List.map_cons, Trivia.eq_whitespace hw]
      refine .drop _ (fun q hq => ?_) (ih hp.tail)
      cases g with
      | nil => cases hend
      | cons u g =>
        obtain rfl := Option.some.inj hq
        exact hend
    · exact .keep _ (ih hp.tail)

/-- Nothing but white space is picked. -/
theorem PicksRuns.eq_false {last : Bool} {p : Nat → Bool} {g : List Trivia} (h : PicksRuns last p g) {i : Nat}
    {t : Trivia} (ht : g[i]? = some t) (hw : t.isWhitespace = false) : p i = false := by
  refine Bool.eq_false_iff.2 fun hp => ?_
  rw [(Bool.and_eq_true_iff.1 (h i t ht hp)).1] at hw
  cases hw

/-- The last piece of a gap is left, when it is not picked. -/
theorem dropAt_concat {p : Nat → Bool} {a : List Trivia} (t : Trivia) (h : p a.length = false) :
    dropAt p (a ++ [t]) = dropAt p a ++ [t] := by
  rw [dropAt_append, dropAt, Nat.add_zero, h, if_neg Bool.false_ne_true]
  rfl

/-- White space at the ends of lines is taken away, and the end of the text is cut. -/
theorem mended_tail {p : Nat → Bool} {added : List Trivia} (hadded : added = [] ∨ ∃ e : String, IsBreak e.toList ∧
    added = [.endOfLine e]) : ∀ {keep : Nat} {g : List Trivia}, PicksRuns true p g →
    (∀ t ∈ g.drop keep, t.isBlank = true) → (keep < g.length ∨ added = []) →
    Mended (g.map .trivia) ((dropAt p (g.take keep) ++ added).map .trivia)
  | _, [], _, _, hlt => by
    obtain rfl := hlt.resolve_left (Nat.not_lt_zero _)
    rw [List.take_nil]
    exact .nil
  | 0, t :: g, _, hb, _ => by
    refine .cut (fun q hq => ?_) (by simp) ?_
    · obtain ⟨u, hu, rfl⟩ := List.mem_map.1 hq
      exact hb u hu
    · rcases hadded with rfl | ⟨e, he, rfl⟩
      · exact .inl rfl
      · exact .inr ⟨e, he, rfl⟩
  | keep + 1, t :: g, hp, hb, hlt => by
    have ih := @mended_tail _ _ hadded keep _ hp.tail hb (hlt.imp_left Nat.lt_of_succ_lt_succ)
    rw [List.take_succ_cons, dropAt]
    split
    · rename_i h0
      obtain ⟨hw, hend⟩ := Bool.and_eq_true_iff.1 (hp 0 t rfl h0)
      rw [List.map_cons, Trivia.eq_whitespace hw]
      refine .drop _ (fun q hq => ?_) ih
      cases g with
      | nil => cases hq
      | cons u g =>
        obtain rfl := Option.some.inj hq
        exact hend
    · exact .keep _ ih

/-- White space at the ends of lines is taken away, and nothing else. -/
theorem mended_tail_of_runs {p : Nat → Bool} {g : List Trivia} (hp : PicksRuns true p g) :
    Mended (g.map .trivia) ((dropAt p g).map .trivia) := by
  have hnone : ∀ t ∈ g.drop g.length, t.isBlank = true := by
    rw [List.drop_length]
    exact fun t ht => absurd ht List.not_mem_nil
  simpa only [List.take_length, List.append_nil] using mended_tail (.inl rfl) hp hnone (.inr rfl)

namespace Document

variable {d e : Document}

/-- What may be left of the gap in front of token `j`: all but white space at the ends of lines, or what a contract puts
in front of a parenthesis or behind a cast. -/
inductive GapLeft (d : Document) : Nat → List Trivia → Prop
  | runs {j : Nat} (p : Nat → Bool) : PicksRuns false p (d.gap j) → GapLeft d j (dropAt p (d.gap j))
  | contract {i : Nat} {g : List Trivia} : (d.kindAt i).isQuoted = false →
    (d.wordAt (i + 1) = "(" ∧ (g = [] ∨ g = [.space])) ∨ (d.wordAt i = ")" ∧ g = []) → GapLeft d (i + 1) g

/-- The document has the words of another one. -/
structure Rewords (d e : Document) : Prop where
  endOfFile : e.endOfFile = d.endOfFile
  piece : ∀ i < d.endOfFile, e.piece i = d.piece i

theorem Rewords.parts_eq (hw : d.Rewords e) (he : e.Proper) : e.parts = weave d.piece e.gap 0 d.endOfFile := by
  rw [he.parts_eq_weave, hw.endOfFile]
  exact weave_congr (Nat.zero_add _) hw.piece fun _ _ => rfl

/-- A document is told by its pieces. -/
theorem Proper.of_parts_eq_weave (h : d.Proper) {words : Nat → Piece} {gaps : Nat → List Trivia} {n : Nat}
    (hw : ∀ i < n, ∃ k w, words i = .word k w) (hp : d.parts = weave words gaps 0 n) :
    d.endOfFile = n ∧ (∀ i < n, d.piece i = words i) ∧ ∀ j ≤ n, d.gap j = gaps j := by
  obtain ⟨hg, hws⟩ := gapsOf_weave gaps (j := 0) (n := n) (by rwa [Nat.zero_add])
  rw [← hp] at hg hws
  rw [h.wordsOf_eq, List.map_map, ← List.range_eq_range'] at hws
  have heof : d.endOfFile = n := by
    have := congrArg List.length hws
    rwa [List.length_map, List.length_map, List.length_range, List.length_range] at this
  refine ⟨heof, fun i hi => ?_, fun j hj => ?_⟩
  · have := congrArg (·[i]?) hws
    simp only [List.getElem?_map, List.getElem?_range (heof ▸ hi : i < d.endOfFile), List.getElem?_range hi] at this
    exact Option.some.inj this
  · rw [← h.getD_gapsOf, hg, ← List.range_eq_range', List.getD_eq_getElem?_getD, List.getElem?_map,
      List.getElem?_range (by omega)]
    rfl

/-- The document of a proper one's words with other trivia, when nothing trails the token that closes it. -/
theorem Proper.of_tokens (h : d.Proper) {f : Nat → Token}
    (hf : ∀ id, ∃ leading trailing, f id = { d.token id with leading, trailing })
    (hlast : (f d.endOfFile).trailing = []) (he : e.tokens.toList = (List.range d.size).map f) :
    e.Proper ∧ d.Rewords e ∧ ∀ id < d.size, e.token id = f id := by
  have hs := d.size_eq
  have hsize : e.size = d.size := by
    have := congrArg List.length he
    rwa [List.length_map, List.length_range] at this
  have heof : e.endOfFile = d.endOfFile := by rw [endOfFile, endOfFile, hsize]
  have htoken : ∀ id < d.size, e.token id = f id := by
    intro id hid
    rw [e.token_eq_getD, he, List.getD_eq_getElem?_getD, List.getElem?_map, List.getElem?_range hid]
    rfl
  have hword : ∀ id < d.size, e.wordAt id = d.wordAt id ∧ e.kindAt id = d.kindAt id ∧
      (e.token id).missing = (d.token id).missing := by
    intro id hid
    obtain ⟨leading, trailing, hid'⟩ := hf id
    rw [wordAt, kindAt, htoken id hid, hid']
    exact ⟨rfl, rfl, rfl⟩
  refine ⟨⟨fun i hi => ?_, fun i hi => ?_, fun i => ?_, ?_⟩, ⟨heof, fun i hi => ?_⟩, htoken⟩
  · rw [(hword i (by omega)).1]
    exact h.word i (by omega)
  · rw [(hword i (by omega)).2.1]
    exact h.kind i (by omega)
  · rcases Nat.lt_or_ge i d.size with hi | hi
    · exact (hword i hi).2.2.trans (h.present i)
    · rw [token_of_size_le (by omega)]
      rfl
  · obtain ⟨ts, hts⟩ := h.last
    obtain ⟨leading, trailing, hid⟩ := hf d.endOfFile
    rw [hid] at hlast
    obtain rfl : trailing = [] := hlast
    rw [heof, htoken _ (by omega), hid, hts]
    exact ⟨leading, rfl⟩
  · rw [piece, (hword i (by omega)).1, (hword i (by omega)).2.1]
    rfl

/-- **The pieces of a document whose gaps have been mended.** -/
theorem mended_weave (hd : d.Proper) {gaps : Nat → List Trivia} (hgap : ∀ j < d.endOfFile, d.GapLeft j (gaps j))
    (htail : Mended ((d.gap d.endOfFile).map .trivia) ((gaps d.endOfFile).map .trivia)) :
    Mended d.parts (weave d.piece gaps 0 d.endOfFile) := by
  have key : ∀ n j, j + 1 + n = d.endOfFile →
      Mended (d.piece j :: weave d.piece d.gap (j + 1) n) (d.piece j :: weave d.piece gaps (j + 1) n) := by
    intro n
    induction n with
    | zero =>
      intro j hj
      rw [Nat.add_zero] at hj
      rw [weave, weave, hj]
      exact .keep _ htail
    | succ n ih =>
      intro j hj
      have ih := ih (j + 1) (by omega)
      have hg := hgap (j + 1) (by omega)
      rw [weave, weave]
      generalize gaps (j + 1) = g at hg
      cases hg with
      | runs p hp => exact .keep _ (mended_runs hp ih)
      | contract hk hc => exact .gap _ _ hk hc ih
  rw [hd.parts_eq_weave]
  cases heof : d.endOfFile with
  | zero =>
    rw [heof] at htail
    exact htail
  | succ m =>
    have h := key m 0 (by omega)
    have hg := hgap 0 (by omega)
    rw [weave, weave]
    generalize gaps 0 = g at hg
    cases hg with
    | runs p hp => exact mended_runs hp h

end Document

end LayoutLint
