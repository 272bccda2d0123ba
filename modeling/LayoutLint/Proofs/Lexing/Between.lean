import LayoutLint.Proofs.Lexing.Tokens
/-!
# Between — trivia at the head of a text

What trivia stands at the head of a text is one of five things (`scan?_eq_some_iff`). A piece of trivia stays what it is
when the text behind it goes on with the same character, or ends its line (`scan?_append`). Where no trivia stands, none
stands when the text behind gives way to an alike one (`scan?_none_append`). A block comment that nothing closes grows
when a line break is put at the end of the text (`scan?_append_break`); no other trivia does but a CR that an LF joins.
-/
namespace LayoutLint

open Text (find? findFrom)

variable {t r r' e : List Char}

/-- Exactly the front of a text passes a test. -/
theorem length_takeWhile_append {p : Char → Bool} :
    ((t ++ r).takeWhile p).length = t.length ↔ (∀ c ∈ t, p c = true) ∧ ∀ c ∈ r.head?, p c = false := by
  induction t with
  | nil =>
    cases r with
    | nil => simp
    | cons c r => cases hc : p c <;> simp [hc]
  | cons c t ih => cases hc : p c <;> simp [hc, ih]

/-- A pattern without breaks is not longer than its line. -/
theorem isPrefixOf_append_lineEnd {p : List Char} (hp : Avoids isBreakChar p) (hr : LineEnd r) :
    ∀ t : List Char, p.isPrefixOf (t ++ r) = p.isPrefixOf t := by
  induction p with
  | nil => intro t; cases t <;> simp
  | cons d p ih =>
    intro t
    cases t with
    | nil =>
      cases r with
      | nil => rfl
      | cons c r =>
        have : (d == c) = false := by
          rw [beq_eq_false_iff_ne]
          rintro rfl
          have := lineEnd_cons.1 hr
          rw [hp d List.mem_cons_self] at this
          cases this
        simp [List.isPrefixOf, this]
    | cons c t =>
      simp only [List.cons_append, List.isPrefixOf]
      rw [ih (fun c hc => hp c (List.mem_cons_of_mem _ hc))]

theorem isPrefixOf_pair (c d x : Char) (s : List Char) :
    [c, d].isPrefixOf (x :: s) = (c == x && s.head? == some d) := by
  cases s with
  | nil => simp [List.isPrefixOf]
  | cons y s => simp [List.isPrefixOf, Bool.beq_comm]

/-! ### The classes of trivia -/

/-- The kind of a comment, told by its head. -/
def commentKind (doc noDoc : List Char) (s : List Char) : TriviaKind :=
  if doc.isPrefixOf s && !noDoc.isPrefixOf s then .structured else .comment

theorem commentKind_congr {doc noDoc s s' : List Char} (h : doc.isPrefixOf s' = doc.isPrefixOf s)
    (h' : noDoc.isPrefixOf s' = noDoc.isPrefixOf s) : commentKind doc noDoc s' = commentKind doc noDoc s := by
  rw [commentKind, commentKind, h, h']

theorem scan?_break {b : Bool} {c : Char} {s : List Char} (h : isBreakChar c = true) :
    Trivia.scan? b (c :: s) = some (.endOfLine, breakLength (c :: s)) := by
  rw [Trivia.scan?, if_pos h]

theorem scan?_gap {b : Bool} {c : Char} {s : List Char} (h : isGap c = true) :
    Trivia.scan? b (c :: s) = some (.whitespace, ((c :: s).takeWhile isGap).length) := by
  have hb : isBreakChar c = false := by simpa [isGap] using (Bool.and_eq_true_iff.1 h).2
  rw [Trivia.scan?, if_neg (by rw [hb]; exact Bool.false_ne_true), if_pos h]

theorem scan?_of_not_blank {b : Bool} {c : Char} {s : List Char} (hb : isBreakChar c = false) (hg : isGap c = false) :
    Trivia.scan? b (c :: s) =
      if ['/', '/'].isPrefixOf (c :: s) then
        some (commentKind ['/', '/', '/'] ['/', '/', '/', '/'] (c :: s), lineLength (c :: s))
      else if ['/', '*'].isPrefixOf (c :: s) then
        some (commentKind ['/', '*', '*'] ['/', '*', '*', '/'] (c :: s), blockCommentLength (c :: s))
      else if b && c == '#' then some (.structured, lineLength (c :: s))
      else none := by
  rw [Trivia.scan?, hb, hg]
  rfl

/-- Blank characters are those of breaks and of gaps. -/
theorem isGap_eq_false {c : Char} (h : isBreakChar c = true) : isGap c = false := by simp [isGap, h]

theorem blockCommentLength_bounds {s : List Char} (h : ['/', '*'].isPrefixOf s = true) :
    2 ≤ blockCommentLength s ∧ blockCommentLength s ≤ s.length := by
  have h2 := (List.isPrefixOf_iff_prefix.1 h).length_le
  have h2 : 2 ≤ s.length := h2
  unfold blockCommentLength
  split
  · rename_i n hn
    have := Literal.findFrom_le hn
    rw [List.length_drop] at this
    have : ("*/".toList).length = 2 := rfl
    omega
  · omega

/-- What trivia stands at the head of a text, and how long it is. -/
inductive Scanned (b : Bool) (s : List Char) (k : TriviaKind) (n : Nat) : Prop
  | lineBreak {c : Char} (head : s.head? = some c) (isBreak : isBreakChar c = true) (kind : k = .endOfLine)
      (length : n = breakLength s)
  | gap {c : Char} (head : s.head? = some c) (isGap : isGap c = true) (kind : k = .whitespace)
      (length : n = (s.takeWhile LayoutLint.isGap).length)
  | lineComment (opens : ['/', '/'].isPrefixOf s = true)
      (kind : k = commentKind ['/', '/', '/'] ['/', '/', '/', '/'] s) (length : n = lineLength s)
  | blockComment (opens : ['/', '*'].isPrefixOf s = true)
      (kind : k = commentKind ['/', '*', '*'] ['/', '*', '*', '/'] s) (length : n = blockCommentLength s)
  | directive (start : b = true) (head : s.head? = some '#') (kind : k = .structured) (length : n = lineLength s)

theorem head?_of_isPrefixOf_pair {c d : Char} {s : List Char} (h : [c, d].isPrefixOf s = true) : s.head? = some c := by
  cases s with
  | nil => cases h
  | cons x s =>
    rw [isPrefixOf_pair, Bool.and_eq_true, beq_iff_eq] at h
    rw [List.head?_cons, h.1]

/-- **What stands at the head of a text.** -/
theorem scan?_eq_some_iff {b : Bool} {s : List Char} {k : TriviaKind} {n : Nat} :
    Trivia.scan? b s = some (k, n) ↔ Scanned b s k n := by
  constructor
  · intro h
    cases s with
    | nil => cases h
    | cons c s =>
      cases hb : isBreakChar c with
      | true =>
        rw [scan?_break hb, Option.some.injEq, Prod.mk.injEq] at h
        exact .lineBreak rfl hb h.1.symm h.2.symm
      | false =>
        cases hg : isGap c with
        | true =>
          rw [scan?_gap hg, Option.some.injEq, Prod.mk.injEq] at h
          exact .gap rfl hg h.1.symm h.2.symm
        | false =>
          rw [scan?_of_not_blank hb hg] at h
          split at h
          · rename_i hline
            rw [Option.some.injEq, Prod.mk.injEq] at h
            exact .lineComment hline h.1.symm h.2.symm
          split at h
          · rename_i hblock
            rw [Option.some.injEq, Prod.mk.injEq] at h
            exact .blockComment hblock h.1.symm h.2.symm
          split at h
          · rename_i hdirective
            obtain ⟨hstart, hhash⟩ := Bool.and_eq_true_iff.1 hdirective
            rw [Option.some.injEq, Prod.mk.injEq] at h
            exact .directive hstart (by rw [List.head?_cons, beq_iff_eq.1 hhash]) h.1.symm h.2.symm
          · cases h
  · intro h
    cases h with
    | lineBreak head hb hk hn =>
      obtain ⟨s, rfl⟩ := List.head?_eq_some_iff.1 head
      rw [scan?_break hb, hk, hn]
    | gap head hg hk hn =>
      obtain ⟨s, rfl⟩ := List.head?_eq_some_iff.1 head
      rw [scan?_gap hg, hk, hn]
    | lineComment hp hk hn =>
      obtain ⟨s, rfl⟩ := List.head?_eq_some_iff.1 (head?_of_isPrefixOf_pair hp)
      rw [scan?_of_not_blank (by decide) (by decide), if_pos hp, hk, hn]
    | blockComment hp hk hn =>
      obtain ⟨s, rfl⟩ := List.head?_eq_some_iff.1 (head?_of_isPrefixOf_pair hp)
      have hline : ['/', '/'].isPrefixOf ('/' :: s) ≠ true := by
        rw [isPrefixOf_pair, Bool.and_eq_true] at hp
        rw [isPrefixOf_pair, beq_iff_eq.1 hp.2]
        decide
      rw [scan?_of_not_blank (by decide) (by decide), if_neg hline, if_pos hp, hk, hn]
    | directive hstart head hk hn =>
      obtain ⟨s, rfl⟩ := List.head?_eq_some_iff.1 head
      rw [scan?_of_not_blank (by decide) (by decide), if_neg (by simp [List.isPrefixOf]),
        if_neg (by simp [List.isPrefixOf]), if_pos (by rw [hstart]; rfl), hk, hn]

theorem lineLength_bounds {c : Char} {s : List Char} (head : s.head? = some c) (hc : isBreakChar c = false) :
    0 < lineLength s ∧ lineLength s ≤ s.length := by
  obtain ⟨s, rfl⟩ := List.head?_eq_some_iff.1 head
  refine ⟨?_, (List.takeWhile_prefix _).length_le⟩
  rw [lineLength, List.takeWhile_cons, if_pos (by rw [hc]; rfl)]
  exact Nat.succ_pos _

theorem breakLength_bounds {c : Char} {s : List Char} (head : s.head? = some c) (hc : isBreakChar c = true) :
    0 < breakLength s ∧ breakLength s ≤ s.length := by
  obtain ⟨s, rfl⟩ := List.head?_eq_some_iff.1 head
  unfold breakLength
  split <;> simp_all

/-- Trivia is not empty and does not reach past the end of the text. -/
theorem scan?_bounds {b : Bool} {s : List Char} {k : TriviaKind} {n : Nat} (h : Trivia.scan? b s = some (k, n)) :
    0 < n ∧ n ≤ s.length := by
  cases scan?_eq_some_iff.1 h with
  | lineBreak head hb _ hn => exact hn ▸ breakLength_bounds head hb
  | gap head hg _ hn =>
    obtain ⟨s, rfl⟩ := List.head?_eq_some_iff.1 head
    refine hn ▸ ⟨?_, (List.takeWhile_prefix _).length_le⟩
    rw [List.takeWhile_cons, if_pos hg]
    exact Nat.succ_pos _
  | lineComment hp _ hn => exact hn ▸ lineLength_bounds (head?_of_isPrefixOf_pair hp) (by decide)
  | blockComment hp _ hn =>
    have := blockCommentLength_bounds hp
    omega
  | directive _ head _ hn => exact hn ▸ lineLength_bounds head (by decide)

/-- The texts of line breaks. -/
def IsBreak (t : List Char) : Prop := t = ['\r'] ∨ t = ['\n'] ∨ t = ['\r', '\n']

theorem IsBreak.lineEnd (h : IsBreak t) : LineEnd t := by
  rcases h with rfl | rfl | rfl <;> exact lineEnd_cons.2 (by decide)

theorem IsBreak.ne_nil (h : IsBreak t) : t ≠ [] := by
  rcases h with rfl | rfl | rfl <;> simp

theorem IsBreak.all (h : IsBreak t) : ∀ c ∈ t, isBreakChar c = true := by
  rcases h with rfl | rfl | rfl <;> exact List.all_eq_true.1 (by decide)

/-- A line break is a whole one unless a CR meets its LF. -/
theorem breakLength_append {e r : List Char} (he : IsBreak e) (hr : e = ['\r'] → r.head? ≠ some '\n') :
    breakLength (e ++ r) = e.length := by
  rcases he with rfl | rfl | rfl
  · cases r with
    | nil => rfl
    | cons c r =>
      have hc : c ≠ '\n' := fun h => hr rfl (by rw [h]; rfl)
      simp [breakLength, hc, isBreakChar]
  · rfl
  · rfl

/-- A comment or a directive is neither a line break nor white space. -/
theorem commentKind_cases (doc noDoc s : List Char) :
    commentKind doc noDoc s = .comment ∨ commentKind doc noDoc s = .structured := by
  unfold commentKind
  split
  · exact .inr rfl
  · exact .inl rfl

/-- **A line break is all there is to its kind of trivia.** -/
theorem isBreak_of_scan? {b : Bool} {s : List Char} {n : Nat} (h : Trivia.scan? b s = some (.endOfLine, n)) :
    IsBreak (s.take n) := by
  cases scan?_eq_some_iff.1 h with
  | @lineBreak c head hb _ hn =>
    obtain ⟨s, rfl⟩ := List.head?_eq_some_iff.1 head
    rw [hn]
    have hc : c = '\r' ∨ c = '\n' := by simpa [isBreakChar] using hb
    rcases hc with rfl | rfl
    · cases s with
      | nil => exact .inl rfl
      | cons d s =>
        by_cases hd : d = '\n'
        · exact .inr (.inr (by rw [hd]; rfl))
        · exact .inl (by simp [breakLength, hd, isBreakChar])
    · exact .inr (.inl (by simp [breakLength, isBreakChar]))
  | gap _ _ hk => cases hk
  | lineComment _ hk => rcases commentKind_cases _ _ s with h | h <;> cases hk.trans h
  | blockComment _ hk => rcases commentKind_cases _ _ s with h | h <;> cases hk.trans h
  | directive _ _ hk => cases hk

theorem isGap_of_scan? {b : Bool} {s : List Char} {n : Nat} (h : Trivia.scan? b s = some (.whitespace, n)) :
    (∀ c ∈ s.take n, isGap c = true) ∧ ∀ c ∈ (s.drop n).head?, isGap c = false := by
  cases scan?_eq_some_iff.1 h with
  | lineBreak _ _ hk => cases hk
  | gap _ _ _ hn =>
    have hrun : ((s.take n ++ s.drop n).takeWhile isGap).length = (s.take n).length := by
      have hle := (List.takeWhile_prefix isGap (l := s)).length_le
      rw [List.take_append_drop, List.length_take]
      omega
    exact length_takeWhile_append.1 hrun
  | lineComment _ hk => rcases commentKind_cases _ _ s with h | h <;> cases hk.trans h
  | blockComment _ hk => rcases commentKind_cases _ _ s with h | h <;> cases hk.trans h
  | directive _ _ hk => cases hk

/-- Trivia that is not blank starts with a slash, or is a directive. -/
theorem head_of_scan? {b : Bool} {c : Char} {s : List Char} {k : TriviaKind} {n : Nat}
    (h : Trivia.scan? b (c :: s) = some (k, n)) :
    (k = .endOfLine ∧ isBreakChar c = true) ∨ (k = .whitespace ∧ isGap c = true) ∨
      ((k = .comment ∨ k = .structured) ∧ (c = '/' ∨ (b = true ∧ c = '#'))) := by
  cases scan?_eq_some_iff.1 h with
  | lineBreak head hb hk => exact .inl ⟨hk, Option.some.inj head ▸ hb⟩
  | gap head hg hk => exact .inr (.inl ⟨hk, Option.some.inj head ▸ hg⟩)
  | lineComment hp hk =>
    exact .inr (.inr ⟨hk ▸ commentKind_cases _ _ _, .inl (Option.some.inj (head?_of_isPrefixOf_pair hp))⟩)
  | blockComment hp hk =>
    exact .inr (.inr ⟨hk ▸ commentKind_cases _ _ _, .inl (Option.some.inj (head?_of_isPrefixOf_pair hp))⟩)
  | directive hb head hk => exact .inr (.inr ⟨.inr hk, .inr ⟨hb, Option.some.inj head⟩⟩)

/-! ### What follows -/

theorem head?_append_congr (ht : t ≠ []) : (t ++ r').head? = (t ++ r).head? := by
  obtain ⟨c, t, rfl⟩ := List.exists_cons_of_ne_nil ht
  rfl

/-- **Where no trivia stands, none stands when the text behind gives way to an alike one.** -/
theorem scan?_none_append {b b' : Bool} (hb : b' = true → b = true) (h : Alike r r') (ht : t ≠ [])
    (hs : Trivia.scan? b (t ++ r) = none) : Trivia.scan? b' (t ++ r') = none := by
  have hno : ∀ {k n}, ¬ Scanned b (t ++ r) k n := fun hscanned => by
    rw [scan?_eq_some_iff.2 hscanned] at hs
    cases hs
  have hhead : (t ++ r').head? = (t ++ r).head? := head?_append_congr ht
  have hpair : ∀ d, ((t.tail ++ r').head? = some d → (t.tail ++ r).head? = some d) →
      ['/', d].isPrefixOf (t ++ r') = true → ['/', d].isPrefixOf (t ++ r) = true := by
    intro d hd hp
    obtain ⟨c, t, rfl⟩ := List.exists_cons_of_ne_nil ht
    rw [List.cons_append, isPrefixOf_pair, Bool.and_eq_true, beq_iff_eq, beq_iff_eq] at hp ⊢
    exact ⟨hp.1, hd hp.2⟩
  refine Option.eq_none_iff_forall_ne_some.2 fun ⟨k, n⟩ hscan => ?_
  cases scan?_eq_some_iff.1 hscan with
  | lineBreak head hc => exact hno (.lineBreak (hhead ▸ head) hc rfl rfl)
  | gap head hg => exact hno (.gap (hhead ▸ head) hg rfl rfl)
  | lineComment hp => exact hno (.lineComment (hpair '/' (h.append t.tail).head_slash hp) rfl rfl)
  | blockComment hp =>
    exact hno (.blockComment (hpair '*' ((h.append t.tail).head_eq_iff (by decide)).2 hp) rfl rfl)
  | directive hstart head => exact hno (.directive (hb hstart) (hhead ▸ head) rfl rfl)

/-- A piece of trivia is as long as the line. -/
theorem lineLength_append (h : lineLength (t ++ r) = t.length) (hr' : LineEnd r') :
    LineEnd r ∧ lineLength (t ++ r') = t.length := by
  obtain ⟨ht, hr⟩ := length_takeWhile_append.1 h
  exact ⟨fun c hc => by simpa using hr c hc,
    length_takeWhile_append.2 ⟨ht, fun c hc => by simpa using hr' c hc⟩⟩

theorem blockCommentLength_append (h : blockCommentLength (t ++ r) = t.length) (hr : r ≠ []) (h2 : 2 ≤ t.length) :
    4 ≤ t.length ∧ blockCommentLength (t ++ r') = t.length := by
  unfold blockCommentLength at h ⊢
  cases hn : find? "*/".toList ((t ++ r).drop 2) with
  | none =>
    rw [hn, List.length_append] at h
    have := List.length_pos_iff.2 hr
    simp only at h
    omega
  | some n =>
    rw [hn] at h
    simp only at h
    rw [List.drop_append_of_le_length h2] at hn
    have hlen : ("*/".toList).length = 2 := rfl
    have := Literal.findFrom_append (t.drop 2) hn (by rw [List.length_drop]; omega) r'
    rw [List.drop_append_of_le_length h2, show find? "*/".toList (t.drop 2 ++ r') = some n from this]
    exact ⟨by omega, h⟩

/-- What may take the place of the text behind a piece of trivia: a text with the same head, or the end of the line,
unless a CR would then meet its LF. -/
def Follows (t r r' : List Char) : Prop :=
  r'.head? = r.head? ∨ (LineEnd r' ∧ r ≠ [] ∧ (t = ['\r'] → r'.head? ≠ some '\n'))

theorem Follows.lineEnd (h : Follows t r r') (hr : LineEnd r) : LineEnd r' := by
  rcases h with h | h
  · intro c hc
    exact hr c (h ▸ hc)
  · exact h.1

theorem isPrefixOf_of_length {p : List Char} (h : p.length ≤ t.length) : p.isPrefixOf (t ++ r) = p.isPrefixOf t :=
  Literal.isPrefixOf_append h

/-- **Trivia that still ends does not see what follows.** -/
theorem scan?_append {b : Bool} {k : TriviaKind} (h : Follows t r r') (ht : t ≠ [])
    (hs : Trivia.scan? b (t ++ r) = some (k, t.length)) : Trivia.scan? b (t ++ r') = some (k, t.length) := by
  by_cases hr : r = []
  · rcases h with h | h
    · rw [hr, List.head?_nil, List.head?_eq_none_iff] at h
      rw [h, ← hr, hs]
    · exact absurd hr h.2.1
  have hhead : (t ++ r').head? = (t ++ r).head? := head?_append_congr ht
  rw [scan?_eq_some_iff] at hs ⊢
  cases hs with
  | lineBreak head hc hk hn =>
    have hbreak := isBreak_of_scan? (scan?_eq_some_iff.2 (.lineBreak (b := b) head hc rfl rfl))
    rw [← hn, List.take_left] at hbreak
    refine .lineBreak (hhead.trans head) hc hk (breakLength_append hbreak fun hcr => ?_).symm
    rcases h with h | h
    · rw [h]
      intro hlf
      rw [hcr] at hn
      cases r <;> simp_all [breakLength]
    · exact h.2.2 hcr
  | gap head hg hk hn =>
    obtain ⟨hall, hend⟩ := length_takeWhile_append.1 hn.symm
    refine .gap (hhead.trans head) hg hk (length_takeWhile_append.2 ⟨hall, ?_⟩).symm
    rcases h with h | h
    · rwa [h]
    · exact fun d hd => isGap_eq_false (h.1 d hd)
  | lineComment hp hk hn =>
    have hend := (lineLength_append hn.symm lineEnd_nil).1
    have key : ∀ p : List Char, Avoids isBreakChar p → p.isPrefixOf (t ++ r') = p.isPrefixOf (t ++ r) := by
      intro p hp
      rw [isPrefixOf_append_lineEnd hp (h.lineEnd hend), isPrefixOf_append_lineEnd hp hend]
    refine .lineComment (by rwa [key _ (by decide)]) ?_ (lineLength_append hn.symm (h.lineEnd hend)).2.symm
    rw [hk, commentKind_congr (key _ (by decide)) (key _ (by decide))]
  | blockComment hp hk hn =>
    obtain ⟨h4, hn'⟩ : 4 ≤ t.length ∧ blockCommentLength (t ++ r') = t.length :=
      blockCommentLength_append hn.symm hr (hn ▸ (blockCommentLength_bounds hp).1)
    have key : ∀ p : List Char, p.length ≤ 4 → p.isPrefixOf (t ++ r') = p.isPrefixOf (t ++ r) := by
      intro p hp
      rw [isPrefixOf_of_length (by omega), isPrefixOf_of_length (by omega)]
    refine .blockComment (by rwa [key _ (by decide)]) ?_ hn'.symm
    rw [hk, commentKind_congr (key _ (by decide)) (key _ (by decide))]
  | directive hb head hk hn =>
    have hend := (lineLength_append hn.symm lineEnd_nil).1
    exact .directive hb (hhead.trans head) hk (lineLength_append hn.symm (h.lineEnd hend)).2.symm

/-! ### A line break put at the end of the text -/

/-- A block comment that nothing closes. -/
def Unclosed (t : List Char) : Prop := ['/', '*'].isPrefixOf t = true ∧ find? "*/".toList (t.drop 2) = none

/-- A block comment at the end of a text reaches at least as far when a line break is put there, and no further if it
is closed. -/
theorem blockCommentLength_append_break (e : List Char) (hp : ['/', '*'].isPrefixOf t = true)
    (hn : blockCommentLength t = t.length) :
    t.length ≤ blockCommentLength (t ++ e) ∧ (¬ Unclosed t → blockCommentLength (t ++ e) = t.length) := by
  have hlen : ("*/".toList).length = 2 := rfl
  have h2 : 2 ≤ t.length := hn ▸ (blockCommentLength_bounds hp).1
  have hdrop : (t ++ e).drop 2 = t.drop 2 ++ e := List.drop_append_of_le_length h2
  cases hfind : find? "*/".toList (t.drop 2) with
  | none =>
    refine ⟨?_, fun h => absurd ⟨hp, hfind⟩ h⟩
    cases hfind' : find? "*/".toList ((t ++ e).drop 2) with
    | none =>
      simp only [blockCommentLength, hfind', List.length_append]
      omega
    | some n =>
      simp only [blockCommentLength, hfind']
      refine Nat.le_of_not_lt fun hlt => ?_
      -- What closes the comment would stand inside of it.
      rw [hdrop] at hfind'
      have hinside := Literal.findFrom_append (t.drop 2) hfind' (by rw [List.length_drop]; omega) []
      rw [List.append_nil, show findFrom 0 "*/".toList (t.drop 2) = none from hfind] at hinside
      cases hinside
  | some n =>
    have hle := Literal.findFrom_le hfind
    rw [List.length_drop] at hle
    have hfind' := Literal.findFrom_append (y := []) (t.drop 2) (by rwa [List.append_nil])
      (by rw [List.length_drop]; omega) e
    rw [← hdrop] at hfind'
    have hn' : blockCommentLength (t ++ e) = n + 4 := by
      rw [blockCommentLength, show find? "*/".toList ((t ++ e).drop 2) = some n from hfind']
    rw [blockCommentLength, hfind] at hn
    rw [hn']
    exact ⟨Nat.le_of_eq hn.symm, fun _ => hn⟩

/-- **Of the trivia at the end of a text, only a block comment that nothing closes grows when a line break is put
there**, and a CR that an LF joins. -/
theorem scan?_append_break {b : Bool} {k : TriviaKind} (he : LineEnd e) (ht : t ≠ []) (hk : k ≠ .endOfLine)
    (hs : Trivia.scan? b t = some (k, t.length)) :
    ∃ m, Trivia.scan? b (t ++ e) = some (k, m) ∧ t.length ≤ m ∧ (¬ Unclosed t → m = t.length) := by
  have hhead : (t ++ e).head? = t.head? := by
    obtain ⟨c, t, rfl⟩ := List.exists_cons_of_ne_nil ht
    rfl
  have key : ∀ p : List Char, Avoids isBreakChar p → p.isPrefixOf (t ++ e) = p.isPrefixOf t := fun p hp =>
    isPrefixOf_append_lineEnd hp he _
  have hline : lineLength t = t.length → lineLength (t ++ e) = t.length := fun h =>
    (lineLength_append (r := []) (by rwa [List.append_nil]) he).2
  have hsame : Scanned b (t ++ e) k t.length →
      ∃ m, Trivia.scan? b (t ++ e) = some (k, m) ∧ t.length ≤ m ∧ (¬ Unclosed t → m = t.length) := fun h =>
    ⟨_, scan?_eq_some_iff.2 h, Nat.le_refl _, fun _ => rfl⟩
  cases scan?_eq_some_iff.1 hs with
  | lineBreak _ _ hkind => exact absurd hkind hk
  | gap head hg hkind hn =>
    obtain ⟨hall, -⟩ := (length_takeWhile_append (r := [])).1 (by rw [List.append_nil, ← hn])
    exact hsame (.gap (hhead.trans head) hg hkind
      (length_takeWhile_append.2 ⟨hall, fun d hd => isGap_eq_false (he d hd)⟩).symm)
  | lineComment hp hkind hn =>
    refine hsame (.lineComment (by rwa [key _ (by decide)]) ?_ (hline hn.symm).symm)
    rw [hkind, commentKind_congr (key _ (by decide)) (key _ (by decide))]
  | blockComment hp hkind hn =>
    obtain ⟨hle, hclosed⟩ := blockCommentLength_append_break e hp hn.symm
    refine ⟨_, scan?_eq_some_iff.2 (.blockComment (by rwa [key _ (by decide)]) ?_ rfl), hle, hclosed⟩
    rw [hkind, commentKind_congr (key _ (by decide)) (key _ (by decide))]
  | directive hb head hkind hn => exact hsame (.directive hb (hhead.trans head) hkind (hline hn.symm).symm)

end LayoutLint
