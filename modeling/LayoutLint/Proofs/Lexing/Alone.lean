import LayoutLint.Proofs.Layout.Programs
import LayoutLint.Proofs.Lexing.Escapes
/-!
# Alone — a token read by itself

A token is told by its own characters. A scan that ends inside a text looks past its end only to see that nothing goes
on there, so the front of a text that it takes is taken as well when nothing follows (`Literal.stringLength?_front`,
`scan_front`). The text of a token is therefore read as that one token again (`Document.alone_of_ofSource`); only a `#`
is not, which stands for a directive where a line starts.
-/
namespace LayoutLint

namespace Literal

open Text (find? findFrom)

variable {r : List Char}

/-! ### Character literals -/

/-- A character literal that ends inside a text is the same without what follows. -/
theorem charBodyLength_front : ∀ a : List Char, charBodyLength (a ++ r) ≤ a.length →
    charBodyLength a = charBodyLength (a ++ r)
  | [], hle => (Nat.le_zero.1 hle).symm
  | c :: a, hle => by
    by_cases hc : c = '\\'
    · subst hc
      cases a with
      | nil =>
        cases r with
        | nil => rfl
        | cons d r => simp [charBodyLength] at hle
      | cons d a =>
        simp only [List.cons_append, charBodyLength, List.length_cons] at hle ⊢
        rw [charBodyLength_front a (by omega)]
    · rw [List.cons_append, charBodyLength_cons hc, List.length_cons] at hle
      rw [List.cons_append, charBodyLength_cons hc, charBodyLength_cons hc]
      split
      · rfl
      · split
        · rfl
        · rename_i hq hb
          rw [if_neg hq, if_neg hb] at hle
          rw [charBodyLength_front a (by omega)]

/-! ### Strings -/

/-- A string that starts in the front of a text starts in the whole text. -/
theorem stringLength?_eq_none_front {a : List Char} (h : stringLength? (a ++ r) = none) : stringLength? a = none := by
  cases ha : stringLength? a with
  | none => rfl
  | some m =>
    obtain ⟨g, body, rfl, hg, hy, -⟩ := stringLength?_eq_some ha
    rw [List.append_assoc, List.cons_append, stringLength?_of_quote (by rw [hy, hg])] at h
    cases h

theorem suffixLength_front {x : List Char} (h : suffixLength (x ++ r) ≤ x.length) :
    suffixLength x = suffixLength (x ++ r) := by
  rcases Nat.lt_or_ge x.length 2 with hx | hx
  · have short : ∀ p : List Char, p.length = 2 → p.isPrefixOf x = false := by
      intro p hp
      rw [Bool.eq_false_iff]
      intro hpre
      have := (List.isPrefixOf_iff_prefix.1 hpre).length_le
      omega
    have hzero : suffixLength (x ++ r) = 0 := by
      unfold suffixLength at h ⊢
      split
      · rename_i hp
        rw [if_pos hp] at h
        omega
      · rfl
    rw [hzero, suffixLength, short _ rfl, short _ rfl]
    rfl
  · have same : ∀ p : List Char, p.length = 2 → p.isPrefixOf (x ++ r) = p.isPrefixOf x := fun p hp =>
      isPrefixOf_append (hp ▸ hx)
    rw [suffixLength, suffixLength, same _ rfl, same _ rfl]

theorem quoteRun_le_append (x r : List Char) : quoteRun x ≤ quoteRun (x ++ r) := by
  unfold quoteRun
  rw [List.takeWhile_append]
  split
  · rw [List.length_append]
    omega
  · exact Nat.le_refl _

/-- The quotes that open a raw string in the front of a text are all in the front, for as many close it. -/
theorem quoteRun_front (hr : r ≠ []) {x : List Char}
    (hle : rawLength (quoteRun (x ++ r)) (x ++ r) ≤ x.length) : quoteRun x = quoteRun (x ++ r) := by
  have hmin := min_quoteRun_append_le x r
  have hpre := quoteRun_le_append x r
  have hraw := le_rawLength (quoteRun (x ++ r)) (x ++ r)
  have hlen : 0 < r.length := List.length_pos_iff.2 hr
  rw [List.length_append] at hraw
  omega

theorem unsuffixedLength_front (hr : r ≠ []) {before : Sigils} {b : List Char}
    (body : ∀ v i d n, stringBodyEnd v i d n (b ++ r) ≤ n + b.length →
      stringBodyEnd v i d n b = stringBodyEnd v i d n (b ++ r))
    (hle : unsuffixedLength before (b ++ r) ≤ before.length + 1 + b.length) :
    unsuffixedLength before b = unsuffixedLength before (b ++ r) := by
  unfold unsuffixedLength at hle ⊢
  rw [← List.cons_append] at hle ⊢
  by_cases h3 : 3 ≤ quoteRun ('"' :: b ++ r)
  · rw [if_pos h3] at hle
    have hraw : rawLength (quoteRun ('"' :: b ++ r)) ('"' :: b ++ r) ≤ ('"' :: b).length := by
      rw [List.length_cons]
      omega
    have hsame : rawLength _ ('"' :: b ++ []) = _ := rawLength_append hr hraw
    rw [List.append_nil] at hsame
    rw [quoteRun_front hr hraw, if_pos h3, if_pos h3, hsame]
  · have hpre := quoteRun_le_append ('"' :: b) r
    rw [if_neg h3] at hle
    rw [if_neg h3, if_neg (by omega)]
    exact body _ _ _ _ (by omega)

/-- A step that ends inside a text is the same without what follows. -/
theorem bodyStep_front (hr : r ≠ []) {v i : Bool} {n : Nat} {c : Char} {a : List Char}
    (string : ∀ m, stringLength? (c :: a ++ r) = some m → m ≤ (c :: a).length → stringLength? (c :: a) = some m)
    (hle : (bodyStep v i n c (a ++ r)).1 ≤ a.length + 1) : bodyStep v i n c a = bodyStep v i n c (a ++ r) := by
  unfold bodyStep at hle ⊢
  by_cases hn : n = 0
  · subst hn
    cases a with
    | cons d a => rfl
    | nil =>
      -- What would be looked at behind the front would be read as well.
      have hne : r.isEmpty = false := by simp [hr]
      simp only [if_true, List.nil_append, List.length_nil, hne] at hle ⊢
      by_cases hq : (c == '"') = true
      · simp only [hq, if_true] at hle ⊢
        split at hle
        · simp at hle
        · rename_i hv
          rw [if_neg hv, if_neg (by simp)]
      · by_cases hb : (c == '\\' && !v) = true
        · simp [hq, hb] at hle
        · by_cases hk : (isBreakChar c && !v) = true
          · simp only [hq, hb, hk, if_true, if_false, Bool.false_eq_true]
          · by_cases ho : (c == '{' && i) = true
            · simp only [hq, hb, hk, ho, if_true, if_false, Bool.false_eq_true] at hle ⊢
              split at hle
              · simp at hle
              · rename_i hd
                rw [if_neg hd, if_neg (by simp)]
            · simp only [hq, hb, hk, ho, if_false, Bool.false_eq_true]
  · by_cases ho : (c == '{') = true
    · simp only [hn, ho, if_true, if_false]
    · by_cases hd : (c == '}') = true
      · simp only [hn, ho, hd, if_true, if_false, Bool.false_eq_true]
      · by_cases hc : (c == '\'') = true
        · simp only [hn, ho, hd, hc, if_false, if_true, Bool.false_eq_true] at hle ⊢
          rw [charBodyLength_front (r := r) a (by omega)]
        · by_cases hs : (c == '"' || c == '$' || c == '@') = true
          · simp only [hn, ho, hd, hc, hs, if_true, if_false, Bool.false_eq_true] at hle ⊢
            cases hm : stringLength? (c :: (a ++ r)) with
            | none => rw [stringLength?_eq_none_front (a := c :: a) hm]
            | some m =>
              rw [hm, Option.getD_some] at hle
              rw [string m hm (by simpa using hle)]
          · simp only [hn, ho, hd, hc, hs, if_false, Bool.false_eq_true]

/-- A string that ends inside a text is the same without what follows. -/
theorem string_front (hr : r ≠ []) :
    (∀ a v i d n, stringBodyEnd v i d n (a ++ r) ≤ n + a.length →
      stringBodyEnd v i d n a = stringBodyEnd v i d n (a ++ r)) ∧
    ∀ a m, stringLength? (a ++ r) = some m → m ≤ a.length → stringLength? a = some m := by
  refine string_induction ?string ?nil ?cons
  case string =>
    intro a body m hm hle
    obtain ⟨g, b', hs, hg, hy, hu⟩ := stringLength?_eq_some hm
    have hgm : g.length < a.length := by
      have := lt_unsuffixedLength (sigils ⟨0, false, false⟩ (a ++ r)) b'
      omega
    obtain ⟨b, rfl, rfl⟩ := quote_inside hs hgm
    generalize hσ : sigils ⟨0, false, false⟩ (g ++ '"' :: b ++ r) = before at hg hy hu
    have hle' : unsuffixedLength before (b ++ r) ≤ (g ++ '"' :: b).length :=
      Nat.le_trans (Nat.le_add_right _ _) (hu ▸ hle)
    have hu' : unsuffixedLength before b = unsuffixedLength before (b ++ r) := by
      rw [List.length_append, List.length_cons] at hle'
      exact unsuffixedLength_front hr (body b (by rw [List.length_append, List.length_cons]; omega)) (by omega)
    rw [hu, List.drop_append_of_le_length hle'] at hle
    have hsuf : suffixLength ((g ++ '"' :: b).drop (unsuffixedLength before (b ++ r))) =
        suffixLength ((g ++ '"' :: b).drop (unsuffixedLength before (b ++ r)) ++ r) :=
      suffixLength_front (by rw [List.length_drop]; omega)
    rw [stringLength?_of_quote (by rw [hy, hg]), hy, hu', hsuf, hu, List.drop_append_of_le_length hle']
  case nil =>
    intro v i d n hle
    rw [stringBodyEnd_nil]
    exact Nat.le_antisymm (le_stringBodyEnd _ _ _ _ _) hle
  case cons =>
    intro c a string body v i d n hle
    have hb := bodyStep_bounds (v := v) (i := i) (h := d) (c := c) (s := a ++ r) fun m hm => stringLength?_bounds hm
    rw [List.length_cons] at hle
    rw [List.cons_append] at hle ⊢
    cases ho : (bodyStep v i d c (a ++ r)).2 with
    | none =>
      rw [stringBodyEnd_stop ho] at hle ⊢
      have hk := bodyStep_front hr (v := v) (i := i) (n := d) string (by omega)
      rw [stringBodyEnd_stop (by rw [hk, ho]), hk]
    | some d' =>
      rw [stringBodyEnd_step ho] at hle ⊢
      rw [ho, Option.isSome_some] at hb
      have hpos := hb.2 rfl
      have hge := le_stringBodyEnd v i d' (n + (bodyStep v i d c (a ++ r)).1)
        ((a ++ r).drop ((bodyStep v i d c (a ++ r)).1 - 1))
      have hk := bodyStep_front hr (v := v) (i := i) (n := d) string (by omega)
      have hread : (bodyStep v i d c (a ++ r)).1 - 1 ≤ a.length := by omega
      rw [List.drop_append_of_le_length hread] at hle
      rw [stringBodyEnd_step (by rw [hk, ho]), hk, List.drop_append_of_le_length hread]
      exact body (a.drop _) (by rw [List.length_drop]; omega) v i d' _ (by rw [List.length_drop]; omega)

/-- **A string that ends inside a text is the same without what follows.** -/
theorem stringLength?_front {a : List Char} {m : Nat} (hm : stringLength? (a ++ r) = some m) (hle : m ≤ a.length) :
    stringLength? a = some m := by
  by_cases hr : r = []
  · rwa [hr, List.append_nil] at hm
  · exact (string_front hr).2 a m hm hle

end Literal

variable {t r : List Char}

/-! ### Words, numbers and punctuators -/

theorem wordLength_front (h : wordLength (t ++ r) = t.length) : wordLength t = t.length := by
  have := (length_takeWhile_append (r := [])).2 ⟨(length_takeWhile_append.1 h).1, by simp⟩
  rwa [List.append_nil] at this

theorem wordLength_pos {s : List Char} (h : s.head?.any isWordStart = true) : 0 < wordLength s := by
  cases s with
  | nil => cases h
  | cons c s =>
    rw [wordLength, List.takeWhile_cons, if_pos (isWordPart_of_isWordStart h)]
    exact Nat.succ_pos _

/-- A number goes on with any digit. -/
theorem numberTailLength_pos (hex : Bool) (last : Char) {s : List Char} (h : s.head?.any Char.isDigit = true) :
    0 < numberTailLength hex last s := by
  cases s with
  | nil => cases h
  | cons c s =>
    have hd : c.isDigit = true := h
    rw [numberTailLength, if_pos (by rw [Char.isAlphanum, hd, Bool.or_true, Bool.true_or])]
    exact Nat.succ_pos _

theorem numberTailLength_front {hex : Bool} : ∀ {t : List Char} {last : Char},
    numberTailLength hex last (t ++ r) = t.length → numberTailLength hex last t = t.length
  | [], _, _ => rfl
  | c :: t, last, h => by
    rw [List.cons_append, numberTailLength, List.length_cons] at h
    rw [numberTailLength, List.length_cons]
    split at h
    · rename_i hc
      rw [if_pos hc, numberTailLength_front (Nat.succ.inj h)]
    · rename_i hc
      rw [if_neg hc]
      split at h
      · rename_i hd
        have hlen := Nat.succ.inj h
        have hne : t ≠ [] := by
          rintro rfl
          have := numberTailLength_pos hex c (Bool.and_eq_true_iff.1 hd).2
          rw [hlen] at this
          exact absurd this (Nat.lt_irrefl 0)
        obtain ⟨d, t, rfl⟩ := List.exists_cons_of_ne_nil hne
        rw [if_pos (show (c == '.' && (d :: t).head?.any Char.isDigit) = true from hd), numberTailLength_front hlen]
      · rename_i hd
        split at h
        · rename_i hsign
          have hpoint : ¬ (c == '.' && t.head?.any Char.isDigit) = true := by
            intro hp
            rw [beq_iff_eq.1 (Bool.and_eq_true_iff.1 hp).1] at hsign
            simp at hsign
          rw [if_neg hpoint, if_pos hsign, numberTailLength_front (Nat.succ.inj h)]
        · cases h

/-- The mark of a hexadecimal number belongs to the number. -/
theorem numberTailLength_of_hexMark {p : List Char} (hp : p = "0x".toList ∨ p = "0X".toList) {s : List Char}
    (h : p.isPrefixOf s = true) (hex : Bool) (last : Char) : 2 ≤ numberTailLength hex last s := by
  obtain ⟨u, rfl⟩ := List.isPrefixOf_iff_prefix.1 h
  rcases hp with rfl | rfl <;> simp [numberTailLength, Char.isAlphanum]

/-- A point in front of a digit belongs to the number, and the digit too. -/
theorem two_le_numberLength {c : Char} {s : List Char} (h : (c == '.' && s.head?.any Char.isDigit) = true) :
    2 ≤ numberLength (c :: s) := by
  rw [numberLength, numberTailLength]
  generalize ("0x".toList.isPrefixOf (c :: s) || "0X".toList.isPrefixOf (c :: s)) = hex
  have hpos := numberTailLength_pos hex c (Bool.and_eq_true_iff.1 h).2
  split
  · omega
  · omega

theorem numberLength_front (h : numberLength (t ++ r) = t.length) : numberLength t = t.length := by
  have hmark : ∀ p : List Char, p = "0x".toList ∨ p = "0X".toList → p.isPrefixOf t = p.isPrefixOf (t ++ r) := by
    intro p hp
    rcases Nat.lt_or_ge t.length 2 with ht | ht
    · have hno : p.isPrefixOf (t ++ r) = false := by
        rw [Bool.eq_false_iff]
        intro hpre
        have := numberTailLength_of_hexMark hp hpre
          ("0x".toList.isPrefixOf (t ++ r) || "0X".toList.isPrefixOf (t ++ r)) ' '
        rw [numberLength] at h
        omega
      rw [hno, Bool.eq_false_iff]
      intro hpre
      rw [List.isPrefixOf_iff_prefix.2 ((List.isPrefixOf_iff_prefix.1 hpre).trans (List.prefix_append t r))] at hno
      cases hno
    · refine (Literal.isPrefixOf_append ?_).symm
      rcases hp with rfl | rfl <;> exact ht
  rw [numberLength] at h ⊢
  rw [hmark _ (.inl rfl), hmark _ (.inr rfl)]
  exact numberTailLength_front h

/-- The first punctuator that fits is the one that fits when nothing follows. -/
theorem punctuatorLength_front (h : punctuatorLength (t ++ r) = t.length) : punctuatorLength t = t.length := by
  have hpre : ∀ p : String, p.toList.isPrefixOf t = true → p.toList.isPrefixOf (t ++ r) = true := fun p hp =>
    List.isPrefixOf_iff_prefix.2 ((List.isPrefixOf_iff_prefix.1 hp).trans (List.prefix_append t r))
  unfold punctuatorLength at h ⊢
  cases hf : punctuators.find? (fun p => p.toList.isPrefixOf (t ++ r)) with
  | none =>
    rw [hf] at h
    rw [List.find?_eq_none.2 fun p hp hpt => List.find?_eq_none.1 hf p hp (hpre p hpt), h]
  | some p =>
    rw [hf] at h
    obtain ⟨hfit, before, after, hsplit, hbefore⟩ := List.find?_eq_some_iff_append.1 hf
    have hpt : p.toList.isPrefixOf t = true := by
      rw [← Literal.isPrefixOf_append (y := r) (by rw [String.length_toList]; exact Nat.le_of_eq h)]
      exact hfit
    have hfirst : punctuators.find? (fun p => p.toList.isPrefixOf t) = some p := by
      refine List.find?_eq_some_iff_append.2 ⟨hpt, before, after, hsplit, fun q hq => ?_⟩
      rw [Bool.not_eq_true', Bool.eq_false_iff]
      intro hqt
      have := hbefore q hq
      rw [hpre q hqt] at this
      cases this
    rw [hfirst]
    exact h

/-! ### The token at the head of a text -/

/-- A test of the character behind the first one is the same without what follows, if it passes inside the text only. -/
theorem head?_any_front {c x : Char} {p : Char → Bool} (h : (c == x && (t ++ r).head?.any p) = true → t ≠ []) :
    (c == x && t.head?.any p) = (c == x && (t ++ r).head?.any p) := by
  cases t with
  | cons d t => rfl
  | nil =>
    cases hr : (c == x && ([] ++ r).head?.any p) with
    | false => exact Bool.and_false _
    | true => exact absurd rfl (h hr)

/-- **A token that ends inside a text is the same without what follows.** -/
theorem scan_front {k : TokenKind} (ht : t ≠ []) (hs : Token.scan (t ++ r) = (k, t.length)) :
    Token.scan t = (k, t.length) := by
  cases hm : Literal.stringLength? (t ++ r) with
  | some m =>
    rw [scan_of_string hm, Prod.mk.injEq] at hs
    obtain ⟨rfl, rfl⟩ := hs
    exact scan_of_string (Literal.stringLength?_front hm (Nat.le_refl _))
  | none =>
    have hm' := Literal.stringLength?_eq_none_front hm
    obtain ⟨c, t, rfl⟩ := List.exists_cons_of_ne_nil ht
    rw [List.cons_append] at hm hs
    rw [scan_cons hm, List.length_cons] at hs
    rw [scan_cons hm', List.length_cons]
    by_cases hq : (c == '\'') = true
    · rw [if_pos hq, Prod.mk.injEq] at hs
      obtain ⟨rfl, hs⟩ := hs
      rw [if_pos hq, Literal.charBodyLength_front (r := r) t (by omega), ← hs]
    rw [if_neg hq] at hs ⊢
    have hat : (c == '@' && t.head?.any isWordStart) = (c == '@' && (t ++ r).head?.any isWordStart) := by
      refine head?_any_front fun h hnil => ?_
      have hpos := wordLength_pos (Bool.and_eq_true_iff.1 h).2
      rw [if_pos h, Prod.mk.injEq, hnil, List.length_nil] at hs
      rw [hnil] at hpos
      omega
    rw [hat]
    by_cases ha : (c == '@' && (t ++ r).head?.any isWordStart) = true
    · rw [if_pos ha, Prod.mk.injEq] at hs
      obtain ⟨rfl, hs⟩ := hs
      rw [if_pos ha, wordLength_front (Nat.succ.inj hs)]
    rw [if_neg ha] at hs ⊢
    by_cases hw : isWordStart c = true
    · rw [if_pos hw, Prod.mk.injEq] at hs
      obtain ⟨hk, hs⟩ := hs
      rw [hs, List.take_succ_cons, List.take_left] at hk
      have hlen := wordLength_front (t := c :: t) hs
      rw [if_pos hw, hlen, List.take_length, hk, List.length_cons]
    rw [if_neg hw] at hs ⊢
    have hpoint : (c == '.' && t.head?.any Char.isDigit) = (c == '.' && (t ++ r).head?.any Char.isDigit) := by
      refine head?_any_front fun h hnil => ?_
      have hlen := two_le_numberLength h
      rw [h, Bool.or_true, if_pos rfl, Prod.mk.injEq, hnil, List.length_nil] at hs
      rw [hnil] at hlen
      omega
    rw [hpoint]
    by_cases hd : (c.isDigit || (c == '.' && (t ++ r).head?.any Char.isDigit)) = true
    · rw [if_pos hd, Prod.mk.injEq] at hs
      obtain ⟨rfl, hs⟩ := hs
      rw [if_pos hd, numberLength_front (t := c :: t) hs, List.length_cons]
    · rw [if_neg hd, Prod.mk.injEq] at hs
      obtain ⟨rfl, hs⟩ := hs
      rw [if_neg hd, punctuatorLength_front (t := c :: t) hs, List.length_cons]

theorem scan_hash (s : List Char) : Token.scan ('#' :: s) = (.punctuation, 1) :=
  scan_single (by decide) (by decide) (by decide) (by decide) (by decide) (by decide) (by decide) (by decide) s

/-- No trivia stands in the front of a text that starts with none, unless a directive may stand there. -/
theorem scan?_none_front {b : Bool} (hhash : t.head? ≠ some '#') (h : Trivia.scan? b (t ++ r) = none) :
    Trivia.scan? true t = none := by
  have hno : ∀ {k n}, ¬ Scanned b (t ++ r) k n := fun hscanned => by
    rw [scan?_eq_some_iff.2 hscanned] at h
    cases h
  have hhead : ∀ {c}, t.head? = some c → (t ++ r).head? = some c := fun head => by
    obtain ⟨u, rfl⟩ := List.head?_eq_some_iff.1 head
    rfl
  have hfront : ∀ {p : List Char}, p.isPrefixOf t = true → p.isPrefixOf (t ++ r) = true := fun hp =>
    List.isPrefixOf_iff_prefix.2 ((List.isPrefixOf_iff_prefix.1 hp).trans (List.prefix_append t r))
  refine Option.eq_none_iff_forall_ne_some.2 fun ⟨k, n⟩ hscan => ?_
  cases scan?_eq_some_iff.1 hscan with
  | lineBreak head hc => exact hno (.lineBreak (hhead head) hc rfl rfl)
  | gap head hg => exact hno (.gap (hhead head) hg rfl rfl)
  | lineComment hp => exact hno (.lineComment (hfront hp) rfl rfl)
  | blockComment hp => exact hno (.blockComment (hfront hp) rfl rfl)
  | directive _ head => exact hhash head

/-! ### A text of one token -/

open Piece (Reads charsOf)

/-- Tokens without words and without trivia are the end of the text alone. -/
theorem Attached.eq_endOfFile {ts : List Token} (h : Attached ts) (hnil : Token.partsOf ts = []) :
    ts = [Token.endOfFile] := by
  cases h with
  | last before =>
    have hbefore : before = [] := by simpa [Token.parts, Token.own, Token.endOfFile] using hnil
    rw [hbefore]
    rfl
  | cons kind text present line h => simp [Token.parts, Token.own, text] at hnil

/-- Tokens that are one word and nothing else are that word and the end of the text. -/
theorem Attached.eq_word {ts : List Token} (h : Attached ts) {k : TokenKind} {w : String}
    (hword : Token.partsOf ts = [.word k w]) : ts = [{ kind := k, text := w }, .endOfFile] := by
  cases h with
  | last before => simp [Token.parts, Token.own, Token.endOfFile, List.map_eq_singleton_iff] at hword
  | @cons t next rest kind text present line h =>
    obtain ⟨k', w', leading, trailing, missing⟩ := t
    obtain rfl : missing = false := present
    rw [Token.partsOf_cons, Token.parts, Token.own, if_neg (by rw [String.isEmpty_iff]; exact text)] at hword
    cases leading with
    | cons x xs => simp at hword
    | nil =>
      cases trailing with
      | cons x xs => simp at hword
      | nil =>
        simp only [List.map_nil, List.nil_append, List.append_nil, List.singleton_append, List.cons.injEq,
          Piece.word.injEq] at hword
        obtain ⟨⟨rfl, rfl⟩, hrest⟩ := hword
        rw [h.eq_endOfFile hrest]

/-- A text that is one word is read as that word, without trivia. -/
theorem tokensOf_word {k : TokenKind} {w : String} (hw : w ≠ "") (h : (Piece.word k w).Heads true []) :
    tokensOf w = #[{ kind := k, text := w }, .endOfFile] := by
  obtain ⟨hreads, hchars, hatt⟩ := reads_tokensOf w
  have hword : Reads true [.word k w] := ⟨fun hnil => hw (String.toList_eq_nil_iff.1 hnil), h, trivial⟩
  have hsame := hreads.unique hword (by rw [hchars]; simp [Piece.chars, Piece.text])
  exact Array.toList_inj.1 (hatt.eq_word hsame)

namespace Document

variable {d : Document}

/-- **The text of a token is read as that one token**, without trivia, unless it is a `#`. -/
theorem alone_of_ofSource {s : String} (h : ofSource s = .ok d) {i : Nat} (hi : i < d.endOfFile)
    (hhash : (d.token i).text ≠ "#") :
    ∃ e, ofSource (d.token i).text = .ok e ∧
      e.tokens = #[{ kind := (d.token i).kind, text := (d.token i).text }, .endOfFile] := by
  obtain ⟨hd, -⟩ := parsed_of_ofSource h
  have hs := d.size_eq
  have hne : (d.token i).text ≠ "" := hd.proper.word i hi
  have hne' : (d.token i).text.toList ≠ [] := fun hnil => hne (String.toList_eq_nil_iff.1 hnil)
  obtain ⟨b, r, hnone, hscan⟩ := hd.word_heads hi
  have hnone : Trivia.scan? b ((d.token i).text.toList ++ r) = none := hnone
  have hscan : Token.scan ((d.token i).text.toList ++ r) = ((d.token i).kind, (d.token i).text.toList.length) := hscan
  -- A token that starts with a `#` is the `#` alone.
  have hhead : (d.token i).text.toList.head? ≠ some '#' := by
    intro hhead
    obtain ⟨t, ht⟩ := List.head?_eq_some_iff.1 hhead
    rw [ht, List.cons_append, scan_hash, Prod.mk.injEq, List.length_cons] at hscan
    have hnil : t = [] := List.eq_nil_of_length_eq_zero (Nat.succ.inj hscan.2).symm
    exact hhash (String.ext (by rw [ht, hnil]; rfl))
  have halone : (Piece.word (d.token i).kind (d.token i).text).Heads true [] := by
    refine ⟨?_, ?_⟩
    · rw [List.append_nil]
      exact scan?_none_front hhead hnone
    · rw [List.append_nil]
      exact scan_front hne' hscan
  have hsize : (d.token i).text.utf8ByteSize ≤ maxBytes := by
    have hstop := d.span_stop_le hi (by omega)
    have hend : (d.span d.endOfFile).start = d.length := by rw [hd.proper.span_endOfFile]
    rw [hend] at hstop
    exact Nat.le_trans (Nat.le_trans (Nat.le_add_left _ _) hstop) d.length_le
  obtain ⟨e, he⟩ := exists_ofSource hsize
  exact ⟨e, he, by rw [tokens_of_ofSource he, tokensOf_word hne halone]⟩

/-- A string in whose hole another string starts, neither of them closed, is read alone as it is behind other tokens. -/
theorem alone_of_ofSource_unclosed : ∃ d e, ofSource "f(1.5e+3, $\"a\x7bg(\"b" = .ok d ∧ 4 < d.endOfFile ∧
    (d.token 4).text = "$\"a\x7bg(\"b" ∧ ofSource (d.token 4).text = .ok e ∧
    e.tokens = #[{ kind := .stringLiteral, text := "$\"a\x7bg(\"b" }, .endOfFile] := by
  obtain ⟨d, hd, h⟩ := exists_ok_of_any (e := ofSource "f(1.5e+3, $\"a\x7bg(\"b") (p := fun d =>
    decide (4 < d.endOfFile) && ((d.token 4).kind == .stringLiteral && (d.token 4).text == "$\"a\x7bg(\"b"))
    (by decide +kernel)
  simp only [Bool.and_eq_true, decide_eq_true_eq, beq_iff_eq] at h
  obtain ⟨hi, hkind, htext⟩ := h
  obtain ⟨e, he, htokens⟩ := alone_of_ofSource hd hi (by rw [htext]; decide)
  rw [hkind, htext] at htokens
  exact ⟨d, e, hd, hi, htext, he, htokens⟩

end Document

end LayoutLint
