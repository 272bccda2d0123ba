import LayoutLint.Proofs.Lexing.Literals
/-!
# Tokens — a token does not see what follows it

A token is a literal, or a word, a number or a punctuator (`scan_cases`). The token at the head of a text stays what it
is when the text behind it gives way to an alike one (`scan_append`). Only a literal that reaches the end of a text
grows when a line break is put there (`scan_append_break`).
-/
namespace LayoutLint

variable {t r r' e : List Char}

/-! ### Words, numbers and punctuators -/

theorem isWordPart_of_isWordStart {c : Char} (h : isWordStart c = true) : isWordPart c = true := by
  simp only [isWordStart, isWordPart, Text.isAlphanumeric, Bool.or_eq_true] at h ⊢
  exact h.imp_right .inl

theorem isWordStart_of_isSoft {c : Char} (h : isSoft c = true) : isWordStart c = false := by
  cases hs : isWordStart c with
  | false => rfl
  | true =>
    have := isWordPart_of_isWordStart hs
    rw [isWordPart_of_isSoft h] at this
    cases this

theorem isDigit_of_isSoft {c : Char} (h : isSoft c = true) : c.isDigit = false :=
  (by decide : Avoids Char.isDigit softChars) c (mem_softChars h)

theorem wordLength_of_alike (h : Alike r r') : wordLength r' = wordLength r := by
  unfold wordLength
  rw [(h.takeWhile (fun c hc => isWordPart_of_isSoft hc)).1]

/-- A soft character ends a number. -/
theorem numberTailLength_of_softHead {u : List Char} (hu : SoftHead u) (hex : Bool) (last : Char) :
    numberTailLength hex last u = 0 := by
  cases u with
  | nil => rfl
  | cons c u =>
    have none : ∀ f, Avoids f softChars → f c = false := fun f hf => hf c (mem_softChars (softHead_cons.1 hu))
    rw [numberTailLength, none (fun c => c.isAlphanum || c == '_') (by decide), none (· == '.') (by decide),
      none (· == '+') (by decide), none (· == '-') (by decide)]
    rfl

theorem numberTailLength_of_alike (h : Alike r r') (hex : Bool) : ∀ last : Char,
    numberTailLength hex last r' = numberTailLength hex last r := by
  induction h with
  | @cut s s' hs hs' _ =>
    intro last
    rw [numberTailLength_of_softHead hs, numberTailLength_of_softHead hs']
  | @cons c s s' h ih =>
    intro last
    have hd : s'.head?.any Char.isDigit = s.head?.any Char.isDigit :=
      (h.head_any fun c hc => isDigit_of_isSoft hc).symm
    simp only [numberTailLength, hd, ih]

theorem numberLength_of_alike (h : Alike r r') : numberLength r' = numberLength r := by
  unfold numberLength
  rw [numberTailLength_of_alike h, h.isPrefixOf (p := "0x".toList) (by decide),
    h.isPrefixOf (p := "0X".toList) (by decide)]

/-- A punctuator is told by its characters; only the first of them can be soft. -/
theorem punctuatorLength_of_alike (h : Alike r r') (c : Char) :
    punctuatorLength (c :: r') = punctuatorLength (c :: r) := by
  have hp : ∀ p ∈ punctuators, Avoids isSoft p.toList.tail := by decide
  unfold punctuatorLength
  rw [← List.head?_filter, ← List.head?_filter, List.filter_congr fun p hm => h.isPrefixOf_cons (hp p hm) c]

/-! ### The token at the head of a text -/

theorem scan_of_string {s : List Char} {n : Nat} (h : Literal.stringLength? s = some n) :
    Token.scan s = (.stringLiteral, n) := by
  rw [Token.scan.eq_def, h]

theorem scan_cons {c : Char} {s : List Char} (h : Literal.stringLength? (c :: s) = none) :
    Token.scan (c :: s) =
      if c == '\'' then (.characterLiteral, Literal.charBodyLength s + 1)
      else if c == '@' && s.head?.any isWordStart then (.identifier, wordLength s + 1)
      else if isWordStart c then
        (if isKeyword (String.ofList ((c :: s).take (wordLength (c :: s)))) then .keyword else .identifier,
          wordLength (c :: s))
      else if c.isDigit || (c == '.' && s.head?.any Char.isDigit) then (.numericLiteral, numberLength (c :: s))
      else (.punctuation, punctuatorLength (c :: s)) := by
  rw [Token.scan.eq_def, h]

/-- Is the token a string or character literal? -/
def TokenKind.isQuoted : TokenKind → Bool
  | .stringLiteral | .characterLiteral => true
  | _ => false

/-- A token is a string, a character literal, or no literal at all, and each has a length of its own. -/
theorem scan_cases {c : Char} {s : List Char} {k : TokenKind} {n : Nat} (hs : Token.scan (c :: s) = (k, n)) :
    (k = .stringLiteral ∧ Literal.stringLength? (c :: s) = some n) ∨
    (k = .characterLiteral ∧ c = '\'' ∧ n = Literal.charBodyLength s + 1) ∨
    (k.isQuoted = false ∧ (n = wordLength s + 1 ∨ n = wordLength (c :: s) ∨ n = numberLength (c :: s) ∨
      n = punctuatorLength (c :: s))) := by
  cases hm : Literal.stringLength? (c :: s) with
  | some m =>
    rw [scan_of_string hm, Prod.mk.injEq] at hs
    obtain ⟨rfl, rfl⟩ := hs
    exact .inl ⟨rfl, rfl⟩
  | none =>
    rw [scan_cons hm] at hs
    split at hs
    · rename_i hq
      obtain ⟨rfl, rfl⟩ := Prod.mk.inj hs
      exact .inr (.inl ⟨rfl, beq_iff_eq.1 hq, rfl⟩)
    · refine .inr (.inr ?_)
      split at hs
      · obtain ⟨rfl, rfl⟩ := Prod.mk.inj hs
        exact ⟨rfl, .inl rfl⟩
      · split at hs
        · obtain ⟨rfl, rfl⟩ := Prod.mk.inj hs
          exact ⟨by split <;> rfl, .inr (.inl rfl)⟩
        · split at hs
          · obtain ⟨rfl, rfl⟩ := Prod.mk.inj hs
            exact ⟨rfl, .inr (.inr (.inl rfl))⟩
          · obtain ⟨rfl, rfl⟩ := Prod.mk.inj hs
            exact ⟨rfl, .inr (.inr (.inr rfl))⟩

/-- **A token that ends inside a text does not see what follows.** -/
theorem scan_append {k : TokenKind} (h : Alike r r') (hr : r ≠ [])
    (he : k.isQuoted = true → LineEnd r → LineEnd r') (ht : t ≠ [])
    (hs : Token.scan (t ++ r) = (k, t.length)) : Token.scan (t ++ r') = (k, t.length) := by
  cases hm : Literal.stringLength? (t ++ r) with
  | some m =>
    rw [scan_of_string hm, Prod.mk.injEq] at hs
    obtain ⟨rfl, rfl⟩ := hs
    rw [scan_of_string (Literal.stringLength?_append h hr (he rfl) hm (Nat.le_refl _))]
  | none =>
    have hm' := Literal.stringLength?_eq_none (h.append t) hm
    obtain ⟨c, t, rfl⟩ := List.exists_cons_of_ne_nil ht
    rw [List.cons_append] at hm hm' hs ⊢
    have hword := wordLength_of_alike (h.append (c :: t))
    have hhead := (h.append t).head_any fun c hc => isWordStart_of_isSoft hc
    have hdigit := (h.append t).head_any fun c hc => isDigit_of_isSoft hc
    rw [List.cons_append, List.cons_append] at hword
    rw [scan_cons hm, List.length_cons] at hs
    rw [scan_cons hm', List.length_cons, ← hhead, ← hdigit, hword]
    by_cases hq : (c == '\'') = true
    · rw [if_pos hq, Prod.mk.injEq] at hs
      obtain ⟨rfl, hs⟩ := hs
      rw [if_pos hq, Literal.charBodyLength_append h hr (he rfl) t (by omega), ← hs]
    · rw [if_neg hq] at hs ⊢
      by_cases ha : (c == '@' && (t ++ r).head?.any isWordStart) = true
      · rw [if_pos ha] at hs ⊢
        rw [wordLength_of_alike (h.append t), hs]
      · rw [if_neg ha] at hs ⊢
        by_cases hw : isWordStart c = true
        · rw [if_pos hw] at hs ⊢
          obtain ⟨hk, hn⟩ := Prod.mk.inj hs
          rw [hn] at hk ⊢
          rw [List.take_succ_cons, List.take_left] at hk ⊢
          rw [hk]
        · rw [if_neg hw] at hs ⊢
          by_cases hd : (c.isDigit || (c == '.' && (t ++ r).head?.any Char.isDigit)) = true
          · rw [if_pos hd] at hs ⊢
            have := numberLength_of_alike (h.append (c :: t))
            rw [List.cons_append, List.cons_append] at this
            rw [this, hs]
          · rw [if_neg hd] at hs ⊢
            rw [punctuatorLength_of_alike (h.append t), hs]

/-! ### The length of a token -/

theorem numberTailLength_le (hex : Bool) : ∀ (s : List Char) (last : Char), numberTailLength hex last s ≤ s.length
  | [], _ => Nat.le_refl _
  | c :: s, last => by
    have := numberTailLength_le hex s c
    rw [numberTailLength, List.length_cons]
    repeat' split
    all_goals omega

theorem numberLength_pos {c : Char} {s : List Char}
    (h : (c.isDigit || (c == '.' && s.head?.any Char.isDigit)) = true) : 0 < numberLength (c :: s) := by
  rw [numberLength, numberTailLength]
  rcases Bool.or_eq_true_iff.1 h with hd | hd
  · rw [if_pos (by rw [Char.isAlphanum, hd, Bool.or_true, Bool.true_or])]
    omega
  · rw [if_pos hd]
    split <;> exact Nat.succ_pos _

theorem punctuatorLength_bounds (c : Char) (s : List Char) :
    0 < punctuatorLength (c :: s) ∧ punctuatorLength (c :: s) ≤ (c :: s).length := by
  unfold punctuatorLength
  split
  · rename_i p hp
    have hmem := List.mem_of_find?_eq_some hp
    have hpre : p.toList <+: c :: s := List.isPrefixOf_iff_prefix.1 (by simpa using List.find?_some hp)
    have hpos : ∀ p ∈ punctuators, 0 < p.length := by decide
    exact ⟨hpos p hmem, String.length_toList (s := p) ▸ hpre.length_le⟩
  · simp

/-- A token is not empty and does not reach past the end of the text. -/
theorem scan_bounds {s : List Char} (hs : s ≠ []) : 0 < (Token.scan s).2 ∧ (Token.scan s).2 ≤ s.length := by
  cases hm : Literal.stringLength? s with
  | some m =>
    rw [scan_of_string hm]
    exact Literal.stringLength?_bounds hm
  | none =>
    obtain ⟨c, s, rfl⟩ := List.exists_cons_of_ne_nil hs
    have hword : ∀ u : List Char, wordLength u ≤ u.length := fun u => (List.takeWhile_prefix _).length_le
    have hwc := hword (c :: s)
    have hws := hword s
    have hchar := Literal.charBodyLength_le s
    rw [scan_cons hm, List.length_cons]
    rw [List.length_cons] at hwc
    split
    · simp only; omega
    · split
      · simp only; omega
      · split
        · rename_i hw
          have : 0 < wordLength (c :: s) := by
            rw [wordLength, List.takeWhile_cons, if_pos (isWordPart_of_isWordStart hw)]
            simp
          simp only
          omega
        · split
          · rename_i hd
            exact ⟨numberLength_pos hd, numberTailLength_le _ _ _⟩
          · exact punctuatorLength_bounds c s

/-! ### A line break put at the end of the text -/

/-- **Only a literal at the end of a text grows when a line break is put there.** -/
theorem scan_append_break {k : TokenKind} (he : LineEnd e) (ht : t ≠ []) (hs : Token.scan t = (k, t.length)) :
    ∃ m, Token.scan (t ++ e) = (k, m) ∧ t.length ≤ m ∧ (k.isQuoted = false → m = t.length) := by
  have hal := Alike.append_lineEnd t he
  cases hm : Literal.stringLength? t with
  | some m =>
    rw [scan_of_string hm, Prod.mk.injEq] at hs
    obtain ⟨rfl, rfl⟩ := hs
    obtain ⟨m, hm', hle⟩ := Literal.le_stringLength?_append_break he hm
    exact ⟨m, scan_of_string hm', hle, fun h => absurd h (by decide)⟩
  | none =>
    have hm' := Literal.stringLength?_eq_none hal hm
    obtain ⟨c, t, rfl⟩ := List.exists_cons_of_ne_nil ht
    have hal' := Alike.append_lineEnd t he
    have hhead := hal'.head_any fun c hc => isWordStart_of_isSoft hc
    have hdigit := hal'.head_any fun c hc => isDigit_of_isSoft hc
    have hword := wordLength_of_alike hal
    rw [List.cons_append] at hm' hword ⊢
    rw [scan_cons hm] at hs
    rw [scan_cons hm', ← hhead, ← hdigit, hword]
    by_cases hq : (c == '\'') = true
    · rw [if_pos hq, Prod.mk.injEq, List.length_cons] at hs
      obtain ⟨rfl, hs⟩ := hs
      rw [if_pos hq]
      have := Literal.le_charBodyLength_append_break e t (by omega)
      exact ⟨_, rfl, by rw [List.length_cons]; omega, fun h => absurd h (by decide)⟩
    · refine ⟨(c :: t).length, ?_, Nat.le_refl _, fun _ => rfl⟩
      rw [if_neg hq] at hs ⊢
      by_cases ha : (c == '@' && t.head?.any isWordStart) = true
      · rw [if_pos ha] at hs ⊢
        rw [wordLength_of_alike hal', hs]
      · rw [if_neg ha] at hs ⊢
        by_cases hw : isWordStart c = true
        · rw [if_pos hw] at hs ⊢
          obtain ⟨hk, hn⟩ := Prod.mk.inj hs
          rw [hn, List.take_length] at hk
          rw [hn, ← List.cons_append, List.take_left, hk]
        · rw [if_neg hw] at hs ⊢
          by_cases hd : (c.isDigit || (c == '.' && t.head?.any Char.isDigit)) = true
          · rw [if_pos hd] at hs ⊢
            have := numberLength_of_alike hal
            rw [List.cons_append] at this
            rw [this, hs]
          · rw [if_neg hd] at hs ⊢
            rw [punctuatorLength_of_alike hal', hs]

/-! ### What literals and brackets look like -/

/-- A literal holds a quote. -/
theorem quote_mem_of_isQuoted {s : List Char} {k : TokenKind} {n : Nat} (hs : Token.scan s = (k, n))
    (hk : k.isQuoted = true) : '"' ∈ s.take n ∨ '\'' ∈ s.take n := by
  cases s with
  | nil =>
    have hnone : Literal.stringLength? [] = none := by rw [Literal.stringLength?]; rfl
    rw [Token.scan.eq_def, hnone, Prod.mk.injEq] at hs
    rw [← hs.1] at hk
    cases hk
  | cons c s =>
    rcases scan_cases hs with ⟨-, hm⟩ | ⟨-, rfl, rfl⟩ | ⟨hn, -⟩
    · obtain ⟨g, body, hg, hl, -, hu⟩ := Literal.stringLength?_eq_some hm
      have := Literal.lt_unsuffixedLength (Literal.sigils ⟨0, false, false⟩ (c :: s)) body
      obtain ⟨j, rfl⟩ : ∃ j, n = g.length + (j + 1) := ⟨n - g.length - 1, by omega⟩
      rw [hg, List.take_length_add_append, List.take_succ_cons]
      exact .inl (List.mem_append_right _ List.mem_cons_self)
    · rw [List.take_succ_cons]
      exact .inr List.mem_cons_self
    · rw [hn] at hk
      cases hk

/-- A character that starts no literal, word or number and no longer punctuator is a token, whatever follows. -/
theorem scan_single {c : Char} (hd : c ≠ '$') (ha : c ≠ '@') (hq : c ≠ '"') (hquote : c ≠ '\'')
    (hw : isWordStart c = false) (hn : c.isDigit = false) (hpoint : c ≠ '.')
    (hp : ∀ p ∈ punctuators, p.toList.head? ≠ none ∧ p.toList.head? ≠ some c) (s : List Char) :
    Token.scan (c :: s) = (.punctuation, 1) := by
  have hnone : punctuators.find? (fun p => p.toList.isPrefixOf (c :: s)) = none := by
    refine List.find?_eq_none.2 fun p hmem hpre => ?_
    obtain ⟨u, hu⟩ := List.isPrefixOf_iff_prefix.1 hpre
    cases hl : p.toList with
    | nil => exact (hp p hmem).1 (by rw [hl]; rfl)
    | cons d l =>
      rw [hl, List.cons_append] at hu
      exact (hp p hmem).2 (by rw [hl, List.head?_cons, (List.cons.inj hu).1])
  rw [scan_cons (Literal.stringLength?_of_ne hd ha hq s), if_neg (by simp [hquote]), if_neg (by simp [ha]),
    if_neg (by simp [hw]), if_neg (by simp [hn, hpoint]), punctuatorLength, hnone]

/-- A closing parenthesis is a token, whatever follows. -/
theorem scan_closingParen (s : List Char) : Token.scan (')' :: s) = (.punctuation, 1) :=
  scan_single (by decide) (by decide) (by decide) (by decide) (by decide) (by decide) (by decide) (by decide) s

end LayoutLint
