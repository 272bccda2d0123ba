import LayoutLint.Proofs.Lexing.Closing
/-!
# Escapes — line breaks inside of literals

A character literal and a regular string stop in front of a line break, unless a backslash escapes it: the character
behind a backslash is read whatever it is. So every line break in such a literal is escaped (`BreaksEscaped`,
`breaksEscaped_of_scan_character`, `breaksEscaped_of_scan_string`). An escaped CR is also the one place where a token
ends in front of the LF of a line break (`escape_of_scan`).
-/
namespace LayoutLint

namespace Literal

variable {c : Char} {t u r : List Char}

/-- Does the text end in a backslash that is not escaped itself, or, when the text is empty, has one been before it? -/
def endsInEscape (escaped : Bool) : List Char → Bool
  | [] => escaped
  | c :: r => endsInEscape (!escaped && c == '\\') r

/-- Every line break in the text is escaped. -/
def BreaksEscaped (t : List Char) : Prop :=
  ∀ front c rest, t = front ++ c :: rest → isBreakChar c = true → endsInEscape false front = true

theorem breaksEscaped_of_unbroken (h : Avoids isBreakChar t) : BreaksEscaped t := by
  rintro front c rest rfl hc
  rw [h c (List.mem_append_right _ List.mem_cons_self)] at hc
  cases hc

theorem breaksEscaped_nil : BreaksEscaped [] := breaksEscaped_of_unbroken fun _ hc => absurd hc List.not_mem_nil

theorem breaksEscaped_singleton (hc : isBreakChar c = false) : BreaksEscaped [c] :=
  breaksEscaped_of_unbroken fun _ hd => List.mem_singleton.1 hd ▸ hc

theorem BreaksEscaped.cons (h : BreaksEscaped t) (hb : isBreakChar c = false) (hc : c ≠ '\\') :
    BreaksEscaped (c :: t) := by
  intro front d rest heq hd
  cases front with
  | nil =>
    rw [← (List.cons.inj heq).1, hb] at hd
    cases hd
  | cons b front =>
    injection heq with hcb heq
    subst hcb
    rw [endsInEscape, beq_eq_false_iff_ne.2 hc, Bool.and_false]
    exact h front d rest heq hd

/-- The character behind a backslash may be a line break. -/
theorem BreaksEscaped.escape (h : BreaksEscaped t) (c : Char) : BreaksEscaped ('\\' :: c :: t) := by
  intro front d rest heq hd
  match front with
  | [] =>
    rw [← (List.cons.inj heq).1] at hd
    cases hd
  | [b] => rw [← (List.cons.inj heq).1]; rfl
  | b :: b' :: front =>
    injection heq with hb heq
    injection heq with hb' heq
    subst hb
    exact h front d rest heq hd

theorem BreaksEscaped.append (h : BreaksEscaped t) (hu : Avoids isBreakChar u) : BreaksEscaped (t ++ u) := by
  intro front c rest heq hc
  rcases List.append_eq_append_iff.1 heq with ⟨l, rfl, hl⟩ | ⟨l, rfl, hl⟩
  · rw [hu c (hl ▸ List.mem_append_right _ List.mem_cons_self)] at hc
    cases hc
  · cases l with
    | nil =>
      have hl : c :: rest = u := hl
      rw [hu c (hl ▸ List.mem_cons_self)] at hc
      cases hc
    | cons d l =>
      obtain ⟨rfl, -⟩ := List.cons.inj hl
      exact h front c l rfl hc

/-- A backslash stands right in front of an escaped line break. -/
theorem getLast?_of_endsInEscape : ∀ {t : List Char} {b : Bool}, t ≠ [] → endsInEscape b t = true →
    t.getLast? = some '\\'
  | [], _, hne, _ => absurd rfl hne
  | [c], b, _, h => by
    rw [endsInEscape, endsInEscape, Bool.and_eq_true, beq_iff_eq] at h
    rw [h.2]
    rfl
  | _ :: d :: t, _, _, h => by
    rw [List.getLast?_cons_cons]
    exact getLast?_of_endsInEscape (List.cons_ne_nil d t) h

theorem BreaksEscaped.unbroken (h : BreaksEscaped t) (hs : ∀ e, isBreakChar e = true → ¬ ['\\', e] <:+: t) :
    Avoids isBreakChar t := by
  intro e he
  refine Bool.eq_false_iff.2 fun hb => hs e hb ?_
  obtain ⟨front, rest, rfl⟩ := List.append_of_mem he
  have hend := h front e rest rfl hb
  have hne : front ≠ [] := by
    rintro rfl
    cases hend
  have hlast := getLast?_of_endsInEscape hne hend
  obtain ⟨x, rfl⟩ := List.getLast?_eq_some_iff.1 hlast
  exact ⟨x, rest, by rw [List.append_assoc, List.append_assoc]; rfl⟩

/-! ### Character literals -/

/-- **A character literal has escaped line breaks only.** -/
theorem breaksEscaped_charBody (s : List Char) : BreaksEscaped (s.take (charBodyLength s)) := by
  fun_induction charBodyLength s with
  | case1 => exact breaksEscaped_nil
  | case2 d r ih => exact ih.escape d
  | case3 c r _ hq =>
    rw [beq_iff_eq.1 hq]
    exact breaksEscaped_singleton rfl
  | case4 c r _ _ hb => exact breaksEscaped_nil
  | case5 c r hne hq hb ih =>
    have hb := Bool.eq_false_iff.2 hb
    by_cases hc : c = '\\'
    · cases r with
      | nil => exact breaksEscaped_singleton hb
      | cons d r => exact absurd rfl (hne d r hc)
    · exact ih.cons hb hc

/-- A character literal that ends between a CR and its LF ends in an escaped CR. -/
theorem escape_of_charBodyLength (hlf : r.head? = some '\n') : ∀ {a : List Char}, a.getLast? = some '\r' →
    charBodyLength (a ++ r) = a.length → ['\\', '\r'] <:+ a
  | [], hcr, _ => by cases hcr
  | [c], hcr, h => by
    obtain rfl := Option.some.inj hcr
    rw [List.singleton_append, charBodyLength_of_lineEnd (lineEnd_cons.2 (by decide))] at h
    cases h
  | c :: d :: a, hcr, h => by
    rw [List.getLast?_cons_cons] at hcr
    by_cases hc : c = '\\'
    · subst hc
      cases a with
      | nil =>
        obtain rfl := Option.some.inj hcr
        exact List.suffix_refl _
      | cons b a =>
        rw [List.getLast?_cons_cons] at hcr
        have hstep : charBodyLength (b :: a ++ r) + 2 = (b :: a).length + 2 := h
        exact (escape_of_charBodyLength hlf hcr (Nat.add_right_cancel hstep)).trans
          ((List.suffix_cons d (b :: a)).trans (List.suffix_cons _ _))
    · rw [List.cons_append, charBodyLength_cons hc] at h
      split at h
      · cases h
      · split at h
        · cases h
        · exact (escape_of_charBodyLength hlf hcr (Nat.succ.inj h)).trans (List.suffix_cons c _)

/-! ### Strings -/

/-- The search for the end of a string ends with a quote, with a backslash behind which nothing stands, or in front of
a line break. -/
theorem eq_of_bodyStep_none {v i : Bool} {h m : Nat} {s : List Char} (ho : bodyStep v i h c s = (m + 1, none)) :
    m = 0 ∧ (c = '"' ∨ c = '\\' ∧ s = []) := by
  unfold bodyStep at ho
  repeat' split at ho
  all_goals simp_all

/-- How the search goes on outside of holes, in a string that is not verbatim. -/
theorem eq_of_bodyStep_zero {i : Bool} {h m : Nat} {s : List Char} (ho : bodyStep false i h c s = (m + 1, some 0)) :
    c = '\\' ∧ m = 1 ∨ i = true ∧ c = '{' ∧ m = 1 ∧ s.head? = some '{' ∨
      m = 0 ∧ c ≠ '\\' ∧ isBreakChar c = false := by
  unfold bodyStep at ho
  repeat' split at ho
  all_goals simp_all
  rfl

/-- A search that reads a front of the text ends with its first step, or goes on with what that leaves of the front. -/
theorem stringBodyEnd_append_cases {v i : Bool} {h n : Nat}
    (hend : stringBodyEnd v i h n (c :: t ++ r) = n + (c :: t).length) :
    bodyStep v i h c (t ++ r) = (t.length + 1, none) ∨ ∃ m h', m ≤ t.length ∧
      bodyStep v i h c (t ++ r) = (m + 1, some h') ∧
      stringBodyEnd v i h' (n + (m + 1)) (t.drop m ++ r) = n + (m + 1) + (t.drop m).length := by
  have hb := bodyStep_bounds (v := v) (i := i) (h := h) (c := c) (s := t ++ r) fun m hm => stringLength?_bounds hm
  rw [List.cons_append, List.length_cons] at hend
  cases ho : (bodyStep v i h c (t ++ r)).2 with
  | none =>
    rw [stringBodyEnd_stop ho] at hend
    exact .inl (Prod.ext (Nat.add_left_cancel hend) ho)
  | some h' =>
    rw [ho, Option.isSome_some] at hb
    obtain ⟨m, hm⟩ := Nat.exists_eq_add_one.2 (hb.2 rfl)
    rw [stringBodyEnd_step ho, hm, Nat.add_sub_cancel] at hend
    have hge := le_stringBodyEnd v i h' (n + (m + 1)) ((t ++ r).drop m)
    have hle : m ≤ t.length := by omega
    rw [List.drop_append_of_le_length hle] at hend
    refine .inr ⟨m, h', hle, Prod.ext hm ho, hend.trans ?_⟩
    rw [List.length_drop]
    omega

/-- **A regular string has escaped line breaks only**, up to where its suffix may stand. -/
theorem breaksEscaped_stringBody (k : Nat) : ∀ a : List Char, a.length < k → ∀ {n : Nat},
    stringBodyEnd false false 0 n (a ++ r) = n + a.length → BreaksEscaped a := by
  induction k with
  | zero => exact fun a ha => absurd ha (Nat.not_lt_zero _)
  | succ k ih =>
    intro a ha n hend
    cases a with
    | nil => exact breaksEscaped_nil
    | cons c a =>
      rw [List.length_cons, Nat.add_lt_add_iff_right] at ha
      rcases stringBodyEnd_append_cases hend with hstop | ⟨m, h', hle, hstep, hrest⟩
      · obtain ⟨hnil, hc⟩ := eq_of_bodyStep_none hstop
        rw [List.eq_nil_of_length_eq_zero hnil]
        exact breaksEscaped_singleton (by rcases hc with rfl | ⟨rfl, -⟩ <;> rfl)
      · -- No brace opens a hole.
        have hzero : h' = 0 := by
          unfold bodyStep at hstep
          repeat' split at hstep
          all_goals simp_all
        subst hzero
        rcases eq_of_bodyStep_zero hstep with ⟨rfl, rfl⟩ | ⟨hi, -⟩ | ⟨rfl, hc, hb⟩
        · obtain ⟨d, a, rfl⟩ := List.exists_cons_of_length_pos hle
          exact (ih a (Nat.lt_of_succ_lt ha) hrest).escape d
        · cases hi
        · exact (ih a ha hrest).cons hb hc

/-- A string whose body ends between a CR and its LF ends in an escaped CR. -/
theorem escape_of_stringBodyEnd (hlf : r.head? = some '\n') (k : Nat) : ∀ a : List Char, a.length < k →
    ∀ {v i : Bool} {h n : Nat}, a.getLast? = some '\r' → stringBodyEnd v i h n (a ++ r) = n + a.length →
      ['\\', '\r'] <:+ a := by
  obtain ⟨e, r, rfl⟩ : ∃ e s, r = e :: s := by
    cases r with
    | nil => cases hlf
    | cons e s => exact ⟨e, s, rfl⟩
  induction k with
  | zero => exact fun a ha => absurd ha (Nat.not_lt_zero _)
  | succ k ih =>
    intro a ha v i h n hcr hend
    cases a with
    | nil => cases hcr
    | cons c a =>
      rcases stringBodyEnd_append_cases hend with hstop | ⟨m, h', hle, hstep, hrest⟩
      · obtain ⟨hnil, rfl | ⟨-, hr⟩⟩ := eq_of_bodyStep_none hstop
        · rw [List.eq_nil_of_length_eq_zero hnil] at hcr
          cases hcr
        · exact absurd (List.append_eq_nil_iff.1 hr).2 (List.cons_ne_nil e r)
      · rcases Nat.lt_or_eq_of_le hle with hlt | rfl
        · have hlast : (a.drop m).getLast? = some '\r' := by
            rw [← List.drop_succ_cons (a := c), List.getLast?_drop, if_neg (by rw [List.length_cons]; omega), hcr]
          have hless : (a.drop m).length < k := by
            rw [List.length_cons] at ha
            rw [List.length_drop]
            omega
          exact (ih (a.drop m) hless hlast hrest).trans ((List.drop_suffix _ _).trans (List.suffix_cons c a))
        · -- All of it is read in one step, and nothing more behind it.
          rw [List.drop_length, List.nil_append] at hrest
          obtain ⟨rfl, -, rfl⟩ := break_of_stringBodyEnd (Nat.le_of_eq hrest)
          rcases eq_of_bodyStep_zero hstep with ⟨rfl, hm⟩ | ⟨-, -, hm, hbrace⟩ | ⟨hm, -, hb⟩
          · obtain ⟨d, rfl⟩ := List.length_eq_one_iff.1 hm
            obtain rfl := Option.some.inj hcr
            exact List.suffix_refl _
          · obtain ⟨d, rfl⟩ := List.length_eq_one_iff.1 hm
            obtain rfl := Option.some.inj hcr
            cases hbrace
          · rw [List.eq_nil_of_length_eq_zero hm] at hcr
            obtain rfl := Option.some.inj hcr
            cases hb

theorem suffixLength_cases (s : List Char) :
    suffixLength s = 0 ∨ suffixLength s = 2 ∧ ∃ c x, s = c :: '8' :: x ∧ (c = 'u' ∨ c = 'U') := by
  unfold suffixLength
  split
  · rename_i h
    refine .inr ⟨rfl, ?_⟩
    rw [Bool.or_eq_true, List.isPrefixOf_iff_prefix, List.isPrefixOf_iff_prefix] at h
    rcases h with ⟨x, rfl⟩ | ⟨x, rfl⟩
    · exact ⟨'u', x, rfl, .inl rfl⟩
    · exact ⟨'U', x, rfl, .inr rfl⟩
  · exact .inl rfl

/-- A raw string ends in a quote, or where the text ends. -/
theorem getLast?_of_rawLength {q : Nat} {x : List Char} (hq : 0 < q) (hr : r ≠ [])
    (h : rawLength q (x ++ r) = x.length) : x.getLast? = some '"' := by
  rw [rawLength] at h
  split at h
  · rename_i n hn
    obtain ⟨z, hz⟩ := List.isPrefixOf_iff_prefix.1 (isPrefixOf_of_findFrom hn)
    have hquote : ((x ++ r).drop q)[n + (q - 1)]? = some '"' := by
      rw [← List.getElem?_drop, ← Nat.sub_zero n, ← hz,
        List.getElem?_append_left (by rw [List.length_replicate]; omega), List.getElem?_replicate, if_pos (by omega)]
    rw [List.getElem?_drop, List.getElem?_append_left (by omega)] at hquote
    rwa [List.getLast?_eq_getElem?, ← h, show q + n + q - 1 = q + (n + (q - 1)) by omega]
  · rw [List.length_append] at h
    exact absurd (List.eq_nil_of_length_eq_zero (by omega)) hr

/-- **A string that ends between a CR and its LF ends in an escaped CR.** -/
theorem escape_of_stringLength? (hlf : r.head? = some '\n') (hcr : t.getLast? = some '\r')
    (h : stringLength? (t ++ r) = some t.length) : ['\\', '\r'] <:+ t := by
  have hr : r ≠ [] := by
    rintro rfl
    cases hlf
  obtain ⟨g, body, hs, hg, -, hu⟩ := stringLength?_eq_some h
  have hlt := lt_unsuffixedLength (sigils ⟨0, false, false⟩ (t ++ r)) body
  obtain ⟨b, rfl, rfl⟩ := quote_inside hs (by omega)
  generalize sigils ⟨0, false, false⟩ (g ++ '"' :: b ++ r) = before at hg hu hlt
  rcases suffixLength_cases ((g ++ '"' :: b ++ r).drop (unsuffixedLength before (b ++ r))) with
    hzero | ⟨htwo, c, x, hx, -⟩
  · rw [hzero, Nat.add_zero, unsuffixedLength, hg, List.length_append] at hu
    have hlast : ('"' :: b).getLast? = some '\r' := by
      rwa [List.getLast?_append, List.getLast?_cons, Option.some_or, ← List.getLast?_cons] at hcr
    split at hu
    · have hraw := getLast?_of_rawLength (x := '"' :: b) (by simp [quoteRun]) hr (Nat.add_left_cancel hu).symm
      rw [hlast] at hraw
      cases hraw
    · cases b with
      | nil => cases hlast
      | cons d b =>
        rw [List.getLast?_cons_cons] at hlast
        refine (escape_of_stringBodyEnd hlf _ (d :: b) (Nat.lt_succ_self _) hlast (hu.symm.trans ?_)).trans
          ((List.suffix_cons _ _).trans (List.suffix_append g _))
        rw [List.length_cons]
        omega
  · rw [htwo] at hu
    have height : (g ++ '"' :: b ++ r)[unsuffixedLength before (b ++ r) + 1]? = some '8' := by
      rw [← List.getElem?_drop, hx]
      rfl
    rw [List.getElem?_append_left (by omega)] at height
    rw [List.getLast?_eq_getElem?, hu, Nat.add_sub_assoc (by omega), height] at hcr
    cases hcr

theorem le_rawLength (q : Nat) (s : List Char) : min q s.length ≤ rawLength q s := by
  unfold rawLength
  split <;> omega

/-- The quotes at the head of a text are those at the head of its front, if that is long enough. -/
theorem min_quoteRun_append_le (x r : List Char) : min (quoteRun (x ++ r)) x.length ≤ quoteRun x := by
  unfold quoteRun
  rw [List.takeWhile_append]
  split <;> omega

theorem stringLength?_quote (body : List Char) : stringLength? ('"' :: body) =
    some (unsuffixedLength ⟨0, false, false⟩ body +
      suffixLength (('"' :: body).drop (unsuffixedLength ⟨0, false, false⟩ body))) := by
  have hsigils : sigils ⟨0, false, false⟩ ([] ++ '"' :: body) = ⟨0, false, false⟩ :=
    sigils_of_ne (by decide) (by decide)
  have h : stringLength? ([] ++ '"' :: body) = _ := stringLength?_of_quote (by rw [hsigils]; rfl)
  rwa [hsigils] at h

theorem unbroken_suffix (s : List Char) : Avoids isBreakChar (s.take (suffixLength s)) := by
  rcases suffixLength_cases s with h | ⟨h, c, x, rfl, rfl | rfl⟩ <;> rw [h]
  · exact fun c hc => absurd hc List.not_mem_nil
  · exact (by decide : Avoids isBreakChar ['u', '8'])
  · exact (by decide : Avoids isBreakChar ['U', '8'])

/-- **A regular string has escaped line breaks only.** -/
theorem breaksEscaped_of_stringLength? (h : stringLength? ('"' :: t ++ r) = some ('"' :: t).length)
    (hq : quoteRun ('"' :: t) < 3) : BreaksEscaped ('"' :: t) := by
  rw [List.cons_append, stringLength?_quote, Option.some.injEq] at h
  -- A raw string would hold all the quotes that open it.
  have hregular : ¬ 3 ≤ quoteRun ('"' :: (t ++ r)) := by
    intro hle
    have hrun := min_quoteRun_append_le ('"' :: t) r
    have hraw := le_rawLength (quoteRun ('"' :: (t ++ r))) ('"' :: (t ++ r))
    have hlength : quoteRun ('"' :: (t ++ r)) ≤ ('"' :: (t ++ r)).length := (List.takeWhile_prefix _).length_le
    rw [unsuffixedLength, if_pos hle] at h
    rw [List.cons_append] at hrun
    omega
  rw [unsuffixedLength, if_neg hregular] at h
  obtain ⟨m, hm⟩ := Nat.exists_eq_add_of_le' (le_stringBodyEnd false false 0 (0 + 1) (t ++ r))
  have hm : stringBodyEnd false false 0 (0 + 1) (t ++ r) = m + 1 := hm
  have h : stringBodyEnd false false 0 (0 + 1) (t ++ r) +
    suffixLength (('"' :: (t ++ r)).drop (stringBodyEnd false false 0 (0 + 1) (t ++ r))) = ('"' :: t).length := h
  rw [hm, List.drop_succ_cons, List.length_cons, Nat.add_right_comm, Nat.add_right_cancel_iff] at h
  -- The literal is its body and its suffix.
  have ht : t = t.take m ++ ((t ++ r).drop m).take (suffixLength ((t ++ r).drop m)) := by
    have hfront : (t ++ r).take m = t.take m := List.take_append_of_le_length (by omega)
    rw [← hfront, ← List.take_add, h, List.take_left]
  have hbody : BreaksEscaped (t.take m) := by
    refine breaksEscaped_stringBody _ (t.take m) (Nat.lt_succ_self _) (r := t.drop m ++ r) (n := 0 + 1) ?_
    rw [← List.append_assoc, List.take_append_drop, hm, List.length_take]
    omega
  rw [ht]
  exact (hbody.append (unbroken_suffix _)).cons rfl (by decide)

end Literal

open Literal (BreaksEscaped quoteRun)

variable {t r : List Char} {k : TokenKind} {b : Bool}

/-! ### Tokens -/

/-- **A character literal has escaped line breaks only.** -/
theorem breaksEscaped_of_scan_character (ht : t ≠ []) (hs : Token.scan (t ++ r) = (.characterLiteral, t.length)) :
    BreaksEscaped t := by
  obtain ⟨c, t, rfl⟩ := List.exists_cons_of_ne_nil ht
  rcases scan_cases hs with ⟨hk, -⟩ | ⟨-, rfl, hn⟩ | ⟨hk, -⟩
  · cases hk
  · have hbody := Literal.breaksEscaped_charBody (t ++ r)
    have hn : t.length = Literal.charBodyLength (t ++ r) := Nat.succ.inj hn
    rw [← hn, List.take_left] at hbody
    exact hbody.cons rfl (by decide)
  · cases hk

/-- **A regular string has escaped line breaks only.** -/
theorem breaksEscaped_of_scan_string (hs : Token.scan ('"' :: t ++ r) = (.stringLiteral, ('"' :: t).length))
    (hq : quoteRun ('"' :: t) < 3) : BreaksEscaped ('"' :: t) := by
  rcases scan_cases hs with ⟨-, hm⟩ | ⟨hk, -⟩ | ⟨hk, -⟩
  · exact Literal.breaksEscaped_of_stringLength? hm hq
  · cases hk
  · cases hk

theorem unbroken_of_numberTail {hex : Bool} : ∀ {t : List Char} {last : Char},
    numberTailLength hex last (t ++ r) = t.length → Avoids isBreakChar t
  | [], _, _ => fun c hc => absurd hc List.not_mem_nil
  | c :: t, last, h => by
    have hb : isBreakChar c = false := by
      cases hb : isBreakChar c with
      | false => rfl
      | true =>
        rw [List.cons_append, numberTailLength_of_softHead (softHead_cons.2 (isSoft_of_isBreakChar hb))] at h
        cases h
    have hrest : numberTailLength hex c (t ++ r) = t.length := by
      rw [List.cons_append, numberTailLength, List.length_cons] at h
      repeat' split at h
      all_goals omega
    exact List.forall_mem_cons.2 ⟨hb, unbroken_of_numberTail hrest⟩

theorem unbroken_of_word (h : wordLength (t ++ r) = t.length) : Avoids isBreakChar t := by
  intro c hc
  have hw := (length_takeWhile_append.1 h).1 c hc
  cases hb : isBreakChar c with
  | false => rfl
  | true =>
    rw [isWordPart_of_isSoft (isSoft_of_isBreakChar hb)] at hw
    cases hw

/-- A punctuator that does not start with a line break holds none. -/
theorem unbroken_of_punctuator {d : Char} (hd : isBreakChar d = false)
    (h : punctuatorLength (d :: t ++ r) = (d :: t).length) : Avoids isBreakChar (d :: t) := by
  unfold punctuatorLength at h
  split at h
  · rename_i p hp
    have hunbroken : ∀ p ∈ punctuators, Avoids isBreakChar p.toList := by decide
    have hpre : p.toList <+: d :: t ++ r := List.isPrefixOf_iff_prefix.1 (by simpa using List.find?_some hp)
    have hpt : p.toList = d :: t := by
      rw [← String.length_toList] at h
      rw [List.prefix_iff_eq_take.1 hpre, h, List.take_left]
    exact hpt ▸ hunbroken p (List.mem_of_find?_eq_some hp)
  · rw [List.eq_nil_of_length_eq_zero (Nat.succ.inj h).symm]
    exact fun c hc => List.mem_singleton.1 hc ▸ hd

/-- **A token that is no literal holds no line break.** -/
theorem unbroken_of_scan (ht : t ≠ []) (hb : Trivia.scan? b (t ++ r) = none) (hs : Token.scan (t ++ r) = (k, t.length))
    (hk : k.isQuoted = false) : Avoids isBreakChar t := by
  obtain ⟨d, t, rfl⟩ := List.exists_cons_of_ne_nil ht
  have hd : isBreakChar d = false := by
    cases hd : isBreakChar d with
    | false => rfl
    | true =>
      rw [List.cons_append, scan?_break hd] at hb
      cases hb
  rcases scan_cases hs with ⟨rfl, -⟩ | ⟨rfl, -⟩ | ⟨-, hn | hn | hn | hn⟩
  · cases hk
  · cases hk
  · exact List.forall_mem_cons.2 ⟨hd, unbroken_of_word (Nat.succ.inj hn).symm⟩
  · exact unbroken_of_word hn.symm
  · exact unbroken_of_numberTail hn.symm
  · exact unbroken_of_punctuator hd hn.symm

/-- **A token that ends between a CR and its LF is a literal that ends in an escaped CR.** -/
theorem escape_of_scan (hb : Trivia.scan? b (t ++ r) = none) (hs : Token.scan (t ++ r) = (k, t.length))
    (hcr : t.getLast? = some '\r') (hlf : r.head? = some '\n') : k.isQuoted = true ∧ ['\\', '\r'] <:+ t := by
  have hmem : '\r' ∈ t := List.mem_of_getLast? hcr
  cases hk : k.isQuoted with
  | false => cases unbroken_of_scan (List.ne_nil_of_mem hmem) hb hs hk _ hmem
  | true =>
    refine ⟨rfl, ?_⟩
    obtain ⟨c, t, rfl⟩ := List.exists_cons_of_ne_nil (List.ne_nil_of_mem hmem)
    rcases scan_cases hs with ⟨-, hm⟩ | ⟨-, rfl, hn⟩ | ⟨hk', -⟩
    · exact Literal.escape_of_stringLength? hlf hcr hm
    · cases t with
      | nil => cases hcr
      | cons d t =>
        rw [List.getLast?_cons_cons] at hcr
        exact (Literal.escape_of_charBodyLength hlf hcr (Nat.succ.inj hn).symm).trans (List.suffix_cons _ _)
    · rw [hk] at hk'
      cases hk'

end LayoutLint
