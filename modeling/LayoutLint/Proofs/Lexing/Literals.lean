import LayoutLint.Proofs.Lexing.Soft
/-!
# Literals — a literal does not see what follows it

A string or character literal that ends inside a text stays what it is when the text behind it gives way to an alike one
(`stringLength?_append`, `charBodyLength_append`), as long as a literal that the end of a line cut off is still cut off.
A literal that reaches the end of a text reaches at least as far when line breaks are put there
(`le_stringLength?_append_break`).
-/
namespace LayoutLint.Literal

open Text (find? findFrom)

variable {a r r' e : List Char}

/-! ### Character literals -/

theorem charBodyLength_cons {c : Char} {s : List Char} (hc : c ≠ '\\') :
    charBodyLength (c :: s) = if c == '\'' then 1 else if isBreakChar c then 0 else charBodyLength s + 1 := by
  rw [charBodyLength]
  exact fun _ _ h => absurd h hc

theorem charBodyLength_of_lineEnd {s : List Char} (h : LineEnd s) : charBodyLength s = 0 := by
  cases s with
  | nil => rfl
  | cons c s =>
    have hc := lineEnd_cons.1 h
    have hq : c ≠ '\\' ∧ (c == '\'') = false := by
      simp only [isBreakChar, Bool.or_eq_true, beq_iff_eq] at hc
      rcases hc with rfl | rfl <;> decide
    rw [charBodyLength_cons hq.1, hq.2, hc]
    rfl

theorem charBodyLength_le (s : List Char) : charBodyLength s ≤ s.length := by
  fun_induction charBodyLength s with
  | case1 => exact Nat.le_refl _
  | case2 d r ih => simp only [List.length_cons]; omega
  | case3 c r _ _ => simp only [List.length_cons]; omega
  | case4 c r _ _ _ => exact Nat.zero_le _
  | case5 c r _ _ _ ih => simp only [List.length_cons]; omega

/-- **A character literal that ends inside a text does not see what follows.** -/
theorem charBodyLength_append (h : Alike r r') (hr : r ≠ []) (he : LineEnd r → LineEnd r') :
    ∀ a : List Char, charBodyLength (a ++ r) ≤ a.length → charBodyLength (a ++ r') = charBodyLength (a ++ r)
  | [], hle => by
    obtain ⟨c, s, rfl⟩ := List.exists_cons_of_ne_nil hr
    simp only [List.nil_append, List.length_nil, Nat.le_zero_eq] at hle ⊢
    by_cases hc : c = '\\'
    · subst hc
      cases s <;> simp [charBodyLength, isBreakChar] at hle
    · rw [charBodyLength_cons hc] at hle
      have hb : isBreakChar c = true := by
        revert hle
        split
        · simp
        · split <;> simp_all
      rw [charBodyLength_of_lineEnd (he (lineEnd_cons.2 hb)), charBodyLength_of_lineEnd (lineEnd_cons.2 hb)]
  | c :: a, hle => by
    by_cases hc : c = '\\'
    · subst hc
      cases a with
      | nil =>
        obtain ⟨c, s, rfl⟩ := List.exists_cons_of_ne_nil hr
        simp [charBodyLength] at hle
      | cons d a =>
        simp only [List.cons_append, charBodyLength, List.length_cons] at hle ⊢
        rw [charBodyLength_append h hr he a (by omega)]
    · rw [List.cons_append, charBodyLength_cons hc] at hle
      rw [List.cons_append, List.cons_append, charBodyLength_cons hc, charBodyLength_cons hc]
      split
      · rfl
      · split
        · rfl
        · rename_i hq hb
          rw [if_neg hq, if_neg hb, List.length_cons] at hle
          rw [charBodyLength_append h hr he a (by omega)]

/-! ### The quotes of a string -/

theorem sigils_of_ne {c : Char} {s : List Char} {seen : Sigils} (hd : c ≠ '$') (ha : c ≠ '@') :
    sigils seen (c :: s) = seen := by
  unfold sigils
  split <;> simp_all

theorem length_le_sigils (s : List Char) (seen : Sigils) : seen.length ≤ (sigils seen s).length := by
  fun_induction sigils seen s with
  | case1 seen r ih => simp only at ih; omega
  | case2 seen r hv => exact Nat.le_refl _
  | case3 seen r hv ih => simp only at ih; omega
  | case4 => exact Nat.le_refl _

/-- A sigil makes way for the next one. -/
theorem sigils_cons (c : Char) (seen : Sigils) :
    (∃ next : Sigils, next.length = seen.length + 1 ∧ ∀ s, sigils seen (c :: s) = sigils next s) ∨
      ∀ s, sigils seen (c :: s) = seen := by
  by_cases hd : c = '$'
  · exact .inl ⟨{ seen with length := seen.length + 1, interpolated := true }, rfl, fun s => by rw [hd, sigils]⟩
  · by_cases ha : c = '@'
    · subst ha
      cases hv : seen.verbatim
      · refine .inl ⟨{ seen with length := seen.length + 1, verbatim := true }, rfl, fun s => ?_⟩
        simp only [sigils, hv, Bool.false_eq_true, if_false]
      · exact .inr fun s => by simp only [sigils, hv, if_true]
    · exact .inr fun s => sigils_of_ne hd ha

/-- A quote behind the sigils is there for any text that goes on like it. -/
theorem sigils_eq : ∀ (s : List Char) (seen : Sigils) {body : List Char},
    s.drop ((sigils seen s).length - seen.length) = '"' :: body →
    ∃ g, s = g ++ '"' :: body ∧ (sigils seen s).length = seen.length + g.length ∧
      ∀ y, sigils seen (g ++ '"' :: y) = sigils seen s
  | [], seen, body, h => by simp at h
  | c :: s, seen, body, h => by
    rcases sigils_cons c seen with ⟨next, hn, hs⟩ | hs
    · have hlen := length_le_sigils s next
      rw [hs, show (sigils next s).length - seen.length = ((sigils next s).length - next.length) + 1 by omega,
        List.drop_succ_cons] at h
      obtain ⟨g, hg, hl, hy⟩ := sigils_eq s next h
      refine ⟨c :: g, by rw [List.cons_append, ← hg], by rw [hs, hl, List.length_cons]; omega, fun y => ?_⟩
      rw [List.cons_append, hs, hs, hy]
    · rw [hs, Nat.sub_self, List.drop_zero] at h
      refine ⟨[], h, by rw [hs]; rfl, fun y => ?_⟩
      rw [hs, List.nil_append, sigils_of_ne (by decide) (by decide)]

/-- Whether a quote stands behind the sigils is the same for alike texts. -/
theorem quote_of_alike {s t : List Char} (h : Alike s t) : ∀ seen : Sigils,
    (t.drop ((sigils seen t).length - seen.length)).head? = some '"' →
    (s.drop ((sigils seen s).length - seen.length)).head? = some '"' := by
  induction h with
  | @cut s t hs ht _ =>
    intro seen h
    cases t with
    | nil => simp at h
    | cons c t =>
      have hc := softHead_cons.1 ht
      have hd : c ≠ '$' := by rintro rfl; revert hc; decide
      have ha : c ≠ '@' := by rintro rfl; revert hc; decide
      rw [sigils_of_ne hd ha, Nat.sub_self, List.drop_zero, List.head?_cons, Option.some.injEq] at h
      subst h
      exact absurd hc (by decide)
  | @cons c s t h ih =>
    intro seen hq
    rcases sigils_cons c seen with ⟨next, hn, hs⟩ | hs
    · have hdrop : ∀ u, (c :: u).drop ((sigils seen (c :: u)).length - seen.length) =
          u.drop ((sigils next u).length - next.length) := by
        intro u
        have hlen := length_le_sigils u next
        rw [hs, show (sigils next u).length - seen.length = ((sigils next u).length - next.length) + 1 by omega,
          List.drop_succ_cons]
      rw [hdrop] at hq ⊢
      exact ih next hq
    · rw [hs, Nat.sub_self, List.drop_zero] at hq ⊢
      exact hq

/-! ### Raw strings -/

theorem isPrefixOf_append {p x y : List Char} (h : p.length ≤ x.length) :
    p.isPrefixOf (x ++ y) = p.isPrefixOf x := by
  rw [Bool.eq_iff_iff, List.isPrefixOf_iff_prefix, List.isPrefixOf_iff_prefix]
  exact ⟨fun hp => List.prefix_of_prefix_length_le hp (List.prefix_append x y) h,
    fun hp => hp.trans (List.prefix_append x y)⟩

theorem le_of_findFrom {p s : List Char} {i k : Nat} (h : findFrom i p s = some k) : i ≤ k := by
  fun_induction findFrom i p s with
  | case1 i _ => cases h; exact Nat.le_refl _
  | case2 i _ => cases h
  | case3 i c r _ => cases h; exact Nat.le_refl _
  | case4 i c r _ ih => have := ih h; omega

/-- What is found stands there. -/
theorem isPrefixOf_of_findFrom {p s : List Char} {i k : Nat} (h : findFrom i p s = some k) :
    p.isPrefixOf (s.drop (k - i)) = true := by
  have hle := le_of_findFrom h
  induction s generalizing i with
  | nil =>
    rw [findFrom] at h
    split at h
    · rename_i hp
      rw [List.isEmpty_iff.1 hp]
      rfl
    · cases h
  | cons c s ih =>
    rw [findFrom] at h
    split at h
    · rename_i hp
      cases h
      rwa [Nat.sub_self]
    · have hlt := le_of_findFrom h
      rw [show k - i = k - (i + 1) + 1 by omega]
      exact ih h hlt

/-- What is found inside a text is found there whatever follows. -/
theorem findFrom_append {p : List Char} : ∀ (x : List Char) {y : List Char} {i k : Nat},
    findFrom i p (x ++ y) = some k → k + p.length ≤ i + x.length → ∀ z, findFrom i p (x ++ z) = some k
  | [], y, i, k, h, hk, z => by
    have hi : i ≤ k := le_of_findFrom h
    have hp : p = [] := List.eq_nil_of_length_eq_zero (by simp only [List.length_nil] at hk; omega)
    subst hp
    simp only [List.length_nil] at hk
    have : k = i := by omega
    subst this
    cases z <;> simp [findFrom]
  | c :: x, y, i, k, h, hk, z => by
    have hle := le_of_findFrom h
    simp only [List.cons_append, findFrom] at h ⊢
    simp only [List.length_cons] at hk
    have hp : p.length ≤ (c :: x).length := by simp only [List.length_cons]; omega
    rw [← List.cons_append, isPrefixOf_append hp] at h ⊢
    split
    · rename_i hpre
      rw [if_pos hpre] at h
      exact h
    · rename_i hpre
      rw [if_neg hpre] at h
      exact findFrom_append x h (by omega) z

/-! ### Strings with quotes of their own -/

/-- One step of the search for the end of a string: how many characters are read, and in how many holes the search goes
on, if it does. -/
def bodyStep (v i : Bool) (h : Nat) (c : Char) (s : List Char) : Nat × Option Nat :=
  if h = 0 then
    if c == '"' then if v && s.head? == some '"' then (2, some 0) else (1, none)
    else if c == '\\' && !v then if s.isEmpty then (1, none) else (2, some 0)
    else if isBreakChar c && !v then (0, none)
    else if c == '{' && i then if s.head? == some '{' then (2, some 0) else (1, some 1)
    else (1, some 0)
  else if c == '{' then (1, some (h + 1))
  else if c == '}' then (1, some (h - 1))
  else if c == '\'' then (charBodyLength s + 1, some h)
  else if c == '"' || c == '$' || c == '@' then ((stringLength? (c :: s)).getD 1, some h)
  else (1, some h)

theorem stringBodyEnd_nil (v i : Bool) (h n : Nat) : stringBodyEnd v i h n [] = n := by rw [stringBodyEnd]

private theorem stringBodyEnd_cons (v i : Bool) (h n : Nat) (c : Char) (s : List Char) :
    stringBodyEnd v i h n (c :: s) =
      match (bodyStep v i h c s).2 with
      | none => n + (bodyStep v i h c s).1
      | some h' => stringBodyEnd v i h' (n + (bodyStep v i h c s).1) (s.drop ((bodyStep v i h c s).1 - 1)) := by
  rw [stringBodyEnd, bodyStep]
  by_cases hh : h = 0
  · subst hh
    simp only [if_true]
    by_cases hq : (c == '"') = true
    · by_cases hv : (v && s.head? == some '"') = true <;> simp [hq, hv]
    · by_cases hb : (c == '\\' && !v) = true
      · by_cases hs : s.isEmpty = true <;> simp [hq, hb, hs]
      · by_cases hn : (isBreakChar c && !v) = true
        · simp [hq, hb, hn]
        · by_cases ho : (c == '{' && i) = true
          · by_cases hd : (s.head? == some '{') = true <;> simp [hq, hb, hn, ho, hd]
          · simp [hq, hb, hn, ho]
  · by_cases ho : (c == '{') = true
    · simp [hh, ho]
    · by_cases hc : (c == '}') = true
      · simp [hh, ho, hc]
      · by_cases hq : (c == '\'') = true
        · simp [hh, ho, hc, hq, Nat.add_assoc, Nat.add_comm 1]
        · by_cases hs : (c == '"' || c == '$' || c == '@') = true
          · cases stringLength? (c :: s) <;> simp [hh, ho, hc, hq, hs]
          · simp [hh, ho, hc, hq, hs]

theorem stringBodyEnd_stop {v i : Bool} {h : Nat} {c : Char} {s : List Char} (ho : (bodyStep v i h c s).2 = none)
    (n : Nat) : stringBodyEnd v i h n (c :: s) = n + (bodyStep v i h c s).1 := by
  rw [stringBodyEnd_cons, ho]

theorem stringBodyEnd_step {v i : Bool} {h h' : Nat} {c : Char} {s : List Char}
    (ho : (bodyStep v i h c s).2 = some h') (n : Nat) :
    stringBodyEnd v i h n (c :: s) =
      stringBodyEnd v i h' (n + (bodyStep v i h c s).1) (s.drop ((bodyStep v i h c s).1 - 1)) := by
  rw [stringBodyEnd_cons, ho]

/-- The length of a string without its suffix, from what stands before its quotes. -/
def unsuffixedLength (before : Sigils) (body : List Char) : Nat :=
  if 3 ≤ quoteRun ('"' :: body) then before.length + rawLength (quoteRun ('"' :: body)) ('"' :: body)
  else stringBodyEnd before.verbatim before.interpolated 0 (before.length + 1) body

/-- A string starts with sigils and a quote. -/
theorem stringLength?_eq_some {s : List Char} {m : Nat} (h : stringLength? s = some m) :
    ∃ g body, s = g ++ '"' :: body ∧ (sigils ⟨0, false, false⟩ s).length = g.length ∧
      (∀ y, sigils ⟨0, false, false⟩ (g ++ '"' :: y) = sigils ⟨0, false, false⟩ s) ∧
      m = unsuffixedLength (sigils ⟨0, false, false⟩ s) body +
        suffixLength (s.drop (unsuffixedLength (sigils ⟨0, false, false⟩ s) body)) := by
  rw [stringLength?] at h
  split at h
  · rename_i body hbody
    obtain ⟨g, hg, hl, hy⟩ := sigils_eq s ⟨0, false, false⟩ (by simpa using hbody)
    exact ⟨g, body, hg, by simpa using hl, hy, (Option.some.inj h).symm⟩
  · cases h

/-- A character that is neither a sigil nor a quote starts no string. -/
theorem stringLength?_of_ne {c : Char} (hd : c ≠ '$') (ha : c ≠ '@') (hq : c ≠ '"') (s : List Char) :
    stringLength? (c :: s) = none := by
  cases hm : stringLength? (c :: s) with
  | none => rfl
  | some m =>
    obtain ⟨g, body, hg, hl, -⟩ := stringLength?_eq_some hm
    rw [sigils_of_ne hd ha] at hl
    rw [List.eq_nil_of_length_eq_zero hl.symm] at hg
    exact absurd (List.cons.inj hg).1 hq

theorem stringLength?_of_quote {g body : List Char}
    (hg : (sigils ⟨0, false, false⟩ (g ++ '"' :: body)).length = g.length) :
    stringLength? (g ++ '"' :: body) =
      some (unsuffixedLength (sigils ⟨0, false, false⟩ (g ++ '"' :: body)) body +
        suffixLength ((g ++ '"' :: body).drop
          (unsuffixedLength (sigils ⟨0, false, false⟩ (g ++ '"' :: body)) body))) := by
  rw [stringLength?]
  split
  · rename_i body' hbody
    rw [hg, List.drop_left] at hbody
    injection hbody with _ hbody
    subst hbody
    rfl
  · rename_i hne
    rw [hg, List.drop_left] at hne
    exact absurd rfl (hne body)

/-- Where no string starts, none starts in an alike text. -/
theorem stringLength?_eq_none {s t : List Char} (hs : Alike s t) (h : stringLength? s = none) :
    stringLength? t = none := by
  cases ht : stringLength? t with
  | none => rfl
  | some m =>
    obtain ⟨g, body, rfl, hg, -, -⟩ := stringLength?_eq_some ht
    have hq := quote_of_alike hs ⟨0, false, false⟩ (by simp [hg])
    obtain ⟨c, rest, hrest⟩ : ∃ c rest, s.drop (sigils ⟨0, false, false⟩ s).length = c :: rest := by
      cases hd : s.drop (sigils ⟨0, false, false⟩ s).length with
      | nil => simp [hd] at hq
      | cons c rest => exact ⟨c, rest, rfl⟩
    simp only [Nat.sub_zero, hrest, List.head?_cons, Option.some.injEq] at hq
    subst hq
    obtain ⟨g', rfl, hl, -⟩ := sigils_eq s ⟨0, false, false⟩ (by simpa using hrest)
    rw [stringLength?_of_quote (by simpa using hl)] at h
    cases h

/-! ### Bounds -/

theorem findFrom_le {p s : List Char} {i k : Nat} (h : findFrom i p s = some k) : k + p.length ≤ i + s.length := by
  fun_induction findFrom i p s with
  | case1 i hp => cases h; simp [List.isEmpty_iff.1 hp]
  | case2 i _ => cases h
  | case3 i c r hp =>
    cases h
    have := (List.isPrefixOf_iff_prefix.1 hp).length_le
    omega
  | case4 i c r _ ih => have := ih h; simp only [List.length_cons]; omega

theorem suffixLength_le (s : List Char) : suffixLength s ≤ s.length := by
  unfold suffixLength
  split
  · rename_i h
    rw [Bool.or_eq_true, List.isPrefixOf_iff_prefix, List.isPrefixOf_iff_prefix] at h
    exact h.elim (·.length_le) (·.length_le)
  · exact Nat.zero_le _

theorem rawLength_bounds (body : List Char) : 0 < rawLength (quoteRun ('"' :: body)) ('"' :: body) ∧
    rawLength (quoteRun ('"' :: body)) ('"' :: body) ≤ ('"' :: body).length := by
  have hq : 0 < quoteRun ('"' :: body) := by simp [quoteRun]
  unfold rawLength
  split
  · rename_i n hn
    have hle : quoteRun ('"' :: body) ≤ ('"' :: body).length := (List.takeWhile_prefix _).length_le
    have := findFrom_le hn
    simp only [List.length_replicate, List.length_drop] at this
    omega
  · simp

/-- A step reads something if the search goes on, and not past the end of the text. -/
theorem bodyStep_bounds {v i : Bool} {h : Nat} {c : Char} {s : List Char}
    (string : ∀ m, stringLength? (c :: s) = some m → 0 < m ∧ m ≤ (c :: s).length) :
    (bodyStep v i h c s).1 ≤ s.length + 1 ∧ ((bodyStep v i h c s).2.isSome → 0 < (bodyStep v i h c s).1) := by
  have hchar := charBodyLength_le s
  have hpos : ∀ d, (s.head? == some d) = true → 0 < s.length := by cases s <;> simp
  unfold bodyStep
  split
  · split
    · split
      · rename_i hq
        have := hpos '"' (Bool.and_eq_true_iff.1 hq).2
        simp only [Option.isSome_some]
        omega
      · simp
    · split
      · split
        · simp
        · rename_i hs
          have : 0 < s.length := List.length_pos_iff.2 (by simpa using hs)
          simp only [Option.isSome_some]
          omega
      · split
        · simp
        · split
          · split
            · rename_i hq
              have := hpos '{' hq
              simp only [Option.isSome_some]
              omega
            · simp
          · simp
  · split
    · simp
    · split
      · simp
      · split
        · simp only [Option.isSome_some]
          omega
        · split
          · cases hm : stringLength? (c :: s) with
            | none => simp
            | some m =>
              have := string m hm
              rw [List.length_cons] at this
              simpa using this.symm
          · simp

/-- **Strings and the search for their ends are told together**: a string by the text behind its quotes, and a search by
the string at its first character, if one starts there, and by the rest of the text. -/
theorem string_induction {Body Whole : List Char → Prop}
    (string : ∀ s, (∀ t, t.length < s.length → Body t) → Whole s) (nil : Body [])
    (cons : ∀ c s, Whole (c :: s) → (∀ t, t.length ≤ s.length → Body t) → Body (c :: s)) :
    (∀ s, Body s) ∧ ∀ s, Whole s := by
  have body : ∀ k s, s.length < k → Body s := by
    intro k
    induction k with
    | zero => exact fun s hs => absurd hs (Nat.not_lt_zero _)
    | succ k ih =>
      intro s hs
      cases s with
      | nil => exact nil
      | cons c s =>
        rw [List.length_cons] at hs
        refine cons c s (string _ fun t ht => ih t ?_) fun t ht => ih t (by omega)
        rw [List.length_cons] at ht
        omega
  exact ⟨fun s => body _ s (Nat.lt_succ_self _), fun s => string s fun t _ => body _ t (Nat.lt_succ_self _)⟩

/-- A search for the end of a string goes forward, and not past the end of the text. -/
theorem string_bounds :
    (∀ s v i h n, n ≤ stringBodyEnd v i h n s ∧ stringBodyEnd v i h n s ≤ n + s.length) ∧
      ∀ s m, stringLength? s = some m → 0 < m ∧ m ≤ s.length := by
  refine string_induction ?string ?nil ?cons
  case string =>
    intro s body m hm
    obtain ⟨g, b, rfl, hg, -, rfl⟩ := stringLength?_eq_some hm
    have hu : 0 < unsuffixedLength (sigils ⟨0, false, false⟩ (g ++ '"' :: b)) b ∧
        unsuffixedLength (sigils ⟨0, false, false⟩ (g ++ '"' :: b)) b ≤ (g ++ '"' :: b).length := by
      rw [List.length_append, List.length_cons]
      unfold unsuffixedLength
      rw [hg]
      split
      · have := rawLength_bounds b
        rw [List.length_cons] at this
        omega
      · have := body b (by rw [List.length_append, List.length_cons]; omega)
          (sigils ⟨0, false, false⟩ (g ++ '"' :: b)).verbatim
          (sigils ⟨0, false, false⟩ (g ++ '"' :: b)).interpolated 0 (g.length + 1)
        omega
    have hsuf := suffixLength_le ((g ++ '"' :: b).drop
      (unsuffixedLength (sigils ⟨0, false, false⟩ (g ++ '"' :: b)) b))
    rw [List.length_drop] at hsuf
    omega
  case nil =>
    intro v i h n
    rw [stringBodyEnd_nil]
    exact ⟨Nat.le_refl _, Nat.le_refl _⟩
  case cons =>
    intro c s string body v i h n
    have hstep := bodyStep_bounds (v := v) (i := i) (h := h) string
    rw [List.length_cons]
    cases ho : (bodyStep v i h c s).2 with
    | none =>
      rw [stringBodyEnd_stop ho]
      omega
    | some h' =>
      rw [stringBodyEnd_step ho]
      have := body (s.drop ((bodyStep v i h c s).1 - 1)) (by rw [List.length_drop]; omega) v i h'
        (n + (bodyStep v i h c s).1)
      rw [List.length_drop] at this
      rw [ho, Option.isSome_some] at hstep
      have hpos := hstep.2 rfl
      omega

theorem le_stringBodyEnd (v i : Bool) (h n : Nat) (s : List Char) : n ≤ stringBodyEnd v i h n s :=
  (string_bounds.1 s v i h n).1

theorem stringBodyEnd_le (v i : Bool) (h n : Nat) (s : List Char) : stringBodyEnd v i h n s ≤ n + s.length :=
  (string_bounds.1 s v i h n).2

theorem stringLength?_bounds {s : List Char} {m : Nat} (h : stringLength? s = some m) : 0 < m ∧ m ≤ s.length :=
  string_bounds.2 s m h

/-! ### What follows a string -/

theorem suffixLength_of_alike (h : Alike r r') (a : List Char) :
    suffixLength (a ++ r') = suffixLength (a ++ r) := by
  have key : ∀ p : List Char, Avoids isSoft p → p.isPrefixOf (a ++ r) = p.isPrefixOf (a ++ r') :=
    fun p hp => (h.append a).isPrefixOf hp
  unfold suffixLength
  rw [key _ (by decide), key _ (by decide)]

theorem bodyStep_append (h : Alike r r') (hr : r ≠ []) {v i : Bool} {n : Nat} {c : Char} {a : List Char}
    (he : LineEnd r → LineEnd r')
    (string : ∀ m, stringLength? (c :: a ++ r) = some m → m ≤ (c :: a).length →
      stringLength? (c :: a ++ r') = some m)
    (hle : (bodyStep v i n c (a ++ r)).1 ≤ a.length + 1) :
    bodyStep v i n c (a ++ r') = bodyStep v i n c (a ++ r) := by
  have head : ∀ d, isSoft d = false → ((a ++ r').head? == some d) = ((a ++ r).head? == some d) := by
    intro d hd
    rw [Bool.eq_iff_iff, beq_iff_eq, beq_iff_eq]
    exact ((h.append a).head_eq_iff hd).symm
  have hne : (a ++ r).isEmpty = false := by simp [hr]
  unfold bodyStep at hle ⊢
  rw [head '"' (by decide), head '{' (by decide)]
  by_cases hn : n = 0
  · subst hn
    simp only [if_true, hne, Bool.false_eq_true, if_false] at hle ⊢
    by_cases hq : (c == '"') = true
    · simp only [hq, if_true]
    · by_cases hb : (c == '\\' && !v) = true
      · simp only [hq, hb, if_true, if_false, Bool.false_eq_true] at hle ⊢
        cases a with
        | nil => simp at hle
        | cons d a => simp
      · simp only [hq, hb, if_false, Bool.false_eq_true]
  · by_cases ho : (c == '{') = true
    · simp only [hn, ho, if_true, if_false]
    · by_cases hd : (c == '}') = true
      · simp only [hn, ho, hd, if_true, if_false, Bool.false_eq_true]
      · by_cases hc : (c == '\'') = true
        · simp only [hn, ho, hd, hc, if_false, if_true, Bool.false_eq_true] at hle ⊢
          rw [charBodyLength_append h hr he a (by omega)]
        · by_cases hs : (c == '"' || c == '$' || c == '@') = true
          · simp only [hn, ho, hd, hc, hs, if_true, if_false, Bool.false_eq_true] at hle ⊢
            cases hm : stringLength? (c :: (a ++ r)) with
            | none =>
              have := stringLength?_eq_none (h.append (c :: a)) hm
              rw [← List.cons_append, this]
            | some m =>
              rw [hm, Option.getD_some] at hle
              rw [← List.cons_append, string m hm (by simpa using hle)]
          · simp only [hn, ho, hd, hc, hs, if_false, Bool.false_eq_true]

/-- The search stops in front of a line break only, outside of holes, in a string that is not verbatim. -/
theorem break_of_bodyStep {v i : Bool} {n : Nat} {c : Char} {s : List Char} (h : (bodyStep v i n c s).1 = 0)
    (hpos : (bodyStep v i n c s).2.isSome → 0 < (bodyStep v i n c s).1) :
    n = 0 ∧ isBreakChar c = true ∧ v = false := by
  have hnone : (bodyStep v i n c s).2 = none := by
    cases ho : (bodyStep v i n c s).2 with
    | none => rfl
    | some d => rw [ho, Option.isSome_some] at hpos; have := hpos rfl; omega
  unfold bodyStep at h hnone
  revert h hnone
  repeat' split
  all_goals simp_all

/-- A search that reads nothing more stands in front of a line break. -/
theorem break_of_stringBodyEnd {v i : Bool} {h n : Nat} {c : Char} {s : List Char}
    (hle : stringBodyEnd v i h n (c :: s) ≤ n) : h = 0 ∧ isBreakChar c = true ∧ v = false := by
  have hb := bodyStep_bounds (v := v) (i := i) (h := h) (c := c) (s := s) fun m hm => stringLength?_bounds hm
  refine break_of_bodyStep ?_ hb.2
  cases ho : (bodyStep v i h c s).2 with
  | none =>
    rw [stringBodyEnd_stop ho] at hle
    omega
  | some h' =>
    rw [stringBodyEnd_step ho] at hle
    rw [ho, Option.isSome_some] at hb
    have hpos := hb.2 rfl
    have := le_stringBodyEnd v i h' (n + (bodyStep v i h c s).1) (s.drop ((bodyStep v i h c s).1 - 1))
    omega

theorem bodyStep_break {v i : Bool} {c : Char} {s : List Char} (hc : isBreakChar c = true) (hv : v = false) :
    bodyStep v i 0 c s = (0, none) := by
  have hq : (c == '"') = false ∧ (c == '\\') = false := by
    simp only [isBreakChar, Bool.or_eq_true, beq_iff_eq] at hc
    rcases hc with rfl | rfl <;> decide
  simp [bodyStep, hq.1, hq.2, hc, hv]

theorem lt_unsuffixedLength (before : Sigils) (body : List Char) : before.length < unsuffixedLength before body := by
  unfold unsuffixedLength
  split
  · have := rawLength_bounds body
    omega
  · exact le_stringBodyEnd _ _ _ _ _

/-- A place inside the front of a text is one of the front. -/
theorem quote_inside {a r g body : List Char} {c : Char} (hs : a ++ r = g ++ c :: body) (hg : g.length < a.length) :
    ∃ b, a = g ++ c :: b ∧ body = b ++ r := by
  rcases List.append_eq_append_iff.1 hs with ⟨l, rfl, -⟩ | ⟨l, rfl, hl⟩
  · rw [List.length_append] at hg
    omega
  · cases l with
    | nil => simp at hg
    | cons d b =>
      injection hl with hd hb
      exact ⟨b, by rw [hd], hb⟩

theorem rawLength_append {q : Nat} {x : List Char} (hr : r ≠ []) (hle : rawLength q (x ++ r) ≤ x.length) :
    rawLength q (x ++ r') = rawLength q (x ++ r) := by
  cases hn : find? (List.replicate q '"') ((x ++ r).drop q) with
  | none =>
    simp only [rawLength, hn, List.length_append] at hle
    have := List.length_pos_iff.2 hr
    omega
  | some n =>
    simp only [rawLength, hn] at hle
    have hq : q ≤ x.length := by omega
    have hn' := hn
    rw [List.drop_append_of_le_length hq] at hn'
    have := findFrom_append (x.drop q) hn' (by simp only [List.length_replicate, List.length_drop]; omega) r'
    rw [← List.drop_append_of_le_length hq] at this
    simp only [rawLength, hn]
    rw [show find? (List.replicate q '"') ((x ++ r').drop q) = some n from this]

theorem quoteRun_of_alike (h : Alike r r') (x : List Char) : quoteRun (x ++ r') = quoteRun (x ++ r) := by
  have hq := ((h.append x).takeWhile (p := (· == '"'))
    (fun c hc => beq_eq_false_iff_ne.2 (by rintro rfl; exact absurd hc (by decide)))).1
  unfold quoteRun
  rw [hq]

theorem unsuffixedLength_append (h : Alike r r') (hr : r ≠ []) {before : Sigils} {b : List Char}
    (body : ∀ v i d n, stringBodyEnd v i d n (b ++ r) ≤ n + b.length →
      stringBodyEnd v i d n (b ++ r') = stringBodyEnd v i d n (b ++ r))
    (hle : unsuffixedLength before (b ++ r) ≤ before.length + 1 + b.length) :
    unsuffixedLength before (b ++ r') = unsuffixedLength before (b ++ r) := by
  have hQ := quoteRun_of_alike h ('"' :: b)
  rw [List.cons_append, List.cons_append] at hQ
  unfold unsuffixedLength at hle ⊢
  rw [hQ]
  split
  · rename_i h3
    rw [if_pos h3] at hle
    rw [← List.cons_append, ← List.cons_append, rawLength_append hr]
    rw [List.cons_append, List.length_cons]
    omega
  · rename_i h3
    rw [if_neg h3] at hle
    exact body _ _ _ _ (by omega)

/-- A string that ends inside a text does not see what follows. -/
theorem string_append (h : Alike r r') (hr : r ≠ []) (he : LineEnd r → LineEnd r') :
    (∀ a v i d n, stringBodyEnd v i d n (a ++ r) ≤ n + a.length →
      stringBodyEnd v i d n (a ++ r') = stringBodyEnd v i d n (a ++ r)) ∧
    ∀ a m, stringLength? (a ++ r) = some m → m ≤ a.length → stringLength? (a ++ r') = some m := by
  refine string_induction ?string ?nil ?cons
  case string =>
    intro a body m hm hle
    obtain ⟨g, b', hs, hg, hy, hu⟩ := stringLength?_eq_some hm
    have hgm : g.length < a.length := by
      have := lt_unsuffixedLength (sigils ⟨0, false, false⟩ (a ++ r)) b'
      omega
    obtain ⟨b, rfl, rfl⟩ := quote_inside hs hgm
    have hle' : unsuffixedLength (sigils ⟨0, false, false⟩ (g ++ '"' :: b ++ r)) (b ++ r) ≤
      (g ++ '"' :: b).length := Nat.le_trans (Nat.le_add_right _ _) (hu ▸ hle)
    have hu' : unsuffixedLength (sigils ⟨0, false, false⟩ (g ++ '"' :: b ++ r)) (b ++ r') =
        unsuffixedLength (sigils ⟨0, false, false⟩ (g ++ '"' :: b ++ r)) (b ++ r) := by
      rw [List.length_append, List.length_cons] at hle'
      exact unsuffixedLength_append h hr (body b (by rw [List.length_append, List.length_cons]; omega)) (by omega)
    have hσ : sigils ⟨0, false, false⟩ (g ++ '"' :: (b ++ r')) = sigils ⟨0, false, false⟩ (g ++ '"' :: b ++ r) :=
      hy (b ++ r')
    rw [List.append_assoc, List.cons_append, stringLength?_of_quote (by rw [hσ, hg]), hσ, hu', hu]
    rw [← List.cons_append, ← List.append_assoc, List.drop_append_of_le_length hle',
      List.drop_append_of_le_length hle', suffixLength_of_alike h]
  case nil =>
    intro v i d n hle
    obtain ⟨c, s, rfl⟩ := List.exists_cons_of_ne_nil hr
    rw [List.nil_append, List.length_nil, Nat.add_zero] at hle
    obtain ⟨rfl, hc, hv⟩ := break_of_stringBodyEnd hle
    have stop : ∀ t, LineEnd t → stringBodyEnd v i 0 n t = n := by
      intro t ht
      cases t with
      | nil => rw [stringBodyEnd_nil]
      | cons c t =>
        have hstop := bodyStep_break (i := i) (s := t) (lineEnd_cons.1 ht) hv
        rw [stringBodyEnd_stop (by rw [hstop]), hstop]
        rfl
    rw [List.nil_append, List.nil_append, stop _ (lineEnd_cons.2 hc), stop _ (he (lineEnd_cons.2 hc))]
  case cons =>
    intro c a string body v i d n hle
    have hb := bodyStep_bounds (v := v) (i := i) (h := d) (c := c) (s := a ++ r) fun m hm => stringLength?_bounds hm
    rw [List.length_cons] at hle
    rw [List.cons_append, List.cons_append]
    rw [List.cons_append] at hle
    cases ho : (bodyStep v i d c (a ++ r)).2 with
    | none =>
      rw [stringBodyEnd_stop ho] at hle ⊢
      have hk := bodyStep_append h hr (v := v) (i := i) (n := d) he string (by omega)
      rw [stringBodyEnd_stop (by rw [hk, ho]), hk]
    | some d' =>
      rw [stringBodyEnd_step ho] at hle ⊢
      rw [ho, Option.isSome_some] at hb
      have hpos := hb.2 rfl
      have hge := le_stringBodyEnd v i d' (n + (bodyStep v i d c (a ++ r)).1)
        ((a ++ r).drop ((bodyStep v i d c (a ++ r)).1 - 1))
      have hk := bodyStep_append h hr (v := v) (i := i) (n := d) he string (by omega)
      have hread : (bodyStep v i d c (a ++ r)).1 - 1 ≤ a.length := by omega
      rw [stringBodyEnd_step (by rw [hk, ho]), hk, List.drop_append_of_le_length hread,
        List.drop_append_of_le_length hread]
      rw [List.drop_append_of_le_length hread] at hle
      exact body (a.drop _) (by rw [List.length_drop]; omega) v i d' _ (by rw [List.length_drop]; omega)

/-- **A string that ends inside a text does not see what follows.** -/
theorem stringLength?_append (h : Alike r r') (hr : r ≠ []) (he : LineEnd r → LineEnd r') {a : List Char} {m : Nat}
    (hm : stringLength? (a ++ r) = some m) (hle : m ≤ a.length) : stringLength? (a ++ r') = some m :=
  (string_append h hr he).2 a m hm hle

/-! ### A line break put at the end of the text -/

theorem le_charBodyLength_append_break (e : List Char) : ∀ s : List Char, charBodyLength s = s.length →
    s.length ≤ charBodyLength (s ++ e)
  | [], _ => Nat.zero_le _
  | c :: s, h => by
    by_cases hc : c = '\\'
    · subst hc
      cases s with
      | nil =>
        cases e with
        | nil => exact Nat.le_of_eq h.symm
        | cons d e => simp [charBodyLength]
      | cons d s =>
        simp only [charBodyLength, List.cons_append, List.length_cons] at h ⊢
        have := le_charBodyLength_append_break e s (by omega)
        omega
    · rw [charBodyLength_cons hc] at h
      rw [List.cons_append, charBodyLength_cons hc, List.length_cons]
      rw [List.length_cons] at h
      split
      · rename_i hq
        rw [if_pos hq] at h
        omega
      · rename_i hq
        rw [if_neg hq] at h
        split
        · rename_i hb
          rw [if_pos hb] at h
          omega
        · rename_i hb
          rw [if_neg hb] at h
          have := le_charBodyLength_append_break e s (by omega)
          omega

/-- A step in the text of a string that reaches the end, with a break put there. -/
theorem le_bodyStep_text_append_break (e : List Char) {v i : Bool} {c : Char} {s : List Char}
    (h : (bodyStep v i 0 c s).1 = s.length + 1) : s.length + 1 ≤ (bodyStep v i 0 c (s ++ e)).1 := by
  have head : ∀ d, (s.head? == some d) = true → ((s ++ e).head? == some d) = true := by
    intro d
    cases s <;> simp
  unfold bodyStep at h ⊢
  simp only [if_true] at h ⊢
  by_cases hq : (c == '"') = true
  · simp only [hq, if_true] at h ⊢
    by_cases hv : (v && s.head? == some '"') = true
    · have hv' := Bool.and_eq_true_iff.1 hv
      rw [if_pos hv] at h
      rw [if_pos (Bool.and_eq_true_iff.2 ⟨hv'.1, head _ hv'.2⟩)]
      exact Nat.le_of_eq h.symm
    · rw [if_neg hv] at h
      split <;> simp only at h ⊢ <;> omega
  · by_cases hb : (c == '\\' && !v) = true
    · simp only [hq, hb, if_true, if_false, Bool.false_eq_true] at h ⊢
      cases s with
      | nil => split <;> simp
      | cons d s => simpa using h
    · simp only [hq, hb, if_false, Bool.false_eq_true] at h ⊢
      split
      · rename_i hk
        rw [if_pos hk] at h
        simp at h
      · rename_i hk
        rw [if_neg hk] at h
        by_cases ho : (c == '{' && i) = true
        · simp only [ho, if_true] at h ⊢
          by_cases hd : (s.head? == some '{') = true
          · rw [if_pos hd] at h
            rw [if_pos (head _ hd)]
            exact Nat.le_of_eq h.symm
          · rw [if_neg hd] at h
            split <;> simp only at h ⊢ <;> omega
        · simp only [ho, if_false, Bool.false_eq_true] at h ⊢
          omega

/-- A step in a hole of a string that reaches the end, with a break put there. -/
theorem le_bodyStep_hole_append_break (he : LineEnd e) {v i : Bool} {n : Nat} {c : Char} {s : List Char} (hn : n ≠ 0)
    (string : stringLength? (c :: s) = some (c :: s).length →
      ∃ m, stringLength? (c :: s ++ e) = some m ∧ (c :: s).length ≤ m)
    (h : (bodyStep v i n c s).1 = s.length + 1) : s.length + 1 ≤ (bodyStep v i n c (s ++ e)).1 := by
  unfold bodyStep at h ⊢
  by_cases ho : (c == '{') = true
  · simp only [hn, ho, if_true, if_false] at h ⊢
    omega
  by_cases hd : (c == '}') = true
  · simp only [hn, ho, hd, if_true, if_false, Bool.false_eq_true] at h ⊢
    omega
  by_cases hc : (c == '\'') = true
  · simp only [hn, ho, hd, hc, if_true, if_false, Bool.false_eq_true] at h ⊢
    have := le_charBodyLength_append_break e s (by omega)
    omega
  by_cases hs : (c == '"' || c == '$' || c == '@') = true
  · simp only [hn, ho, hd, hc, hs, if_true, if_false, Bool.false_eq_true] at h ⊢
    cases hm : stringLength? (c :: s) with
    | none =>
      have hnone := stringLength?_eq_none (Alike.append_lineEnd (c :: s) he) hm
      rw [hm] at h
      rw [← List.cons_append, hnone]
      exact Nat.le_of_eq h.symm
    | some m =>
      rw [hm, Option.getD_some] at h
      obtain ⟨m', hm', hle⟩ := string (by rw [hm, h]; rfl)
      rw [← List.cons_append, hm', Option.getD_some]
      exact hle
  · simp only [hn, ho, hd, hc, hs, if_false, Bool.false_eq_true] at h ⊢
    omega

theorem le_bodyStep_append_break (he : LineEnd e) {v i : Bool} {n : Nat} {c : Char} {s : List Char}
    (string : stringLength? (c :: s) = some (c :: s).length →
      ∃ m, stringLength? (c :: s ++ e) = some m ∧ (c :: s).length ≤ m)
    (h : (bodyStep v i n c s).1 = s.length + 1) : s.length + 1 ≤ (bodyStep v i n c (s ++ e)).1 := by
  cases n with
  | zero => exact le_bodyStep_text_append_break e h
  | succ n => exact le_bodyStep_hole_append_break he n.succ_ne_zero string h

theorem le_rawLength_append {q : Nat} (x e : List Char) (hx : rawLength q x = x.length) :
    x.length ≤ rawLength q (x ++ e) := by
  cases hn : find? (List.replicate q '"') ((x ++ e).drop q) with
  | none => simp only [rawLength, hn, List.length_append]; omega
  | some n =>
    simp only [rawLength, hn]
    by_cases hle : q + n + q ≤ x.length
    · have hn' := hn
      rw [List.drop_append_of_le_length (by omega)] at hn'
      have := findFrom_append (x.drop q) hn' (by simp only [List.length_replicate, List.length_drop]; omega) []
      rw [List.append_nil] at this
      rw [rawLength, show find? (List.replicate q '"') (x.drop q) = some n from this] at hx
      exact Nat.le_of_eq hx.symm
    · omega

theorem unsuffixedLength_le (before : Sigils) (body : List Char) :
    unsuffixedLength before body ≤ before.length + 1 + body.length := by
  unfold unsuffixedLength
  split
  · have := rawLength_bounds body
    rw [List.length_cons] at this
    omega
  · exact stringBodyEnd_le _ _ _ _ _

theorem le_unsuffixedLength_append_break (he : LineEnd e) {before : Sigils} {b : List Char}
    (body : ∀ v i d n, stringBodyEnd v i d n b = n + b.length → n + b.length ≤ stringBodyEnd v i d n (b ++ e))
    (h : unsuffixedLength before b = before.length + 1 + b.length) :
    before.length + 1 + b.length ≤ unsuffixedLength before (b ++ e) := by
  have hQ := quoteRun_of_alike (Alike.append_lineEnd [] he) ('"' :: b)
  rw [List.append_nil, List.nil_append, List.cons_append] at hQ
  unfold unsuffixedLength at h ⊢
  rw [hQ]
  split
  · rename_i h3
    rw [if_pos h3] at h
    have := le_rawLength_append ('"' :: b) e (q := quoteRun ('"' :: b)) (by rw [List.length_cons]; omega)
    rw [List.length_cons, List.cons_append] at this
    omega
  · rename_i h3
    rw [if_neg h3] at h
    exact body _ _ _ _ h

theorem exists_append_of_le {s : List Char} {k : Nat} (h : k ≤ s.length) : ∃ x y, s = x ++ y ∧ x.length = k :=
  ⟨s.take k, s.drop k, (List.take_append_drop k s).symm, List.length_take_of_le h⟩

/-- What ends before the end of a text does not see a break there. -/
theorem unsuffixedLength_append_break (he : LineEnd e) {before : Sigils} {b : List Char}
    (h : unsuffixedLength before b < before.length + 1 + b.length) :
    unsuffixedLength before (b ++ e) = unsuffixedLength before b := by
  have hpos := lt_unsuffixedLength before b
  obtain ⟨x, y, rfl, hx⟩ := exists_append_of_le (s := b) (k := unsuffixedLength before b - (before.length + 1))
    (by omega)
  rw [List.length_append] at h
  have hy : y ≠ [] := by
    rintro rfl
    rw [List.length_nil] at h
    omega
  have hye := Alike.append_lineEnd y he
  rw [List.append_assoc]
  exact unsuffixedLength_append hye hy ((string_append hye hy (lineEnd_append hy)).1 x) (by omega)

/-- A step that ends before the end of a text does not see a break there. -/
theorem bodyStep_append_break (he : LineEnd e) {v i : Bool} {d : Nat} {c : Char} {s : List Char}
    (hpos : 0 < (bodyStep v i d c s).1) (h : (bodyStep v i d c s).1 ≤ s.length) :
    bodyStep v i d c (s ++ e) = bodyStep v i d c s := by
  obtain ⟨x, y, rfl, hx⟩ := exists_append_of_le (s := s) (k := (bodyStep v i d c s).1 - 1) (by omega)
  rw [List.length_append] at h
  have hy : y ≠ [] := by
    rintro rfl
    rw [List.length_nil] at h
    omega
  have hye := Alike.append_lineEnd y he
  rw [List.append_assoc]
  exact bodyStep_append hye hy (lineEnd_append hy) ((string_append hye hy (lineEnd_append hy)).2 (c :: x)) (by omega)

/-- A string that reaches the end of a text reaches at least as far when a line break is put there. -/
theorem le_string_append_break (he : LineEnd e) :
    (∀ s v i d n, stringBodyEnd v i d n s = n + s.length → n + s.length ≤ stringBodyEnd v i d n (s ++ e)) ∧
      ∀ s : List Char, stringLength? s = some s.length → ∃ m, stringLength? (s ++ e) = some m ∧ s.length ≤ m := by
  refine string_induction ?string ?nil ?cons
  case string =>
    intro s body hm
    obtain ⟨g, b, rfl, hg, hy, hu⟩ := stringLength?_eq_some hm
    rw [List.length_append, List.length_cons] at hu
    have hσ : sigils ⟨0, false, false⟩ (g ++ '"' :: (b ++ e)) = sigils ⟨0, false, false⟩ (g ++ '"' :: b) :=
      hy (b ++ e)
    have hule := unsuffixedLength_le (sigils ⟨0, false, false⟩ (g ++ '"' :: b)) b
    rw [List.append_assoc, List.cons_append, stringLength?_of_quote (by rw [hσ, hg]), hσ]
    refine ⟨_, rfl, ?_⟩
    rw [List.length_append, List.length_cons]
    generalize sigils ⟨0, false, false⟩ (g ++ '"' :: b) = before at *
    by_cases hfull : unsuffixedLength before b = before.length + 1 + b.length
    · have := le_unsuffixedLength_append_break he
        (body b (by rw [List.length_append, List.length_cons]; omega)) hfull
      omega
    · -- Only the suffix reaches the end, so what stands before it does not see the break.
      have hsuf := suffixLength_of_alike (Alike.append_lineEnd [] he)
        ((g ++ '"' :: b).drop (unsuffixedLength before b))
      rw [List.append_nil, List.nil_append, ← List.drop_append_of_le_length (by simp; omega)] at hsuf
      refine Nat.le_of_eq ?_
      rw [unsuffixedLength_append_break he (by omega), ← List.cons_append, ← List.append_assoc, hsuf, ← hu]
  case nil => exact fun v i d n _ => le_stringBodyEnd _ _ _ _ _
  case cons =>
    intro c s string body v i d n hfull
    have hb := bodyStep_bounds (v := v) (i := i) (h := d) (c := c) (s := s) fun m hm => stringLength?_bounds hm
    rw [List.length_cons] at hfull ⊢
    rw [List.cons_append]
    by_cases hk : (bodyStep v i d c s).1 = s.length + 1
    · have hle := le_bodyStep_append_break he (v := v) (i := i) (n := d) string hk
      cases ho : (bodyStep v i d c (s ++ e)).2 with
      | none => rw [stringBodyEnd_stop ho]; omega
      | some d' =>
        rw [stringBodyEnd_step ho]
        have := le_stringBodyEnd v i d' (n + (bodyStep v i d c (s ++ e)).1)
          ((s ++ e).drop ((bodyStep v i d c (s ++ e)).1 - 1))
        omega
    · cases ho : (bodyStep v i d c s).2 with
      | none =>
        rw [stringBodyEnd_stop ho] at hfull
        omega
      | some d' =>
        rw [ho, Option.isSome_some] at hb
        have hpos := hb.2 rfl
        have hsame := bodyStep_append_break he hpos (by omega)
        rw [stringBodyEnd_step ho] at hfull
        rw [stringBodyEnd_step (by rw [hsame, ho]), hsame, List.drop_append_of_le_length (by omega)]
        have := body (s.drop ((bodyStep v i d c s).1 - 1)) (by rw [List.length_drop]; omega) v i d'
          (n + (bodyStep v i d c s).1) (by rw [hfull, List.length_drop]; omega)
        rw [List.length_drop] at this
        omega

/-- **A string that reaches the end of a text reaches at least as far when a line break is put there.** -/
theorem le_stringLength?_append_break (he : LineEnd e) {s : List Char} (h : stringLength? s = some s.length) :
    ∃ m, stringLength? (s ++ e) = some m ∧ s.length ≤ m :=
  (le_string_append_break he).2 s h

end LayoutLint.Literal
