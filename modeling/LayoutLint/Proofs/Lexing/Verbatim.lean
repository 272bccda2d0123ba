import LayoutLint.Proofs.Lexing.Escapes
import LayoutLint.Proofs.Lexing.Pieces
import Mathlib.Data.List.TakeDrop
/-!
# Verbatim — strings that write their quotes twice

A verbatim string is read back exactly when its characters start with no quote (`stringBodyEnd_verbatim`). Quotes that
they start with, doubled behind the opening one, are counted as the fence of a raw string. The string then ends where
that many quotes stand again (`rawLength_eq_iff`), which is its own end if its characters end in as many quotes as they
start with and hold no more of them in one place (`verbatim_readBack`).
-/
namespace LayoutLint

namespace Literal

open Text (find? findFrom)

/-! ### The first place of a pattern -/

/-- A pattern that stands in a text is found, there or before. -/
theorem findFrom_of_append {p v : List Char} : ∀ (u : List Char) (i : Nat),
    ∃ k ≤ i + u.length, findFrom i p (u ++ (p ++ v)) = some k
  | [], i => by
    refine ⟨i, Nat.le_add_right _ _, ?_⟩
    rw [List.nil_append]
    cases h : p ++ v with
    | nil =>
      rw [findFrom, (List.append_eq_nil_iff.1 h).1]
      rfl
    | cons c r => rw [findFrom, ← h, if_pos (List.isPrefixOf_iff_prefix.2 (List.prefix_append p v))]
  | c :: u, i => by
    rw [List.cons_append, findFrom]
    split
    · exact ⟨i, Nat.le_add_right _ _, rfl⟩
    · obtain ⟨k, hk, hfound⟩ := findFrom_of_append u (i + 1)
      exact ⟨k, by rw [List.length_cons]; omega, hfound⟩

/-- What is not found stands nowhere. -/
theorem not_infix_of_find? {p s : List Char} (h : find? p s = none) : ¬ p <:+: s := by
  rintro ⟨u, v, rfl⟩
  obtain ⟨k, -, hk⟩ := findFrom_of_append (p := p) (v := v) u 0
  rw [List.append_assoc] at h
  exact nomatch h.symm.trans hk

theorem find?_of_absent {p s : List Char} (h : ¬ p <:+: s) : find? p s = none := by
  cases hk : find? p s with
  | none => rfl
  | some k =>
    have hstart := List.isPrefixOf_iff_prefix.1 (isPrefixOf_of_findFrom hk)
    exact absurd (hstart.isInfix.trans (List.drop_suffix _ _).isInfix) h

/-- **The first place of a pattern ends with the front of a text** when the front ends in the pattern and does not hold
it before. -/
theorem find?_eq_iff {p a t : List Char} (hp : p ≠ []) (hpa : p.length ≤ a.length) :
    find? p (a ++ t) = some (a.length - p.length) ↔ p <:+ a ∧ ¬ p <:+: a.dropLast := by
  have hpos := List.length_pos_iff.2 hp
  constructor
  · intro h
    refine ⟨?_, ?_⟩
    · have hprefix := isPrefixOf_of_findFrom h
      rw [Nat.sub_zero, List.drop_append_of_le_length (by omega),
        isPrefixOf_append (by rw [List.length_drop]; omega)] at hprefix
      have hsame := (List.isPrefixOf_iff_prefix.1 hprefix).eq_of_length (by rw [List.length_drop]; omega)
      rw [hsame]
      exact List.drop_suffix _ _
    · rintro ⟨u, v, huv⟩
      have hlen := congrArg List.length huv
      simp only [List.length_append, List.length_dropLast] at hlen
      have hsplit : a ++ t = u ++ (p ++ (v ++ (a.drop (a.length - 1) ++ t))) := by
        rw [← List.append_assoc p, ← List.append_assoc u, ← List.append_assoc u, huv, List.dropLast_eq_take,
          ← List.append_assoc, List.take_append_drop]
      obtain ⟨k, hk, hfound⟩ := findFrom_of_append (p := p) (v := v ++ (a.drop (a.length - 1) ++ t)) u 0
      rw [← hsplit, show findFrom 0 p (a ++ t) = _ from h, Option.some.injEq] at hfound
      omega
  · rintro ⟨⟨u, rfl⟩, hfirst⟩
    obtain ⟨k, hk, hfound⟩ := findFrom_of_append (p := p) (v := t) u 0
    rw [List.append_assoc, List.length_append, Nat.add_sub_cancel]
    refine hfound.trans (congrArg some (Nat.le_antisymm (by omega) (Nat.le_of_not_lt fun hlt => hfirst ?_)))
    -- Found before, the pattern ends in front of the last character.
    have hstart := List.isPrefixOf_iff_prefix.1 (isPrefixOf_of_findFrom hfound)
    rw [Nat.sub_zero, ← List.append_assoc, List.drop_append_of_le_length (by rw [List.length_append]; omega)] at hstart
    have hinside : p <+: ((u ++ p).drop k).dropLast := by
      refine List.prefix_of_prefix_length_le hstart ?_ ?_
      · exact (List.dropLast_prefix _).trans (List.prefix_append _ _)
      · rw [List.length_dropLast, List.length_drop, List.length_append]
        omega
    rw [List.dropLast_drop_eq_drop_dropLast] at hinside
    exact hinside.isInfix.trans (List.drop_suffix _ _).isInfix

/-- **A raw string ends with the front of a text** when the front holds its fence nowhere before, and ends in it or is
all of the text. -/
theorem rawLength_eq_iff {q : Nat} {x a t : List Char} (hq : 0 < q) (hx : x.length = q) :
    rawLength q (x ++ (a ++ t)) = q + a.length ↔
      ¬ List.replicate q '"' <:+: a.dropLast ∧ (List.replicate q '"' <:+ a ∨ t = []) := by
  have hp : List.replicate q '"' ≠ [] := by simp; omega
  rw [rawLength, ← hx, List.drop_left, hx]
  constructor
  · intro h
    split at h
    · rename_i n hn
      have hlen : n = a.length - (List.replicate q '"').length := by rw [List.length_replicate]; omega
      have hends := (find?_eq_iff hp (by rw [List.length_replicate]; omega)).1 (hlen ▸ hn)
      exact ⟨hends.2, .inl hends.1⟩
    · rename_i hn
      have hnil : t = [] := List.eq_nil_of_length_eq_zero (by simp only [List.length_append] at h; omega)
      have hnone := not_infix_of_find? hn
      rw [hnil, List.append_nil] at hnone
      exact ⟨fun hin => hnone (hin.trans (List.dropLast_prefix a).isInfix), .inr hnil⟩
  · rintro ⟨hfirst, hends⟩
    by_cases hsuffix : List.replicate q '"' <:+ a
    · have hle := hsuffix.length_le
      rw [(find?_eq_iff hp hle).2 ⟨hsuffix, hfirst⟩]
      rw [List.length_replicate] at hle ⊢
      show q + (a.length - q) + q = q + a.length
      omega
    · obtain rfl := hends.resolve_left hsuffix
      have hnone : ¬ List.replicate q '"' <:+: a ++ [] := by
        rw [List.append_nil]
        rcases List.eq_nil_or_concat a with rfl | ⟨b, c, rfl⟩
        · exact hfirst
        · rw [List.concat_eq_append] at hfirst hsuffix ⊢
          rw [List.dropLast_concat] at hfirst
          rw [List.infix_concat_iff]
          exact fun h => h.elim hsuffix hfirst
      rw [find?_of_absent hnone]
      simp only [List.length_append, List.length_nil, hx, Nat.add_zero]

end Literal

/-! ### Quotes twice -/

/-- The characters with every quote twice. -/
def doubled (w : List Char) : List Char := w.flatMap fun c => if c == '"' then ['"', '"'] else [c]

@[simp] theorem doubled_nil : doubled [] = [] := rfl

@[simp] theorem doubled_quote (w : List Char) : doubled ('"' :: w) = '"' :: '"' :: doubled w := rfl

theorem doubled_cons {c : Char} (hc : c ≠ '"') (w : List Char) : doubled (c :: w) = c :: doubled w := by
  simp [doubled, hc]

@[simp] theorem doubled_append (v w : List Char) : doubled (v ++ w) = doubled v ++ doubled w := List.flatMap_append

theorem doubled_reverse (w : List Char) : doubled w.reverse = (doubled w).reverse := by
  induction w with
  | nil => rfl
  | cons c w ih =>
    by_cases hc : c = '"'
    · subst hc
      simp [ih]
    · simp [ih, doubled_cons hc]

/-- Quotes in front of a doubled text are half as many in front of the text. -/
theorem replicate_prefix_doubled : ∀ (n : Nat) (w : List Char),
    List.replicate n '"' <+: doubled w ↔ List.replicate ((n + 1) / 2) '"' <+: w
  | 0, w => by simp
  | n + 1, [] => by simp
  | 1, c :: w => by
    by_cases hc : c = '"'
    · subst hc
      simp
    · simp [doubled_cons hc]
  | n + 2, c :: w => by
    have hhalf : (n + 2 + 1) / 2 = (n + 1) / 2 + 1 := by omega
    by_cases hc : c = '"'
    · subst hc
      rw [hhalf, doubled_quote, List.replicate_succ, List.replicate_succ, List.replicate_succ, List.cons_prefix_cons,
        List.cons_prefix_cons, List.cons_prefix_cons, replicate_prefix_doubled n w]
      simp
    · simp [hhalf, doubled_cons hc, List.replicate_succ, List.cons_prefix_cons, Ne.symm hc]

/-- Quotes at the end of a doubled text are half as many at the end of the text. -/
theorem replicate_suffix_doubled (n : Nat) (w : List Char) :
    List.replicate n '"' <:+ doubled w ↔ List.replicate ((n + 1) / 2) '"' <:+ w := by
  rw [← List.reverse_prefix, ← doubled_reverse, List.reverse_replicate, replicate_prefix_doubled, ← List.reverse_prefix,
    List.reverse_replicate]

/-- Quotes in one place of a doubled text, if they are odd in number, are half as many in one place of the text. -/
theorem replicate_infix_doubled (k : Nat) : ∀ w : List Char,
    List.replicate (2 * k + 1) '"' <:+: doubled w ↔ List.replicate (k + 1) '"' <:+: w
  | [] => by simp
  | c :: w => by
    have ih := replicate_infix_doubled k w
    have hprefix := replicate_prefix_doubled (2 * k + 1) (c :: w)
    rw [show (2 * k + 1 + 1) / 2 = k + 1 by omega] at hprefix
    by_cases hc : c = '"'
    · subst hc
      have hinside := replicate_prefix_doubled (2 * k) w
      rw [show (2 * k + 1) / 2 = k by omega] at hinside
      rw [doubled_quote] at hprefix ⊢
      rw [List.infix_cons_iff, List.infix_cons_iff, List.infix_cons_iff, ih, hprefix, List.replicate_succ,
        List.replicate_succ, List.cons_prefix_cons, List.cons_prefix_cons, hinside]
      tauto
    · rw [doubled_cons hc] at hprefix ⊢
      rw [List.infix_cons_iff, List.infix_cons_iff, ih, hprefix]

/-- A verbatim string that stands for the characters. -/
def verbatim (w : List Char) : List Char := '@' :: '"' :: (doubled w ++ ['"'])

namespace Literal

variable {w t : List Char}

/-- **Quotes that are written twice are read back**, up to the single one that closes the string. -/
theorem stringBodyEnd_verbatim (ht : t.head? ≠ some '"') : ∀ (w : List Char) (n : Nat),
    stringBodyEnd true false 0 n (doubled w ++ '"' :: t) = n + (doubled w).length + 1
  | [], n => by
    have hstop : bodyStep true false 0 '"' t = (1, none) := by simp [bodyStep, ht]
    rw [doubled_nil, List.nil_append, stringBodyEnd_stop (by rw [hstop]), hstop]
    rfl
  | c :: w, n => by
    by_cases hc : c = '"'
    · subst hc
      have hstep : bodyStep true false 0 '"' ('"' :: (doubled w ++ '"' :: t)) = (2, some 0) := by simp [bodyStep]
      rw [doubled_quote, List.cons_append, List.cons_append, stringBodyEnd_step (by rw [hstep]), hstep]
      show stringBodyEnd true false 0 (n + 2) (doubled w ++ '"' :: t) = _
      rw [stringBodyEnd_verbatim ht w, List.length_cons, List.length_cons]
      omega
    · have hstep : bodyStep true false 0 c (doubled w ++ '"' :: t) = (1, some 0) := by simp [bodyStep, hc]
      rw [doubled_cons hc, List.cons_append, stringBodyEnd_step (by rw [hstep]), hstep]
      show stringBodyEnd true false 0 (n + 1) (doubled w ++ '"' :: t) = _
      rw [stringBodyEnd_verbatim ht w, List.length_cons]
      omega

/-! ### Quotes in front -/

/-- The quotes that a text starts with, and what follows them. -/
theorem quoteRun_append (w : List Char) :
    List.replicate (quoteRun w) '"' ++ w.drop (quoteRun w) = w ∧ (w.drop (quoteRun w)).head? ≠ some '"' := by
  induction w with
  | nil => simp [quoteRun]
  | cons c w ih =>
    by_cases hc : c = '"'
    · subst hc
      have hrun : quoteRun ('"' :: w) = quoteRun w + 1 := by simp [quoteRun]
      rw [hrun, List.replicate_succ, List.drop_succ_cons, List.cons_append, ih.1]
      exact ⟨rfl, ih.2⟩
    · simp [quoteRun, hc]

theorem quoteRun_replicate_append {m : List Char} (hm : m.head? ≠ some '"') (k : Nat) :
    quoteRun (List.replicate k '"' ++ m) = k := by
  induction k with
  | zero => cases m <;> simp_all [quoteRun]
  | succ k ih =>
    unfold quoteRun at ih ⊢
    rw [List.replicate_succ, List.cons_append, List.takeWhile_cons_of_pos rfl, List.length_cons, ih]

theorem doubled_replicate (k : Nat) : doubled (List.replicate k '"') = List.replicate (2 * k) '"' := by
  induction k with
  | zero => rfl
  | succ k ih => rw [List.replicate_succ, doubled_quote, ih, Nat.mul_succ, List.replicate_succ, List.replicate_succ]

/-- Is the verbatim string of the characters read back when the text goes on behind it? The quotes in front of the
characters must stand at their end again, unless the text ends there, and no more quotes in one place before. -/
def ReadBack (w t : List Char) : Prop :=
  w.head? = some '"' → ¬ List.replicate (quoteRun w + 1) '"' <:+: w.drop (quoteRun w) ∧
    (List.replicate (quoteRun w) '"' <:+ w.drop (quoteRun w) ∨ t = [])

instance (w t : List Char) : Decidable (ReadBack w t) := inferInstanceAs (Decidable (_ → _))

theorem suffixLength_eq_zero (hu : ¬ ['u', '8'] <+: t) (hU : ¬ ['U', '8'] <+: t) : suffixLength t = 0 := by
  rcases suffixLength_cases t with h | ⟨-, c, x, rfl, rfl | rfl⟩
  · exact h
  · exact absurd ⟨x, rfl⟩ hu
  · exact absurd ⟨x, rfl⟩ hU

/-- A suffix is no part of a text that ends in a quote. -/
theorem add_suffixLength_eq_iff {s : List Char} {n : Nat} (hs : s.getLast? = some '"') (ht : suffixLength t = 0) :
    n + suffixLength ((s ++ t).drop n) = s.length ↔ n = s.length := by
  constructor
  · intro h
    rcases suffixLength_cases ((s ++ t).drop n) with hzero | ⟨htwo, c, x, hx, -⟩
    · rwa [hzero] at h
    · rw [htwo] at h
      have height : (s ++ t)[n + 1]? = some '8' := by
        rw [← List.getElem?_drop, hx]
        rfl
      rw [List.getElem?_append_left (by omega)] at height
      rw [List.getLast?_eq_getElem?, ← h, show n + 2 - 1 = n + 1 by omega, height] at hs
      cases hs
  · rintro rfl
    rw [List.drop_left, ht, Nat.add_zero]

theorem getLast?_verbatim (w : List Char) : (verbatim w).getLast? = some '"' := by
  rw [verbatim, ← List.cons_append, ← List.cons_append, List.getLast?_concat]

theorem length_verbatim (w : List Char) : (verbatim w).length = (doubled w).length + 3 := by
  rw [verbatim, List.length_cons, List.length_cons, List.length_append]
  rfl

/-- Characters that start with a quote are taken for those of a raw string. -/
theorem unsuffixedLength_quotes_iff {m : List Char} (hm : m.head? ≠ some '"') (ht : t.head? ≠ some '"') {k : Nat}
    (hk : 0 < k) :
    unsuffixedLength ⟨1, false, true⟩ (doubled (List.replicate k '"' ++ m) ++ '"' :: t) =
        (doubled (List.replicate k '"' ++ m)).length + 3 ↔
      ¬ List.replicate (k + 1) '"' <:+: m ∧ (List.replicate k '"' <:+ m ∨ t = []) := by
  have hraw : ∀ {q : Nat} {a : List Char}, 3 ≤ q → (a ++ t).head? ≠ some '"' →
      '"' :: (doubled (List.replicate k '"' ++ m) ++ '"' :: t) = List.replicate q '"' ++ (a ++ t) →
      (unsuffixedLength ⟨1, false, true⟩ (doubled (List.replicate k '"' ++ m) ++ '"' :: t) = 1 + (q + a.length) ↔
        ¬ List.replicate q '"' <:+: a.dropLast ∧ (List.replicate q '"' <:+ a ∨ t = [])) := by
    intro q a hq ha hbody
    rw [unsuffixedLength, hbody, quoteRun_replicate_append ha, if_pos hq, Nat.add_left_cancel_iff]
    exact rawLength_eq_iff (by omega) List.length_replicate
  -- With nothing behind the quotes the closing one is counted as well.
  cases m with
  | nil =>
    have hbody : '"' :: (doubled (List.replicate k '"' ++ []) ++ '"' :: t) =
        List.replicate (2 * k + 2) '"' ++ ([] ++ t) := by
      rw [List.append_nil, doubled_replicate, List.replicate_succ, List.replicate_succ', List.cons_append,
        List.append_assoc]
      rfl
    have hlength : (doubled (List.replicate k '"' ++ [])).length + 3 = 1 + (2 * k + 2 + ([] : List Char).length) := by
      rw [List.append_nil, doubled_replicate, List.length_replicate, List.length_nil]
      omega
    rw [hlength, hraw (a := []) (by omega) ht hbody]
    simp [Nat.ne_of_gt hk]
  | cons c m =>
    have hc : c ≠ '"' := fun h => hm (congrArg some h)
    have hbody : '"' :: (doubled (List.replicate k '"' ++ c :: m) ++ '"' :: t) =
        List.replicate (2 * k + 1) '"' ++ (doubled (c :: m) ++ ['"'] ++ t) := by
      simp [doubled_replicate, List.replicate_succ]
    have hlength : (doubled (List.replicate k '"' ++ c :: m)).length + 3 =
        1 + (2 * k + 1 + (doubled (c :: m) ++ ['"']).length) := by
      rw [doubled_append, doubled_replicate, List.length_append, List.length_append, List.length_replicate,
        List.length_singleton]
      omega
    have hends : List.replicate (2 * k + 1) '"' <:+ doubled (c :: m) ++ ['"'] ↔ List.replicate k '"' <:+ c :: m := by
      have hhalf := replicate_suffix_doubled (2 * k) (c :: m)
      rw [show (2 * k + 1) / 2 = k by omega] at hhalf
      rw [← hhalf, List.replicate_succ', List.suffix_append_inj_of_length_eq rfl]
      simp
    rw [hlength, hraw (by omega) (by simp [doubled_cons hc, hc]) hbody, List.dropLast_concat, replicate_infix_doubled,
      hends]

/-- What a verbatim string is read as, but for a suffix. -/
theorem unsuffixedLength_verbatim_iff (ht : t.head? ≠ some '"') :
    unsuffixedLength ⟨1, false, true⟩ (doubled w ++ '"' :: t) = (verbatim w).length ↔ ReadBack w t := by
  rw [length_verbatim]
  unfold ReadBack
  by_cases hq : w.head? = some '"'
  · obtain ⟨hw, hm⟩ := quoteRun_append w
    have hk : 0 < quoteRun w := by
      rw [Nat.pos_iff_ne_zero]
      intro hzero
      rw [hzero, List.drop_zero] at hm
      exact hm hq
    have h := unsuffixedLength_quotes_iff hm ht hk
    rw [hw] at h
    rw [h]
    exact ⟨fun h _ => h, fun h => h hq⟩
  · have hrun : quoteRun ('"' :: (doubled w ++ '"' :: t)) < 3 := by
      cases w with
      | nil =>
        cases t with
        | nil => decide
        | cons d t =>
          have hd : d ≠ '"' := fun h => ht (congrArg some h)
          simp [quoteRun, hd]
      | cons c w =>
        have hc : c ≠ '"' := fun h => hq (congrArg some h)
        simp [quoteRun, doubled_cons hc, hc]
    rw [unsuffixedLength, if_neg (by omega)]
    refine ⟨fun _ h => absurd h hq, fun _ => ?_⟩
    have hbody := stringBodyEnd_verbatim ht w 2
    exact hbody.trans (by omega)

/-- A verbatim string has its length where it is read back. -/
theorem stringLength?_verbatim_iff (ht : t.head? ≠ some '"') (hu : ¬ ['u', '8'] <+: t) (hU : ¬ ['U', '8'] <+: t) :
    stringLength? (verbatim w ++ t) = some (verbatim w).length ↔ ReadBack w t := by
  have hsigils : sigils ⟨0, false, false⟩ (['@'] ++ '"' :: (doubled w ++ '"' :: t)) = ⟨1, false, true⟩ := by
    simp [sigils]
  have htext : verbatim w ++ t = ['@'] ++ '"' :: (doubled w ++ '"' :: t) := by simp [verbatim]
  have hlength := @stringLength?_of_quote ['@'] (doubled w ++ '"' :: t) (by rw [hsigils]; rfl)
  rw [hsigils, ← htext] at hlength
  rw [hlength, Option.some.injEq, add_suffixLength_eq_iff (getLast?_verbatim w) (suffixLength_eq_zero hu hU)]
  exact unsuffixedLength_verbatim_iff ht

end Literal

/-! ### The tokens of a text that starts with a verbatim string -/

open Literal (ReadBack stringLength?)

variable {w t : List Char}

/-- A text that starts with no trivia is read token by token. -/
theorem readTokens_of_scan {done : Array Token} {b : Bool} {s r : List Char} {k : TokenKind} (hs : s ≠ [])
    (hnone : Trivia.scan? b (s ++ r) = none) (hscan : Token.scan (s ++ r) = (k, s.length)) :
    readTokens done b (s ++ r) =
      readTokens (done.push { kind := k, text := String.ofList s, trailing := (readTrailing r).trivia })
        (readTrailing r).atLineStart (readTrailing r).rest := by
  obtain ⟨c, s, rfl⟩ := List.exists_cons_of_ne_nil hs
  rw [List.cons_append] at hnone hscan
  have hlead : readLeading b (c :: (s ++ r)) = ⟨[], b, c :: (s ++ r)⟩ := by rw [readLeading, hnone]
  rw [List.cons_append, readTokens]
  simp only
  split
  · rename_i h
    rw [hlead] at h
    cases h
  · rename_i c' r' h
    rw [hlead] at h
    obtain ⟨rfl, rfl⟩ := List.cons.inj h
    simp [hscan, hlead]

/-- A verbatim string that is read back is one token, and what follows it is read from its first character on. -/
theorem readTokens_verbatim (ht : t.head? ≠ some '"') (hu : ¬ ['u', '8'] <+: t) (hU : ¬ ['U', '8'] <+: t)
    (h : ReadBack w t) (done : Array Token) (b : Bool) :
    readTokens done b (verbatim w ++ t) =
      readTokens (done.push
          { kind := .stringLiteral, text := String.ofList (verbatim w), trailing := (readTrailing t).trivia })
        (readTrailing t).atLineStart (readTrailing t).rest := by
  refine readTokens_of_scan (by simp [verbatim]) ?_ (scan_of_string ((Literal.stringLength?_verbatim_iff ht hu hU).2 h))
  show Trivia.scan? b ('@' :: ('"' :: (doubled w ++ ['"']) ++ t)) = none
  rw [scan?_of_not_blank (by decide) (by decide)]
  simp [List.isPrefixOf]

/-- **A verbatim string is read back exactly** when its characters start with no quote, or end as they start and hold no
more quotes in one place before. It is one token then, and what follows is read from its first character on. -/
theorem verbatim_readBack (ht : t.head? ≠ some '"') (hu : ¬ ['u', '8'] <+: t) (hU : ¬ ['U', '8'] <+: t) :
    (stringLength? (verbatim w ++ t) = some (verbatim w).length ↔ ReadBack w t) ∧
      (ReadBack w t → ∀ done b, readTokens done b (verbatim w ++ t) =
        readTokens (done.push
            { kind := .stringLiteral, text := String.ofList (verbatim w), trailing := (readTrailing t).trivia })
          (readTrailing t).atLineStart (readTrailing t).rest) :=
  ⟨Literal.stringLength?_verbatim_iff ht hu hU, readTokens_verbatim ht hu hU⟩

/-- Characters that end in a quote are read back, and those that start with one are not. -/
theorem verbatim_readBack_quote :
    stringLength? (verbatim ['a', '"'] ++ [' ', '+']) = some (verbatim ['a', '"']).length ∧
      stringLength? (verbatim ['"', 'a'] ++ [' ', '+']) ≠ some (verbatim ['"', 'a']).length :=
  ⟨(verbatim_readBack (by decide) (by decide) (by decide)).1.2 (by decide),
    mt (verbatim_readBack (by decide) (by decide) (by decide)).1.1 (by decide)⟩

end LayoutLint
