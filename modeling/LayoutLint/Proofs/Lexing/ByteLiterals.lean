import LayoutLint.Proofs.Lexing.Literals
import LayoutLint.Proofs.Lexing.Utf8
/-!
# ByteLiterals — literals read byte by byte

A reader of bytes that takes a backslash skips one byte more, which may leave it inside a character. None of the bytes
in there is one it looks for, so it goes on to the next character and finds the end of a literal where a reader of
characters finds it (`charBody_utf8`, `stringLength?_utf8`). The places at which it cuts the text on its way are all
between characters.
-/
namespace LayoutLint.Bytes

open Text (width)
open Literal (Sigils bodyStep unsuffixedLength)

/-- The bytes from place `n` on; `none` when that place is inside a character or past the end. -/
def sliceFrom? (n : Nat) (b : List UInt8) : Option (List UInt8) :=
  if n ≤ b.length && isBoundary (b.drop n) then some (b.drop n) else none

def isBreak (b : UInt8) : Bool := b == code '\r' || b == code '\n'

/-- The number of bytes of the character literal at the head of the bytes, after its opening quote. -/
def charBody (s : List UInt8) : Nat :=
  match s with
  | [] => 0
  | b :: r =>
    if b == code '\\' then if r.isEmpty then 1 else charBody r.tail + 2
    else if b == code '\'' then 1
    else if isBreak b then 0
    else charBody r + 1
termination_by s.length
decreasing_by all_goals (simp only [List.length_cons, List.length_tail]; omega)

/-- Reads the sigils of a string literal. -/
def sigils (seen : Sigils) : List UInt8 → Sigils
  | [] => seen
  | b :: r =>
    if b == code '$' then sigils { seen with length := seen.length + 1, interpolated := true } r
    else if b == code '@' && !seen.verbatim then sigils { seen with length := seen.length + 1, verbatim := true } r
    else seen

def quoteRun (b : List UInt8) : Nat := (b.takeWhile (· == code '"')).length

/-- The length of a raw string, `start` sigils and `quotes` quotes at its head, up to the next run of as many quotes. -/
def rawLength? (start quotes : Nat) (s : List UInt8) : Option Nat :=
  (sliceFrom? (start + quotes) s).map fun rest =>
    (find? (List.replicate quotes (code '"')) rest).elim s.length (start + quotes + · + quotes)

def suffixLength (b : List UInt8) : Nat :=
  if ("u8".toList.map code).isPrefixOf b || ("U8".toList.map code).isPrefixOf b then 2 else 0

mutual

/-- The number of bytes of the string literal at the head of the bytes, if there is one. The outer `none` says that the
bytes were to be cut inside a character, or that the reader would not go on. -/
def stringLength? (s : List UInt8) : Option (Option Nat) :=
  let before := sigils ⟨0, false, false⟩ s
  match _h : s.drop before.length with
  | [] => some none
  | q :: body =>
    if q == code '"' then
      let quotes := quoteRun (q :: body)
      let n? :=
        if 3 ≤ quotes then rawLength? before.length quotes s
        else stringBodyEnd before.verbatim before.interpolated 0 (before.length + 1) body
      n?.bind fun n => (sliceFrom? n s).map fun rest => some (n + suffixLength rest)
    else some none
termination_by 2 * s.length
decreasing_by
  have := congrArg List.length _h
  simp only [List.length_drop, List.length_cons] at this
  omega

/-- How many bytes a string with quotes of its own reaches, `n` of which are read and before the rest `s`. -/
def stringBodyEnd (verbatim interpolated : Bool) (holes n : Nat) (s : List UInt8) : Option Nat :=
  match s with
  | [] => some n
  | b :: r =>
    if holes = 0 then
      if b == code '"' then
        if verbatim && r.head? == some (code '"') then stringBodyEnd verbatim interpolated 0 (n + 2) r.tail
        else some (n + 1)
      else if b == code '\\' && !verbatim then
        if r.isEmpty then some (n + 1) else stringBodyEnd verbatim interpolated 0 (n + 2) r.tail
      else if isBreak b && !verbatim then some n
      else if b == code '{' && interpolated then
        if r.head? == some (code '{') then stringBodyEnd verbatim interpolated 0 (n + 2) r.tail
        else stringBodyEnd verbatim interpolated 1 (n + 1) r
      else stringBodyEnd verbatim interpolated 0 (n + 1) r
    else if b == code '{' then stringBodyEnd verbatim interpolated (holes + 1) (n + 1) r
    else if b == code '}' then stringBodyEnd verbatim interpolated (holes - 1) (n + 1) r
    else if b == code '\'' then
      if isBoundary (b :: r) then
        stringBodyEnd verbatim interpolated holes (n + 1 + charBody r) (r.drop (charBody r))
      else none
    else if b == code '"' || b == code '$' || b == code '@' then
      if isBoundary (b :: r) then
        match stringLength? (b :: r) with
        | some (some (m + 1)) => stringBodyEnd verbatim interpolated holes (n + (m + 1)) (r.drop m)
        | some none => stringBodyEnd verbatim interpolated holes (n + 1) r
        | some (some 0) | none => none
      else none
    else stringBodyEnd verbatim interpolated holes (n + 1) r
termination_by 2 * s.length + 1
decreasing_by
  all_goals (simp only [List.length_cons, List.length_drop, List.length_tail]; omega)

end

/-! ### Cuts -/

/-- **A text can be cut behind each of its fronts.** -/
theorem sliceFrom?_utf8 (s : List Char) (n : Nat) :
    sliceFrom? (width (s.take n)) (utf8 s) = some (utf8 (s.drop n)) := by
  have hle : width (s.take n) ≤ (utf8 s).length := by
    rw [length_utf8]
    conv => rhs; rw [← List.take_append_drop n s, Text.width_append]
    omega
  rw [sliceFrom?, drop_utf8, isBoundary_utf8, decide_eq_true hle]
  rfl

theorem isBreak_code {c : Char} (h : c.toNat < 128) : isBreak (code c) = isBreakChar c := by
  rw [isBreak, isBreakChar, code_beq (by decide) h, code_beq (by decide) h]

theorem isBreak_of_wide {b : UInt8} (h : 128 ≤ b.toNat) : isBreak b = false := by
  rw [isBreak, beq_code_of_wide h (by decide), beq_code_of_wide h (by decide)]
  rfl

theorem isBreakChar_of_wide {c : Char} (h : 128 ≤ c.toNat) : isBreakChar c = false := by
  rw [isBreakChar, beq_of_wide h (by decide), beq_of_wide h (by decide)]
  rfl

/-! ### Character literals -/

/-- Bytes of longer characters are passed over. -/
theorem charBody_wide {bs : List UInt8} (h : ∀ x ∈ bs, 128 ≤ x.toNat) (r : List UInt8) :
    charBody (bs ++ r) = bs.length + charBody r := by
  induction bs with
  | nil => simp
  | cons b bs ih =>
    have hb := h b List.mem_cons_self
    rw [List.cons_append, charBody, beq_code_of_wide hb (by decide), beq_code_of_wide hb (by decide),
      isBreak_of_wide hb,
      if_neg Bool.false_ne_true, if_neg Bool.false_ne_true, if_neg Bool.false_ne_true,
      ih fun x hx => h x (List.mem_cons_of_mem _ hx), List.length_cons]
    omega

/-- The byte after a backslash may be the first one of its character. -/
theorem charBody_tail {s : List Char} (hs : s ≠ []) :
    charBody (utf8 s).tail + 1 = width (s.take 1) + charBody (utf8 s.tail) := by
  obtain ⟨d, s, rfl⟩ := List.exists_cons_of_ne_nil hs
  rw [List.take_succ_cons, List.take_zero, Text.width_cons, Text.width_nil, List.tail_cons]
  rcases utf8_cons_cases d s with ⟨-, he, hsize⟩ | ⟨-, b, bs, he, -, hbs, hsize⟩
  · rw [he, hsize, List.tail_cons]
    omega
  · rw [he, hsize, List.tail_cons, charBody_wide hbs]
    omega

/-- **A character literal read byte by byte ends where its characters say.** -/
theorem charBody_utf8 : ∀ s : List Char, charBody (utf8 s) = width (s.take (Literal.charBodyLength s))
  | [] => by rw [utf8, List.flatMap_nil, charBody]; rfl
  | c :: s => by
    rcases utf8_cons_cases c s with ⟨hc, he, hsize⟩ | ⟨hc, b, bs, he, hb, hbs, hsize⟩
    · by_cases hbs : c = '\\'
      · subst hbs
        rw [he, charBody, beq_self_eq_true, if_pos rfl, isEmpty_utf8]
        cases s with
        | nil => rfl
        | cons d s =>
          have htail := charBody_tail (List.cons_ne_nil d s)
          rw [List.tail_cons, charBody_utf8 s, List.take_succ_cons, List.take_zero, Text.width_cons,
            Text.width_nil] at htail
          rw [List.isEmpty_cons, if_neg Bool.false_ne_true, Literal.charBodyLength, List.take_succ_cons,
            List.take_succ_cons, Text.width_cons, Text.width_cons, hsize]
          omega
      · rw [he, charBody, code_beq (by decide) hc, code_beq (by decide) hc, isBreak_code hc, beq_eq_false_iff_ne.2 hbs,
          if_neg Bool.false_ne_true, Literal.charBodyLength_cons hbs, charBody_utf8 s]
        split
        · rw [List.take_succ_cons, Text.width_cons, hsize]
          rfl
        · split
          · rfl
          · rw [List.take_succ_cons, Text.width_cons, hsize, Nat.add_comm]
    · have hslash : c ≠ '\\' := by rintro rfl; exact absurd hc (by decide)
      rw [he, ← List.cons_append, charBody_wide (by rintro x (_ | ⟨_, hx⟩); exacts [by omega, hbs x hx]),
        charBody_utf8 s,
        Literal.charBodyLength_cons hslash, beq_of_wide hc (by decide), isBreakChar_of_wide hc,
        if_neg Bool.false_ne_true, if_neg Bool.false_ne_true, List.take_succ_cons, Text.width_cons, hsize]
      rfl

/-! ### The quotes of a string -/

theorem sigils_utf8 (s : List Char) (seen : Sigils) : sigils seen (utf8 s) = Literal.sigils seen s := by
  induction s generalizing seen with
  | nil => rfl
  | cons c s ih =>
    rcases utf8_cons_cases c s with ⟨hc, he, -⟩ | ⟨hc, b, bs, he, hb, -⟩
    · rw [he, sigils, code_beq (by decide) hc, code_beq (by decide) hc]
      by_cases hd : c = '$'
      · subst hd
        rw [beq_self_eq_true, if_pos rfl, Literal.sigils, ih]
      · rw [beq_eq_false_iff_ne.2 hd, if_neg Bool.false_ne_true]
        by_cases ha : c = '@'
        · subst ha
          rw [beq_self_eq_true, Bool.true_and, Literal.sigils, ih]
          cases seen.verbatim <;> rfl
        · rw [beq_eq_false_iff_ne.2 ha, Bool.false_and, if_neg Bool.false_ne_true, Literal.sigils_of_ne hd ha]
    · have hne : ∀ a : Char, a.toNat < 128 → c ≠ a := by rintro a ha rfl; omega
      rw [he, sigils, beq_code_of_wide (by omega) (by decide), beq_code_of_wide (by omega) (by decide), Bool.false_and,
        if_neg Bool.false_ne_true, if_neg Bool.false_ne_true,
        Literal.sigils_of_ne (hne _ (by decide)) (hne _ (by decide))]

/-- Sigils are ASCII characters of the text. -/
theorem width_take_sigils (s : List Char) (seen : Sigils) :
    width (s.take ((Literal.sigils seen s).length - seen.length)) = (Literal.sigils seen s).length - seen.length := by
  induction s generalizing seen with
  | nil => simp [Literal.sigils]
  | cons c s ih =>
    have hnext : ∀ next : Sigils, next.length = seen.length + 1 → c.utf8Size = 1 →
        Literal.sigils seen (c :: s) = Literal.sigils next s →
        width ((c :: s).take ((Literal.sigils seen (c :: s)).length - seen.length)) =
          (Literal.sigils seen (c :: s)).length - seen.length := by
      intro next hlength hsize heq
      have hle := Literal.length_le_sigils s next
      have := ih next
      rw [heq, show (Literal.sigils next s).length - seen.length =
        (Literal.sigils next s).length - next.length + 1 by omega, List.take_succ_cons, Text.width_cons, this, hsize,
        Nat.add_comm]
    have hstop : Literal.sigils seen (c :: s) = seen →
        width ((c :: s).take ((Literal.sigils seen (c :: s)).length - seen.length)) =
          (Literal.sigils seen (c :: s)).length - seen.length := by
      intro heq
      rw [heq, Nat.sub_self]
      rfl
    by_cases hd : c = '$'
    · subst hd
      exact hnext { seen with length := seen.length + 1, interpolated := true } rfl (by decide) (by rw [Literal.sigils])
    · by_cases ha : c = '@'
      · subst ha
        cases hv : seen.verbatim with
        | true => exact hstop (by rw [Literal.sigils, hv, if_pos rfl])
        | false =>
          exact hnext { seen with length := seen.length + 1, verbatim := true } rfl (by decide)
            (by rw [Literal.sigils, hv, if_neg Bool.false_ne_true])
      · exact hstop (Literal.sigils_of_ne hd ha)

theorem quoteRun_utf8 (s : List Char) : quoteRun (utf8 s) = Literal.quoteRun s := by
  induction s with
  | nil => rfl
  | cons c s ih =>
    rw [quoteRun, Literal.quoteRun] at ih ⊢
    rcases utf8_cons_cases c s with ⟨hc, he, -⟩ | ⟨hc, b, bs, he, hb, -⟩
    · rw [he, List.takeWhile_cons, List.takeWhile_cons, code_beq (by decide) hc]
      split
      · rw [List.length_cons, List.length_cons, ih]
      · rfl
    · rw [he, List.takeWhile_cons, List.takeWhile_cons, beq_code_of_wide (by omega) (by decide),
        beq_of_wide hc (by decide)]
      rfl

theorem suffixLength_utf8 (s : List Char) : suffixLength (utf8 s) = Literal.suffixLength s := by
  rw [suffixLength, Literal.suffixLength, isPrefixOf_utf8 (by decide), isPrefixOf_utf8 (by decide)]

/-- What starts with ASCII characters starts with as many bytes. -/
theorem width_take_of_isPrefixOf {p : List Char} (hp : Ascii p) {s : List Char}
    (h : p.isPrefixOf s = true) : width (s.take p.length) = p.length := by
  obtain ⟨t, rfl⟩ := List.isPrefixOf_iff_prefix.1 h
  rw [List.take_left, width_of_ascii hp]

theorem width_take_suffix (s : List Char) : width (s.take (Literal.suffixLength s)) = Literal.suffixLength s := by
  rw [Literal.suffixLength]
  split
  · rename_i h
    rcases Bool.or_eq_true _ _ ▸ h with h | h
    · exact width_take_of_isPrefixOf (p := "u8".toList) (by decide) h
    · exact width_take_of_isPrefixOf (p := "U8".toList) (by decide) h
  · rfl

/-- The bytes of two parts of a text, one behind the other. -/
theorem width_take_add (s : List Char) (m n : Nat) :
    width (s.take (m + n)) = width (s.take m) + width ((s.drop m).take n) := by
  rw [List.take_add, Text.width_append]

/-! ### Strings with quotes of their own -/

/-- A byte of a longer character is passed over. -/
theorem stringBodyEnd_skip {b : UInt8} (hb : 128 ≤ b.toNat) (v i : Bool) (d n : Nat) (r : List UInt8) :
    stringBodyEnd v i d n (b :: r) = stringBodyEnd v i d (n + 1) r := by
  have hnone : ∀ a : Char, a.toNat < 128 → (b == code a) = false := fun a ha => beq_code_of_wide hb ha
  rw [stringBodyEnd, hnone _ (by decide), hnone _ (by decide), isBreak_of_wide hb, hnone _ (by decide),
    hnone _ (by decide), hnone _ (by decide), hnone _ (by decide), hnone _ (by decide)]
  by_cases hd : d = 0 <;> simp [hd]

theorem stringBodyEnd_wide {bs : List UInt8} (h : ∀ x ∈ bs, 128 ≤ x.toNat) (v i : Bool) (d n : Nat) (r : List UInt8) :
    stringBodyEnd v i d n (bs ++ r) = stringBodyEnd v i d (n + bs.length) r := by
  induction bs generalizing n with
  | nil => rfl
  | cons b bs ih =>
    rw [List.cons_append, stringBodyEnd_skip (h b List.mem_cons_self),
      ih fun x hx => h x (List.mem_cons_of_mem _ hx), List.length_cons, Nat.add_assoc, Nat.add_comm 1]

section Step

variable {v i : Bool} {d : Nat} {c : Char} {s : List Char}

/-- The search goes on behind an ASCII character and the `k` characters that follow it. -/
theorem stringBodyEnd_more (hsize : c.utf8Size = 1) (k n : Nat) :
    stringBodyEnd v i d (n + 1 + width (s.take k)) ((utf8 s).drop (width (s.take k))) =
      stringBodyEnd v i d (n + width ((c :: s).take (k + 1))) (utf8 ((c :: s).drop (k + 1))) := by
  rw [List.take_succ_cons, Text.width_cons, hsize, List.drop_succ_cons, drop_utf8, Nat.add_assoc]

/-- The search goes on behind two bytes, the second of which may be the first one of its character. -/
theorem stringBodyEnd_two (hsize : c.utf8Size = 1) (hs : s ≠ []) (n : Nat) :
    stringBodyEnd v i d (n + 2) (utf8 s).tail =
      stringBodyEnd v i d (n + width ((c :: s).take 2)) (utf8 ((c :: s).drop 2)) := by
  obtain ⟨e, s, rfl⟩ := List.exists_cons_of_ne_nil hs
  rw [List.take_succ_cons, List.take_succ_cons, List.take_zero, Text.width_cons, Text.width_cons, Text.width_nil, hsize,
    List.drop_succ_cons, List.drop_succ_cons, List.drop_zero]
  rcases utf8_cons_cases e s with ⟨-, he, hesize⟩ | ⟨-, b, bs, he, -, hbs, hesize⟩
  · rw [he, hesize, List.tail_cons]
  · rw [he, hesize, List.tail_cons, stringBodyEnd_wide hbs]
    congr 1
    omega

theorem ne_nil_of_head {a : Char} (h : (s.head? == some a) = true) : s ≠ [] := by
  rintro rfl
  cases h

/-- **A step of the search for the end of a string, byte by byte.** -/
theorem stringBodyEnd_utf8_cons
    (string : stringLength? (utf8 (c :: s)) =
      some ((Literal.stringLength? (c :: s)).map fun m => width ((c :: s).take m))) (n : Nat) :
    stringBodyEnd v i d n (utf8 (c :: s)) =
      match (bodyStep v i d c s).2 with
      | none => some (n + width ((c :: s).take (bodyStep v i d c s).1))
      | some d' => stringBodyEnd v i d' (n + width ((c :: s).take (bodyStep v i d c s).1))
          (utf8 ((c :: s).drop (bodyStep v i d c s).1)) := by
  rcases utf8_cons_cases c s with ⟨hc, he, hsize⟩ | ⟨hc, b, bs, he, hb, hbs, hsize⟩
  · have hbound : isBoundary (code c :: utf8 s) = true := he ▸ isBoundary_utf8 (c :: s)
    rw [he] at string
    rw [he, stringBodyEnd, code_beq (by decide) hc, code_beq (by decide) hc, isBreak_code hc, code_beq (by decide) hc,
      code_beq (by decide) hc, code_beq (by decide) hc, code_beq (by decide) hc, code_beq (by decide) hc,
      head?_utf8 (by decide), head?_utf8 (by decide), isEmpty_utf8, hbound, if_pos rfl, if_pos rfl, string]
    have one : ∀ d', stringBodyEnd v i d' (n + 1) (utf8 s) =
        stringBodyEnd v i d' (n + width ((c :: s).take 1)) (utf8 ((c :: s).drop 1)) :=
      fun d' => stringBodyEnd_more hsize 0 n
    have two : s ≠ [] → stringBodyEnd v i 0 (n + 2) (utf8 s).tail =
        stringBodyEnd v i 0 (n + width ((c :: s).take 2)) (utf8 ((c :: s).drop 2)) :=
      fun hs => stringBodyEnd_two hsize hs n
    have stop : some (n + 1) = some (n + width ((c :: s).take 1)) := by
      rw [List.take_succ_cons, List.take_zero, Text.width_cons, Text.width_nil, hsize]
    unfold bodyStep
    split_ifs with hd hquote htwice hslash hend hbreak hopen hopens
    · exact two (ne_nil_of_head (Bool.and_eq_true _ _ ▸ htwice).2)
    · exact stop
    · exact stop
    · exact two (by simpa using hend)
    · rfl
    · exact two (ne_nil_of_head hopens)
    · exact one 1
    · exact one 0
    · exact one (d + 1)
    · exact one (d - 1)
    · rw [charBody_utf8]
      exact stringBodyEnd_more hsize _ n
    · cases hm : Literal.stringLength? (c :: s) with
      | none => exact one d
      | some m =>
        obtain ⟨k, rfl⟩ := Nat.exists_eq_add_of_lt (Literal.stringLength?_bounds hm).1
        rw [Nat.zero_add, Option.map_some, List.take_succ_cons, Text.width_cons, hsize, Nat.add_comm 1]
        have := stringBodyEnd_more (v := v) (i := i) (d := d) (s := s) hsize k n
        rw [Nat.add_assoc, Nat.add_comm 1] at this
        exact this
    · exact one d
  · have hnone : ∀ a : Char, a.toNat < 128 → (c == a) = false := fun a ha => beq_of_wide hc ha
    have hstep : bodyStep v i d c s = (1, some d) := by
      rw [bodyStep, hnone _ (by decide), hnone _ (by decide), isBreakChar_of_wide hc, hnone _ (by decide),
        hnone _ (by decide), hnone _ (by decide), hnone _ (by decide), hnone _ (by decide)]
      simp only [Bool.false_and, Bool.or_false, Bool.false_eq_true, if_false]
      split
      · rename_i hd
        rw [hd]
      · rfl
    rw [hstep, he, ← List.cons_append, stringBodyEnd_wide (by rintro x (_ | ⟨_, hx⟩); exacts [by omega, hbs x hx]),
      List.take_succ_cons, List.take_zero, Text.width_cons, hsize]
    rfl

end Step

/-! ### String literals -/

/-- **A raw string read byte by byte ends where its characters say**, the sigils `g` in front. -/
theorem rawLength?_utf8 {g body : List Char} {q : Nat} (hg : width g = g.length) (hq : 0 < q)
    (hquotes : ∀ c ∈ body.take q, c = '"') (hle : q ≤ body.length) :
    rawLength? g.length q (utf8 (g ++ body)) =
      some (width ((g ++ body).take (g.length + Literal.rawLength q body))) := by
  have hascii : Ascii (List.replicate q '"') := fun c hc => List.eq_of_mem_replicate hc ▸ by decide
  have hopening : width (body.take q) = q := by
    rw [width_of_ascii fun c hc => hquotes c hc ▸ by decide, List.length_take, Nat.min_eq_left hle]
  have hslice : sliceFrom? (g.length + q) (utf8 (g ++ body)) = some (utf8 (body.drop q)) := by
    have := sliceFrom?_utf8 (g ++ body) (g.length + q)
    rwa [List.take_length_add_append, Text.width_append, hg, hopening, List.drop_length_add_append] at this
  have hfind : find? (List.replicate q (code '"')) (utf8 (body.drop q)) =
      (Text.find? (List.replicate q '"') (body.drop q)).map fun n => width ((body.drop q).take n) := by
    obtain ⟨q, rfl⟩ := Nat.exists_eq_add_of_lt hq
    rw [← List.map_replicate]
    exact find?_utf8 hascii _
  rw [rawLength?, hslice, Option.map_some, hfind, length_utf8, Literal.rawLength, List.take_length_add_append]
  cases hf : Text.find? (List.replicate q '"') (body.drop q) with
  | none => rw [Option.map_none, Option.elim_none, List.take_length]
  | some n =>
    have hfence := width_take_of_isPrefixOf hascii (Literal.isPrefixOf_of_findFrom hf)
    rw [List.length_replicate, Nat.sub_zero] at hfence
    rw [Option.map_some, Option.elim_some, Text.width_append, hg, width_take_add, width_take_add, hopening,
      ← List.drop_drop, hfence]
    congr 1
    omega

/-- The length of a string without its suffix, from what stands before its quotes. -/
def unsuffixedLength? (before : Sigils) (s body : List UInt8) : Option Nat :=
  if 3 ≤ quoteRun (code '"' :: body) then rawLength? before.length (quoteRun (code '"' :: body)) s
  else stringBodyEnd before.verbatim before.interpolated 0 (before.length + 1) body

theorem stringLength?_of_quote {s body : List UInt8}
    (h : s.drop (sigils ⟨0, false, false⟩ s).length = code '"' :: body) :
    stringLength? s = (unsuffixedLength? (sigils ⟨0, false, false⟩ s) s body).bind fun n =>
      (sliceFrom? n s).map fun rest => some (n + suffixLength rest) := by
  rw [stringLength?]
  split
  · rename_i hnil
    rw [h] at hnil
    cases hnil
  · rename_i q body' hcons
    rw [h] at hcons
    cases hcons
    rw [beq_self_eq_true, if_pos rfl]
    rfl

theorem stringLength?_of_no_quote {s : List UInt8}
    (h : ((s.drop (sigils ⟨0, false, false⟩ s).length).head? == some (code '"')) = false) :
    stringLength? s = some none := by
  rw [stringLength?]
  split
  · rfl
  · rename_i q body hcons
    rw [hcons, List.head?_cons, Option.some_beq_some] at h
    rw [h, if_neg Bool.false_ne_true]

/-- The end of a string without its suffix, byte by byte. -/
theorem unsuffixedLength?_utf8 {before : Sigils} {g body : List Char} (hlength : before.length = g.length)
    (hg : width g = g.length)
    (hbody : ∀ v i d n m, stringBodyEnd v i d n (utf8 body) =
      some (n + width (body.take (Literal.stringBodyEnd v i d m body - m)))) :
    unsuffixedLength? before (utf8 (g ++ '"' :: body)) (utf8 body) =
      some (width ((g ++ '"' :: body).take (unsuffixedLength before body))) := by
  have hrun : quoteRun (code '"' :: utf8 body) = Literal.quoteRun ('"' :: body) := quoteRun_utf8 ('"' :: body)
  rw [unsuffixedLength?, hrun, unsuffixedLength, hlength]
  split
  · have hprefix : ('"' :: body).takeWhile (· == '"') <+: '"' :: body := List.takeWhile_prefix _
    refine rawLength?_utf8 hg (by omega) (fun c hc => ?_) hprefix.length_le
    rw [Literal.quoteRun, ← List.prefix_iff_eq_take.1 hprefix] at hc
    exact beq_iff_eq.1 (List.all_eq_true.1 List.all_takeWhile c hc)
  · have hle := Literal.le_stringBodyEnd before.verbatim before.interpolated 0 (g.length + 1) body
    rw [hbody _ _ _ _ (g.length + 1)]
    generalize Literal.stringBodyEnd before.verbatim before.interpolated 0 (g.length + 1) body = e at hle ⊢
    obtain ⟨k, rfl⟩ := Nat.exists_eq_add_of_le hle
    rw [Nat.add_sub_cancel_left, show g.length + 1 + k = g.length + (k + 1) by omega, List.take_length_add_append,
      List.take_succ_cons, Text.width_append, Text.width_cons, hg, show '"'.utf8Size = 1 by decide, Nat.add_assoc]

/-- **A string read byte by byte ends where its characters say**, if the search for its end does. -/
theorem stringLength?_utf8_of_body {s : List Char}
    (hbody : ∀ t : List Char, t.length < s.length → ∀ v i d n m, stringBodyEnd v i d n (utf8 t) =
      some (n + width (t.take (Literal.stringBodyEnd v i d m t - m)))) :
    stringLength? (utf8 s) = some ((Literal.stringLength? s).map fun m => width (s.take m)) := by
  have hwidth := width_take_sigils s ⟨0, false, false⟩
  rw [Nat.sub_zero] at hwidth
  have hdrop : (utf8 s).drop (sigils ⟨0, false, false⟩ (utf8 s)).length =
      utf8 (s.drop (Literal.sigils ⟨0, false, false⟩ s).length) := by
    rw [sigils_utf8]
    conv => lhs; rw [← hwidth]
    exact drop_utf8 s _
  cases hm : Literal.stringLength? s with
  | none =>
    refine stringLength?_of_no_quote ?_
    rw [hdrop, head?_utf8 (by decide), beq_eq_false_iff_ne]
    intro hhead
    obtain ⟨body, hbody⟩ := List.head?_eq_some_iff.1 hhead
    obtain ⟨g, rfl, hl, -⟩ := Literal.sigils_eq s ⟨0, false, false⟩ (by simpa using hbody)
    rw [Literal.stringLength?_of_quote (by simpa using hl)] at hm
    cases hm
  | some m =>
    obtain ⟨g, body, rfl, hl, -, rfl⟩ := Literal.stringLength?_eq_some hm
    rw [hl, List.drop_left] at hdrop
    rw [hl, List.take_left] at hwidth
    have hquote : utf8 ('"' :: body) = code '"' :: utf8 body := rfl
    rw [stringLength?_of_quote (hdrop.trans hquote), sigils_utf8, unsuffixedLength?_utf8 hl hwidth
      (hbody body (by rw [List.length_append, List.length_cons]; omega)), Option.bind_some, sliceFrom?_utf8,
      Option.map_some, suffixLength_utf8, Option.map_some, width_take_add, width_take_suffix]

/-- Strings and the search for their ends, byte by byte. -/
theorem string_utf8 :
    (∀ s v i d n m, stringBodyEnd v i d n (utf8 s) =
      some (n + width (s.take (Literal.stringBodyEnd v i d m s - m)))) ∧
    ∀ s, stringLength? (utf8 s) = some ((Literal.stringLength? s).map fun m => width (s.take m)) := by
  refine Literal.string_induction ?string ?nil ?cons
  case string => exact fun s body => stringLength?_utf8_of_body body
  case nil =>
    intro v i d n m
    rw [Literal.stringBodyEnd_nil, Nat.sub_self, utf8, List.flatMap_nil, stringBodyEnd]
    rfl
  case cons =>
    intro c s string body v i d n m
    have hpos := (Literal.bodyStep_bounds (v := v) (i := i) (h := d) (c := c) (s := s)
      fun m hm => Literal.stringLength?_bounds hm).2
    rw [stringBodyEnd_utf8_cons string]
    cases ho : (bodyStep v i d c s).2 with
    | none => rw [Literal.stringBodyEnd_stop ho, Nat.add_sub_cancel_left]
    | some d' =>
      rw [ho] at hpos
      obtain ⟨j, hj⟩ := Nat.exists_eq_add_of_lt (hpos rfl)
      rw [Literal.stringBodyEnd_step ho, hj, Nat.zero_add, Nat.add_sub_cancel, List.drop_succ_cons]
      have hle := Literal.le_stringBodyEnd v i d' (m + (j + 1)) (s.drop j)
      have hrest := body (s.drop j) (by rw [List.length_drop]; omega) v i d' (n + width ((c :: s).take (j + 1)))
        (m + (j + 1))
      refine hrest.trans ?_
      generalize Literal.stringBodyEnd v i d' (m + (j + 1)) (s.drop j) = e at hle ⊢
      obtain ⟨l, rfl⟩ := Nat.exists_eq_add_of_le hle
      rw [Nat.add_sub_cancel_left, Nat.add_assoc m, Nat.add_sub_cancel_left, width_take_add (c :: s) (j + 1),
        List.drop_succ_cons, Nat.add_assoc]

/-- **A string literal read byte by byte ends where its characters say.** -/
theorem stringLength?_utf8 (s : List Char) :
    stringLength? (utf8 s) = some ((Literal.stringLength? s).map fun m => width (s.take m)) :=
  string_utf8.2 s

end LayoutLint.Bytes
