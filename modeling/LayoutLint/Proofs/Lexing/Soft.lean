import LayoutLint.Token.Scan
/-!
# Soft — text that ends the token in front of it

White space, parentheses and the slash never go on with a token that stands in front of them, so one text with such a
head may take the place of another and the tokens in front stay what they are. Two texts are alike (`Alike`) when they
agree up to a place from which both go on softly; what a scan sees past the end of a token is the same in both.
-/
namespace LayoutLint

open Text (isBlank)

/-- A character that ends any token in front of it. -/
def isSoft (c : Char) : Bool := isBlank c || c == '(' || c == ')' || c == '/'

/-- Does the text end, or go on with a soft character? -/
def SoftHead (s : List Char) : Prop := ∀ c ∈ s.head?, isSoft c = true

/-- Does the text end, or go on with a line break? -/
def LineEnd (s : List Char) : Prop := ∀ c ∈ s.head?, isBreakChar c = true

/-- Texts that agree up to a place from which both go on softly, the second one with no slash. -/
inductive Alike : List Char → List Char → Prop
  | cut {s t : List Char} : SoftHead s → SoftHead t → t.head? ≠ some '/' → Alike s t
  | cons (c : Char) {s t : List Char} : Alike s t → Alike (c :: s) (c :: t)

theorem softHead_nil : SoftHead [] := by
  intro c hc
  simp at hc

theorem softHead_cons {c : Char} {s : List Char} : SoftHead (c :: s) ↔ isSoft c = true := by
  simp [SoftHead]

theorem lineEnd_nil : LineEnd [] := by
  intro c hc
  simp at hc

theorem lineEnd_cons {c : Char} {s : List Char} : LineEnd (c :: s) ↔ isBreakChar c = true := by
  simp [LineEnd]

theorem lineEnd_append {s e : List Char} (hs : s ≠ []) (h : LineEnd s) : LineEnd (s ++ e) := by
  obtain ⟨c, s, rfl⟩ := List.exists_cons_of_ne_nil hs
  exact lineEnd_cons.2 (lineEnd_cons.1 h)

theorem isBlank_of_isBreakChar {c : Char} (h : isBreakChar c = true) : isBlank c = true := by
  simp only [isBreakChar, Bool.or_eq_true, beq_iff_eq] at h
  rcases h with rfl | rfl <;> decide

theorem isSoft_of_isBlank {c : Char} (h : isBlank c = true) : isSoft c = true := by
  simp [isSoft, h]

theorem isSoft_of_isBreakChar {c : Char} (h : isBreakChar c = true) : isSoft c = true :=
  isSoft_of_isBlank (isBlank_of_isBreakChar h)

/-- The soft characters one by one. -/
def softChars : List Char :=
  [9, 10, 11, 12, 13, 32, 40, 41, 47, 0x85, 0xA0, 0x1680, 0x2000, 0x2001, 0x2002, 0x2003, 0x2004, 0x2005, 0x2006,
    0x2007, 0x2008, 0x2009, 0x200A, 0x2028, 0x2029, 0x202F, 0x205F, 0x3000].map Char.ofNat

theorem mem_softChars {c : Char} (h : isSoft c = true) : c ∈ softChars := by
  have key : ∀ d : Char, (c == d) = true → c.toNat = d.toNat := fun d hd => by rw [beq_iff_eq.1 hd]
  simp only [isSoft, isBlank, Bool.or_eq_true, Bool.and_eq_true, decide_eq_true_eq] at h
  refine List.mem_map.2 ⟨c.toNat, ?_, Char.ofNat_toNat c⟩
  simp only [List.mem_cons, List.not_mem_nil, or_false]
  rcases h with ((h | h) | h) | h
  · simp only [beq_iff_eq] at h
    omega
  all_goals rw [key _ h]; decide

/-- No character of the text is one of those told. -/
def Avoids (f : Char → Bool) (p : List Char) : Prop :=
  ∀ c ∈ p, f c = false

-- Named here, for a search through all characters would be found as well.
instance (f : Char → Bool) (p : List Char) : Decidable (Avoids f p) :=
  List.decidableBAll (fun c => f c = false) p

/-- **A soft character is no part of a word.** -/
theorem isWordPart_of_isSoft {c : Char} (h : isSoft c = true) : isWordPart c = false :=
  (by decide : Avoids isWordPart softChars) c (mem_softChars h)

namespace Alike

variable {s t : List Char}

protected theorem refl : ∀ s : List Char, Alike s s
  | [] => .cut softHead_nil softHead_nil (by simp)
  | c :: s => .cons c (Alike.refl s)

protected theorem append (x : List Char) (h : Alike s t) : Alike (x ++ s) (x ++ t) := by
  induction x with
  | nil => exact h
  | cons c x ih => exact .cons c ih

/-- A text that goes on softly is alike with the end of a line. -/
theorem of_lineEnd (hs : SoftHead s) (ht : LineEnd t) : Alike s t := by
  refine .cut hs (fun c hc => isSoft_of_isBreakChar (ht c hc)) fun h => ?_
  exact absurd (ht '/' (by rw [h]; rfl)) (by decide)

/-- A text is alike with itself and a line break behind it. -/
theorem append_lineEnd (s : List Char) {e : List Char} (he : LineEnd e) : Alike s (s ++ e) := by
  simpa using (of_lineEnd softHead_nil he).append s

/-- Alike texts have the same head, or soft heads. -/
theorem head (h : Alike s t) : (∃ c x y, s = c :: x ∧ t = c :: y ∧ Alike x y) ∨ (SoftHead s ∧ SoftHead t) := by
  cases h with
  | cut hs ht _ => exact .inr ⟨hs, ht⟩
  | cons c h => exact .inl ⟨c, _, _, rfl, rfl, h⟩

/-- A slash at the head of the second of two alike texts is one at the head of the first. -/
theorem head_slash (h : Alike s t) (ht : t.head? = some '/') : s.head? = some '/' := by
  cases h with
  | cut _ _ hd => exact absurd ht hd
  | cons c h => exact ht

/-- A test that fails on soft characters gives the same answer at the heads of alike texts. -/
theorem head_any {p : Char → Bool} (hp : ∀ c, isSoft c = true → p c = false) (h : Alike s t) :
    s.head?.any p = t.head?.any p := by
  have soft : ∀ u : List Char, SoftHead u → u.head?.any p = false := by
    intro u hu
    cases u with
    | nil => rfl
    | cons c u => simpa using hp c (softHead_cons.1 hu)
  rcases h.head with ⟨c, x, y, rfl, rfl, -⟩ | ⟨hs, ht⟩
  · rfl
  · rw [soft s hs, soft t ht]

/-- A character that is not soft is the head of both of two alike texts, or of none. -/
theorem head_eq_iff {c : Char} (hc : isSoft c = false) (h : Alike s t) : s.head? = some c ↔ t.head? = some c := by
  have hp : ∀ d, isSoft d = true → (d == c) = false := by
    intro d hd
    rw [beq_eq_false_iff_ne]
    rintro rfl
    rw [hd] at hc
    cases hc
  have key : ∀ u : List Char, u.head? = some c ↔ u.head?.any (· == c) = true := by
    intro u
    cases u <;> simp
  rw [key, key, h.head_any hp]

/-- A pattern without soft characters is a prefix of both of two alike texts, or of none. -/
theorem isPrefixOf {p : List Char} (hp : Avoids isSoft p) (h : Alike s t) :
    p.isPrefixOf s = p.isPrefixOf t := by
  induction p generalizing s t with
  | nil => rfl
  | cons d p ih =>
    have hd := hp d List.mem_cons_self
    have soft : ∀ u : List Char, SoftHead u → (d :: p).isPrefixOf u = false := by
      intro u hu
      cases u with
      | nil => rfl
      | cons c u =>
        have : (d == c) = false := by
          rw [beq_eq_false_iff_ne]
          rintro rfl
          rw [softHead_cons.1 hu] at hd
          cases hd
        simp [List.isPrefixOf, this]
    rcases h.head with ⟨c, x, y, rfl, rfl, hxy⟩ | ⟨hs, ht⟩
    · simp only [List.isPrefixOf]
      rw [ih (fun c hc => hp c (List.mem_cons_of_mem _ hc)) hxy]
    · rw [soft s hs, soft t ht]

/-- A pattern whose only soft character is its head is a prefix of both of two alike texts with a common head, or of
none. -/
theorem isPrefixOf_cons {p : List Char} (hp : Avoids isSoft p.tail) (c : Char) (h : Alike s t) :
    p.isPrefixOf (c :: s) = p.isPrefixOf (c :: t) := by
  cases p with
  | nil => rfl
  | cons d p =>
    have hp : Avoids isSoft p := hp
    simp only [List.isPrefixOf]
    rw [h.isPrefixOf hp]

/-- What is taken while a test holds that fails on soft characters is the same in alike texts, and what is left is alike
again. -/
theorem takeWhile {p : Char → Bool} (hp : ∀ c, isSoft c = true → p c = false) (h : Alike s t) :
    s.takeWhile p = t.takeWhile p ∧ Alike (s.dropWhile p) (t.dropWhile p) := by
  induction h with
  | @cut s t hs ht hd =>
    have soft : ∀ u : List Char, SoftHead u → u.takeWhile p = [] ∧ u.dropWhile p = u := by
      intro u hu
      cases u with
      | nil => exact ⟨rfl, rfl⟩
      | cons c u => simp [hp c (softHead_cons.1 hu)]
    rw [(soft s hs).1, (soft t ht).1, (soft s hs).2, (soft t ht).2]
    exact ⟨rfl, .cut hs ht hd⟩
  | cons c h ih =>
    cases hc : p c
    · simp only [List.takeWhile_cons, List.dropWhile_cons, hc, Bool.false_eq_true, if_false]
      exact ⟨trivial, .cons c h⟩
    · simp only [List.takeWhile_cons, List.dropWhile_cons, hc, if_true, ih.1]
      exact ⟨trivial, ih.2⟩

end Alike

end LayoutLint
