import LayoutLint.Text.Find
import LayoutLint.Text.Measure
import Mathlib.Data.List.Basic
/-!
# Utf8 — the bytes of a text

A character below U+0080 is one byte, its code; every byte of another character is 128 or more, and only the first one
is 192 or more (`encode_cases`). So what looks for ASCII characters byte by byte finds what a look at the characters
finds (`isPrefixOf_utf8`, `find?_utf8`), and the byte it finds starts a character.
-/
namespace LayoutLint.Bytes

open Text (width)

/-- The bytes of a text. -/
def utf8 (s : List Char) : List UInt8 := s.flatMap String.utf8EncodeChar

/-- The byte of an ASCII character. -/
def code (c : Char) : UInt8 := UInt8.ofNat c.toNat

/-- Does the byte stand inside a character? -/
def isInner (b : UInt8) : Bool := 128 ≤ b.toNat && b.toNat < 192

/-- Does a character start where the bytes go on, or the text end? A text can be cut at such places only. -/
def isBoundary (b : List UInt8) : Bool := !b.head?.any isInner

theorem utf8_cons (c : Char) (s : List Char) : utf8 (c :: s) = String.utf8EncodeChar c ++ utf8 s := rfl

theorem utf8_append (s t : List Char) : utf8 (s ++ t) = utf8 s ++ utf8 t := List.flatMap_append

theorem length_utf8 (s : List Char) : (utf8 s).length = width s := by
  induction s with
  | nil => rfl
  | cons c s ih => rw [utf8_cons, List.length_append, String.length_utf8EncodeChar, ih, Text.width_cons]

theorem toNat_ofNat {n : Nat} (h : n < 256) : (UInt8.ofNat n).toNat = n := UInt8.toNat_ofNat_of_lt' h

/-- **The bytes of a character.** -/
theorem encode_cases (c : Char) : (c.toNat < 128 ∧ String.utf8EncodeChar c = [code c]) ∨
    (128 ≤ c.toNat ∧ ∃ b bs, String.utf8EncodeChar c = b :: bs ∧ 192 ≤ b.toNat ∧ ∀ x ∈ bs, 128 ≤ x.toNat) := by
  have hc : c.val.toNat = c.toNat := rfl
  rcases Nat.lt_or_ge c.toNat 128 with h | h
  · exact .inl ⟨h, if_pos (Nat.le_of_lt_succ h)⟩
  · right
    refine ⟨h, ?_⟩
    have hbyte : ∀ n, (UInt8.ofNat (n % 64 + 128)).toNat = n % 64 + 128 := fun n => toNat_ofNat (by omega)
    rw [String.utf8EncodeChar, if_neg (by omega)]
    split
    · refine ⟨_, _, rfl, ?_, ?_⟩
      · rw [toNat_ofNat (by omega)]
        omega
      · simp only [List.forall_mem_cons, hbyte]
        exact ⟨by omega, fun _ h => absurd h List.not_mem_nil⟩
    · split
      · refine ⟨_, _, rfl, ?_, ?_⟩
        · rw [toNat_ofNat (by omega)]
          omega
        · simp only [List.forall_mem_cons, hbyte]
          exact ⟨by omega, by omega, fun _ h => absurd h List.not_mem_nil⟩
      · refine ⟨_, _, rfl, ?_, ?_⟩
        · rw [toNat_ofNat (by omega)]
          omega
        · simp only [List.forall_mem_cons, hbyte]
          exact ⟨by omega, by omega, by omega, fun _ h => absurd h List.not_mem_nil⟩

/-- What follows a character is seen from its bytes. -/
theorem utf8_cons_cases (c : Char) (s : List Char) :
    (c.toNat < 128 ∧ utf8 (c :: s) = code c :: utf8 s ∧ c.utf8Size = 1) ∨
    (128 ≤ c.toNat ∧ ∃ b bs, utf8 (c :: s) = b :: (bs ++ utf8 s) ∧ 192 ≤ b.toNat ∧ (∀ x ∈ bs, 128 ≤ x.toNat) ∧
      c.utf8Size = bs.length + 1) := by
  rw [utf8_cons, ← String.length_utf8EncodeChar]
  rcases encode_cases c with ⟨h, he⟩ | ⟨h, b, bs, he, hb, hbs⟩
  · exact .inl ⟨h, by rw [he]; rfl, by rw [he]; rfl⟩
  · exact .inr ⟨h, b, bs, by rw [he]; rfl, hb, hbs, by rw [he]; rfl⟩

theorem toNat_code {c : Char} (h : c.toNat < 128) : (code c).toNat = c.toNat :=
  toNat_ofNat (by omega)

theorem code_beq {a c : Char} (ha : a.toNat < 128) (hc : c.toNat < 128) : (code c == code a) = (c == a) := by
  rw [Bool.eq_iff_iff, beq_iff_eq, beq_iff_eq]
  refine ⟨fun h => ?_, fun h => h ▸ rfl⟩
  have := congrArg UInt8.toNat h
  rw [toNat_code ha, toNat_code hc] at this
  exact Char.toNat_inj.1 this

theorem beq_code_of_wide {b : UInt8} (hb : 128 ≤ b.toNat) {a : Char} (ha : a.toNat < 128) : (b == code a) = false := by
  rw [beq_eq_false_iff_ne]
  rintro rfl
  rw [toNat_code ha] at hb
  omega

theorem beq_of_wide {c : Char} (hc : 128 ≤ c.toNat) {a : Char} (ha : a.toNat < 128) : (c == a) = false := by
  rw [beq_eq_false_iff_ne]
  rintro rfl
  omega

/-- **A text is not cut inside a character where its characters end.** -/
theorem isBoundary_utf8 (s : List Char) : isBoundary (utf8 s) = true := by
  cases s with
  | nil => rfl
  | cons c s =>
    rcases utf8_cons_cases c s with ⟨h, he, -⟩ | ⟨-, b, bs, he, hb, -⟩
    · rw [he, isBoundary, List.head?_cons, Option.any_some, isInner, toNat_code h,
        decide_eq_false (by omega : ¬ 128 ≤ c.toNat)]
      rfl
    · rw [he, isBoundary, List.head?_cons, Option.any_some, isInner, decide_eq_false (by omega : ¬ b.toNat < 192),
        Bool.and_false]
      rfl

theorem drop_utf8 (s : List Char) (n : Nat) : (utf8 s).drop (width (s.take n)) = utf8 (s.drop n) := by
  conv => lhs; rw [← List.take_append_drop n s]
  rw [utf8_append, ← length_utf8, List.take_append_drop, List.drop_left]

/-- The head of the bytes of a text is an ASCII character when that is the head of the text. -/
theorem head?_utf8 {a : Char} (ha : a.toNat < 128) (s : List Char) :
    ((utf8 s).head? == some (code a)) = (s.head? == some a) := by
  cases s with
  | nil => rfl
  | cons c s =>
    rcases utf8_cons_cases c s with ⟨h, he, -⟩ | ⟨h, b, bs, he, hb, -⟩
    · rw [he, List.head?_cons, List.head?_cons, Option.some_beq_some, Option.some_beq_some, code_beq ha h]
    · rw [he, List.head?_cons, List.head?_cons, Option.some_beq_some, Option.some_beq_some, beq_of_wide h ha,
        beq_code_of_wide (by omega) ha]

theorem isEmpty_utf8 (s : List Char) : (utf8 s).isEmpty = s.isEmpty := by
  cases s with
  | nil => rfl
  | cons c s =>
    rcases utf8_cons_cases c s with ⟨-, he, -⟩ | ⟨-, b, bs, he, -⟩ <;> rw [he] <;> rfl

/-- The text is of ASCII characters. -/
def Ascii (p : List Char) : Prop :=
  ∀ a ∈ p, a.toNat < 128

instance (p : List Char) : Decidable (Ascii p) :=
  List.decidableBAll (fun a : Char => a.toNat < 128) p

/-- ASCII characters are as many bytes. -/
theorem width_of_ascii {s : List Char} (h : Ascii s) : width s = s.length := by
  induction s with
  | nil => rfl
  | cons c s ih =>
    have hc := h c List.mem_cons_self
    rcases utf8_cons_cases c s with ⟨-, -, hsize⟩ | ⟨hwide, -⟩
    · rw [Text.width_cons, ih fun d hd => h d (List.mem_cons_of_mem _ hd), hsize, List.length_cons, Nat.add_comm]
    · omega

theorem isPrefixOf_utf8 {p : List Char} (hp : Ascii p) (s : List Char) :
    (p.map code).isPrefixOf (utf8 s) = p.isPrefixOf s := by
  induction p generalizing s with
  | nil => rfl
  | cons a p ih =>
    have ha := hp a List.mem_cons_self
    cases s with
    | nil => rfl
    | cons c s =>
      rw [List.map_cons]
      rcases utf8_cons_cases c s with ⟨h, he, -⟩ | ⟨h, b, bs, he, hb, -⟩
      · rw [he, List.isPrefixOf, List.isPrefixOf, code_beq h ha, ih fun d hd => hp d (List.mem_cons_of_mem _ hd)]
      · have h₁ : (code a == b) = false := by rw [BEq.comm, beq_code_of_wide (by omega) ha]
        have h₂ : (a == c) = false := by rw [BEq.comm, beq_of_wide h ha]
        rw [he, List.isPrefixOf, List.isPrefixOf, h₁, h₂, Bool.false_and, Bool.false_and]

/-- The number of bytes before the first place of the pattern. -/
def find? (pattern : List UInt8) : List UInt8 → Option Nat
  | [] => if pattern.isEmpty then some 0 else none
  | b :: r => if pattern.isPrefixOf (b :: r) then some 0 else (find? pattern r).map (· + 1)

theorem findFrom_eq (p : List Char) (i : Nat) (s : List Char) :
    Text.findFrom i p s = (Text.findFrom 0 p s).map (i + ·) := by
  induction s generalizing i with
  | nil =>
    rw [Text.findFrom, Text.findFrom]
    split <;> rfl
  | cons c s ih =>
    rw [Text.findFrom, Text.findFrom]
    split
    · rfl
    · rw [ih (i + 1), ih (0 + 1), Option.map_map]
      congr 1
      funext n
      simp only [Function.comp_apply]
      omega

/-- A pattern of ASCII characters does not stand at a byte of another character. -/
theorem find?_wide {a : Char} {p : List Char} (ha : a.toNat < 128) {bs : List UInt8} (hbs : ∀ x ∈ bs, 128 ≤ x.toNat)
    (r : List UInt8) : find? ((a :: p).map code) (bs ++ r) = (find? ((a :: p).map code) r).map (bs.length + ·) := by
  induction bs with
  | nil => simp
  | cons b bs ih =>
    have hb : (code a == b) = false := by rw [BEq.comm, beq_code_of_wide (hbs b List.mem_cons_self) ha]
    rw [List.cons_append, find?, List.map_cons, List.isPrefixOf, hb, Bool.false_and, if_neg Bool.false_ne_true,
      ← List.map_cons, ih fun x hx => hbs x (List.mem_cons_of_mem _ hx), Option.map_map]
    congr 1
    funext n
    simp only [Function.comp_apply, List.length_cons]
    omega

/-- **A pattern of ASCII characters is found in the bytes of a text where it is found in its characters.** -/
theorem find?_utf8 {a : Char} {p : List Char} (hp : Ascii (a :: p)) (s : List Char) :
    find? ((a :: p).map code) (utf8 s) = (Text.find? (a :: p) s).map fun n => width (s.take n) := by
  have ha := hp a List.mem_cons_self
  induction s with
  | nil => rfl
  | cons c s ih =>
    have hnext : (Text.findFrom (0 + 1) (a :: p) s).map (fun n => width ((c :: s).take n)) =
        ((Text.find? (a :: p) s).map fun n => width (s.take n)).map (c.utf8Size + ·) := by
      rw [findFrom_eq, Text.find?, Option.map_map, Option.map_map]
      congr 1
      funext n
      simp only [Function.comp_apply, Nat.zero_add, Nat.add_comm 1 n, List.take_succ_cons, Text.width_cons]
    rw [Text.find?, Text.findFrom]
    rcases utf8_cons_cases c s with ⟨h, he, hsize⟩ | ⟨h, b, bs, he, hb, hbs, hsize⟩
    · rw [he, find?, ← he, isPrefixOf_utf8 hp]
      split
      · rfl
      · rw [ih, hnext, hsize]
        congr 1
        funext n
        omega
    · have hfalse : (a :: p).isPrefixOf (c :: s) = false := by
        rw [List.isPrefixOf, show (a == c) = false by rw [BEq.comm, beq_of_wide h ha], Bool.false_and]
      rw [hfalse, if_neg Bool.false_ne_true, hnext, he, ← List.cons_append,
        find?_wide ha (by rintro x (_ | ⟨_, hx⟩); exacts [by omega, hbs x hx]), ih, hsize, List.length_cons]

end LayoutLint.Bytes
