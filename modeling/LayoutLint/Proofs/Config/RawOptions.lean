import LayoutLint.Options
import Mathlib.Data.List.TakeWhile
/-!
# RawOptions — option values as raw texts

A length comes as its decimal digits, and is read from them again (`read_maxLineLength`). A list of names comes as one
text with commas between the entries, and what is read is read from the entries one by one (`read_extensionMethods`):
an entry with commas is several names, the white space around a name goes, and an empty name goes. So the entries are
read again exactly when each of them is a name by itself (`Text.flatMap_namesIn_eq_iff`).
-/
namespace LayoutLint

/-! ### Numbers -/

theorem readDigits_eq {cs : List Char} (h : ∀ c ∈ cs, c.isDigit = true) (n : Nat) :
    readDigits n cs = some (Nat.ofDigitChars 10 cs n) := by
  induction cs generalizing n with
  | nil => rfl
  | cons c cs ih =>
    obtain ⟨hc, hcs⟩ := List.forall_mem_cons.1 h
    rw [readDigits, if_pos hc, ih hcs, Nat.mul_comm n 10]
    rfl

theorem readNumber_toDigits {n : Nat} (h : n ≤ maxNumber) : readNumber (Nat.toDigits 10 n) = some n := by
  have hdigits : ∀ c ∈ Nat.toDigits 10 n, c.isDigit = true := fun c hc =>
    Nat.isDigit_of_mem_toDigits (by decide) (by decide) hc
  obtain ⟨c, cs, hcs⟩ := List.exists_cons_of_ne_nil (Nat.toDigits_ne_nil (n := n) (b := 10))
  have hplus : c ≠ '+' := by
    rintro rfl
    exact absurd (hdigits '+' (by rw [hcs]; exact List.mem_cons_self)) (by decide)
  have hread : readDigits 0 (c :: cs) = some n := by
    rw [← hcs, readDigits_eq hdigits, Nat.ofDigitChars_ten_toDigits]
  rw [hcs, readNumber]
  · simp [hread, h]
  · exact fun r heq => hplus (List.cons.inj heq).1

namespace Text

/-! ### White space at the ends of a text -/

theorem trimChars_append_left {blanks : List Char} (h : ∀ c ∈ blanks, isBlank c = true) (cs : List Char) :
    trimChars (blanks ++ cs) = trimChars cs := by
  rw [trimChars, List.dropWhile_append_of_pos h, trimChars]

theorem trimChars_append_right {blanks : List Char} (h : ∀ c ∈ blanks, isBlank c = true) (cs : List Char) :
    trimChars (cs ++ blanks) = trimChars cs := by
  have hnil : blanks.dropWhile isBlank = [] := List.dropWhile_eq_nil_iff.2 h
  have hreverse : ∀ c ∈ blanks.reverse, isBlank c = true := fun c hc => h c (List.mem_reverse.1 hc)
  rw [trimChars, trimChars, List.dropWhile_append]
  split
  · rename_i hcs
    rw [hnil, List.isEmpty_iff.1 hcs]
  · rw [List.reverse_append, List.dropWhile_append_of_pos hreverse]

/-- A text is white space, what trimming leaves, and white space. -/
theorem exists_blanks (cs : List Char) : ∃ front behind : List Char, cs = front ++ trimChars cs ++ behind ∧
    (∀ c ∈ front, isBlank c = true) ∧ ∀ c ∈ behind, isBlank c = true := by
  refine ⟨cs.takeWhile isBlank, ((cs.dropWhile isBlank).reverse.takeWhile isBlank).reverse, ?_,
    fun c hc => List.mem_takeWhile_imp hc, fun c hc => List.mem_takeWhile_imp (List.mem_reverse.1 hc)⟩
  rw [trimChars, List.append_assoc, ← List.reverse_append, List.takeWhile_append_dropWhile, List.reverse_reverse,
    List.takeWhile_append_dropWhile]

theorem trimChars_trimChars (cs : List Char) : trimChars (trimChars cs) = trimChars cs := by
  obtain ⟨front, behind, hcs, hfront, hbehind⟩ := exists_blanks cs
  have h := congrArg trimChars hcs
  rw [trimChars_append_right hbehind, trimChars_append_left hfront] at h
  exact h.symm

theorem mem_of_mem_trimChars {cs : List Char} {c : Char} (h : c ∈ trimChars cs) : c ∈ cs := by
  obtain ⟨front, behind, hcs, -, -⟩ := exists_blanks cs
  rw [hcs]
  exact List.mem_append_left _ (List.mem_append_right _ h)

theorem isBlank_of_isDigit {c : Char} (h : c.isDigit = true) : isBlank c = false := by
  obtain ⟨hlow, hhigh⟩ : 48 ≤ c.toNat ∧ c.toNat ≤ 57 := by
    simpa [Char.isDigit, UInt32.le_iff_toNat_le] using h
  simp only [isBlank, Bool.or_eq_false_iff, Bool.and_eq_false_iff, decide_eq_false_iff_not, beq_eq_false_iff_ne]
  omega

theorem trimChars_eq_self {cs : List Char} (h : ∀ c ∈ cs, isBlank c = false) : trimChars cs = cs := by
  obtain ⟨front, behind, hcs, hfront, hbehind⟩ := exists_blanks cs
  have hnil : front = [] ∧ behind = [] := by
    constructor <;> refine List.eq_nil_iff_forall_not_mem.2 fun c hc => ?_
    · exact Bool.false_ne_true ((h c (by rw [hcs]; simp [hc])).symm.trans (hfront c hc))
    · exact Bool.false_ne_true ((h c (by rw [hcs]; simp [hc])).symm.trans (hbehind c hc))
  rw [hnil.1, hnil.2, List.nil_append, List.append_nil] at hcs
  exact hcs.symm

/-! ### Parts of a text -/

/-- Where two texts meet, the last part of the first and the first part of the second become one. -/
theorem splitOn_append (sep : Char) (cs ds : List Char) : ∃ front last first behind,
    splitOn sep cs = front ++ [last] ∧ splitOn sep ds = first :: behind ∧
      splitOn sep (cs ++ ds) = front ++ (last ++ first) :: behind := by
  obtain ⟨first, behind, hds⟩ := List.exists_cons_of_ne_nil (splitOn_ne_nil sep ds)
  induction cs with
  | nil => exact ⟨[], [], first, behind, rfl, hds, hds⟩
  | cons c cs ih =>
    obtain ⟨front, last, first', behind', hcs, hds', happend⟩ := ih
    by_cases hc : c = sep
    · exact ⟨[] :: front, last, first', behind', by simp [splitOn, hc, hcs], hds', by simp [splitOn, hc, happend]⟩
    · cases front with
      | nil => exact ⟨[], c :: last, first', behind', by simp_all [splitOn], hds', by simp_all [splitOn]⟩
      | cons p front =>
        exact ⟨(c :: p) :: front, last, first', behind', by simp_all [splitOn], hds', by simp_all [splitOn]⟩

theorem splitOn_eq_singleton {sep : Char} {cs : List Char} (h : sep ∉ cs) : splitOn sep cs = [cs] := by
  induction cs with
  | nil => rfl
  | cons c cs ih =>
    rw [List.mem_cons, not_or] at h
    simp [splitOn, Ne.symm h.1, ih h.2]

theorem not_mem_of_mem_splitOn {sep : Char} {cs : List Char} : ∀ part ∈ splitOn sep cs, sep ∉ part := by
  induction cs with
  | nil => simp [splitOn]
  | cons c cs ih =>
    rw [splitOn]
    split
    · exact List.forall_mem_cons.2 ⟨List.not_mem_nil, ih⟩
    · rename_i hc
      have hne : sep ≠ c := fun h => hc (beq_iff_eq.2 h.symm)
      split
      · simpa using hne
      · rename_i part parts hparts
        rw [hparts] at ih
        obtain ⟨hpart, hrest⟩ := List.forall_mem_cons.1 ih
        refine List.forall_mem_cons.2 ⟨fun h => ?_, hrest⟩
        rcases List.mem_cons.1 h with h | h
        · exact hne h
        · exact hpart h

/-! ### Names in a text -/

/-- The names that stand in a text between commas, without the white space around them. An empty one is no name. -/
def namesIn (cs : List Char) : List String :=
  ((splitOn ',' cs).map fun part => String.ofList (trimChars part)).filter (!·.isEmpty)

/-- A text that is one name: it is not empty, has no comma and no white space at its ends. -/
def IsName (s : String) : Prop := s ≠ "" ∧ ',' ∉ s.toList ∧ trim s = s

theorem namesIn_append_comma (cs ds : List Char) : namesIn (cs ++ ',' :: ds) = namesIn cs ++ namesIn ds := by
  obtain ⟨front, last, first, behind, hcs, hds, happend⟩ := splitOn_append ',' cs (',' :: ds)
  obtain ⟨rfl, rfl⟩ : first = [] ∧ behind = splitOn ',' ds := by simpa [splitOn, eq_comm] using hds
  rw [List.append_nil] at happend
  rw [namesIn, namesIn, namesIn, happend, hcs, List.append_cons, List.map_append, List.filter_append]

/-- **The names in entries with commas between them** are those in the entries one by one. -/
theorem namesIn_intercalate (entries : List (List Char)) :
    namesIn ([','].intercalate entries) = entries.flatMap namesIn := by
  induction entries with
  | nil => decide
  | cons e es ih =>
    cases es with
    | nil => simp
    | cons e' es =>
      rw [List.intercalate_cons_cons, List.append_assoc, List.singleton_append, namesIn_append_comma, ih]
      rfl

theorem namesIn_append_left {blanks : List Char} (h : ∀ c ∈ blanks, isBlank c = true) (cs : List Char) :
    namesIn (blanks ++ cs) = namesIn cs := by
  have hcomma : ',' ∉ blanks := fun hmem => absurd (h ',' hmem) (by decide)
  obtain ⟨front, last, first, behind, hblanks, hcs, happend⟩ := splitOn_append ',' blanks cs
  obtain ⟨rfl, rfl⟩ : front = [] ∧ last = blanks := by
    simpa [List.append_eq_singleton_iff] using hblanks.symm.trans (splitOn_eq_singleton hcomma)
  rw [namesIn, namesIn, happend, hcs, List.nil_append, List.map_cons, List.map_cons, trimChars_append_left h]

theorem namesIn_append_right {blanks : List Char} (h : ∀ c ∈ blanks, isBlank c = true) (cs : List Char) :
    namesIn (cs ++ blanks) = namesIn cs := by
  have hcomma : ',' ∉ blanks := fun hmem => absurd (h ',' hmem) (by decide)
  obtain ⟨front, last, first, behind, hcs, hblanks, happend⟩ := splitOn_append ',' cs blanks
  obtain ⟨rfl, rfl⟩ : first = blanks ∧ behind = [] := by simpa using hblanks.symm.trans (splitOn_eq_singleton hcomma)
  rw [namesIn, namesIn, happend, hcs, List.map_append, List.map_append, List.map_singleton, List.map_singleton,
    trimChars_append_right h]

theorem namesIn_trimChars (cs : List Char) : namesIn (trimChars cs) = namesIn cs := by
  obtain ⟨front, behind, hcs, hfront, hbehind⟩ := exists_blanks cs
  have h := congrArg namesIn hcs
  rw [namesIn_append_right hbehind, namesIn_append_left hfront] at h
  exact h.symm

theorem isName_of_mem_namesIn {cs : List Char} : ∀ s ∈ namesIn cs, IsName s := by
  intro s hs
  obtain ⟨hs, hne⟩ := List.mem_filter.1 hs
  obtain ⟨part, hpart, rfl⟩ := List.mem_map.1 hs
  refine ⟨by simpa using hne, ?_, ?_⟩
  · rw [String.toList_ofList]
    exact fun h => not_mem_of_mem_splitOn part hpart (mem_of_mem_trimChars h)
  · rw [trim, String.toList_ofList, trimChars_trimChars]

theorem IsName.namesIn_eq {s : String} (h : IsName s) : namesIn s.toList = [s] := by
  obtain ⟨hne, hcomma, htrim⟩ := h
  rw [trim] at htrim
  rw [namesIn, splitOn_eq_singleton hcomma, List.map_singleton, htrim]
  simpa using hne

/-- **The names in entries are the entries exactly when each of these is a name.** -/
theorem flatMap_namesIn_eq_iff {entries : List String} :
    entries.flatMap (fun e => namesIn e.toList) = entries ↔ ∀ e ∈ entries, IsName e := by
  constructor
  · intro h e he
    rw [← h] at he
    obtain ⟨e', -, he⟩ := List.mem_flatMap.1 he
    exact isName_of_mem_namesIn e he
  · intro h
    induction entries with
    | nil => rfl
    | cons e es ih =>
      obtain ⟨he, hes⟩ := List.forall_mem_cons.1 h
      rw [List.flatMap_cons, he.namesIn_eq, ih hes, List.singleton_append]

end Text

/-! ### The two options -/

/-- A number that a line can be measured by: positive, and within what is read as a number. -/
def IsLength (n : Nat) : Prop := 0 < n ∧ n ≤ maxNumber

/-- **A length is read from its digits.** -/
theorem read_maxLineLength {n : Nat} (h : IsLength n) :
    maxLineLengthOption.read (Text.trimChars (toString n).toList) = some n := by
  have hdigits : (toString n).toList = Nat.toDigits 10 n := by
    rw [Nat.toString_eq_ofList_toDigits, String.toList_ofList]
  have htrim : Text.trimChars (Nat.toDigits 10 n) = Nat.toDigits 10 n := Text.trimChars_eq_self fun c hc =>
    Text.isBlank_of_isDigit (Nat.isDigit_of_mem_toDigits (by decide) (by decide) hc)
  rw [hdigits, htrim, maxLineLengthOption]
  simp [readNumber_toDigits h.2, h.1]

/-- **Names are read from entries with commas between them**, entry by entry. -/
theorem read_extensionMethods (entries : List String) :
    extensionMethodsOption.read (Text.trimChars (",".intercalate entries).toList) =
      some (entries.flatMap fun e => Text.namesIn e.toList) := by
  have hread : ∀ cs, extensionMethodsOption.read cs = some (Text.namesIn cs) := fun _ => rfl
  have hcomma : ",".toList = [','] := rfl
  rw [hread, Text.namesIn_trimChars, String.toList_intercalate, hcomma, Text.namesIn_intercalate, List.flatMap_map]

end LayoutLint
