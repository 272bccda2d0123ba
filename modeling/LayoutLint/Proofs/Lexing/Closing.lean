import LayoutLint.Proofs.Lexing.Between
/-!
# Closing — what ends a comment

A comment or a directive is closed inside of its line, or, as a block comment, by what it ends in. One that is not, as
it ends in a line break or in no such thing, reaches to the end of the text (`eq_nil_of_endsInBreak`,
`eq_nil_of_unclosed`).
-/
namespace LayoutLint

open Text (find?)

/-- A block comment ends where it is closed, or where the text ends. -/
theorem blockComment_ends {t r : List Char} (ht : ['/', '*'].isPrefixOf t = true)
    (h : blockCommentLength (t ++ r) = t.length) :
    r = [] ∨ ∃ n, find? "*/".toList (t.drop 2 ++ r) = some n ∧ t.length = n + 4 := by
  have h2 : 2 ≤ t.length := (List.isPrefixOf_iff_prefix.1 ht).length_le
  rw [blockCommentLength, List.drop_append_of_le_length h2] at h
  split at h
  · rename_i n hn
    exact .inr ⟨n, hn, h.symm⟩
  · refine .inl (List.length_eq_zero_iff.1 ?_)
    rw [List.length_append] at h
    omega

/-- The kinds of comments and directives. -/
theorem commentKind_eq (doc noDoc s : List Char) :
    commentKind doc noDoc s = .comment ∨ commentKind doc noDoc s = .structured := by
  rw [commentKind]
  split
  · exact .inr rfl
  · exact .inl rfl

/-- A block comment that nothing closes reaches to the end of the text. -/
theorem eq_nil_of_unclosed {b : Bool} {k : TriviaKind} {t r : List Char} (ht : Unclosed t)
    (hs : Trivia.scan? b (t ++ r) = some (k, t.length)) : r = [] ∧ (k = .comment ∨ k = .structured) := by
  obtain ⟨hstart, hopen⟩ := ht
  obtain ⟨rest, rfl⟩ := List.isPrefixOf_iff_prefix.1 hstart
  rw [show ['/', '*'] ++ rest ++ r = '/' :: ('*' :: rest ++ r) from rfl,
    scan?_of_not_blank (by decide) (by decide), if_neg (by simp [List.isPrefixOf]),
    if_pos (by simp [List.isPrefixOf]), Option.some.injEq, Prod.mk.injEq] at hs
  refine ⟨?_, hs.1 ▸ commentKind_eq _ _ _⟩
  rcases blockComment_ends hstart hs.2 with hr | ⟨n, hn, hlength⟩
  · exact hr
  · -- What closes the comment stands inside of it.
    have hstar : ("*/".toList).length = 2 := rfl
    have hfound := Literal.findFrom_append (['/', '*'] ++ rest |>.drop 2) hn (by rw [List.length_drop]; omega) []
    rw [List.append_nil] at hfound
    exact absurd (hopen.symm.trans hfound) (Option.some_ne_none n).symm

/-- A line without its break does not end in one. -/
theorem isBreakChar_of_lineLength {t r : List Char} (h : lineLength (t ++ r) = t.length) {c : Char}
    (hc : c ∈ t) : isBreakChar c = false := by
  have ht := (length_takeWhile_append.1 h).1 c hc
  simpa using ht

/-- What is closed ends in what closes it. -/
theorem getLast?_of_closed {t r : List Char} {n : Nat} (hn : find? "*/".toList (t.drop 2 ++ r) = some n)
    (hlength : t.length = n + 4) : t.getLast? = some '/' := by
  have hstands := Literal.isPrefixOf_of_findFrom hn
  obtain ⟨z, hz⟩ := List.isPrefixOf_iff_prefix.1 hstands
  have hslash : (t.drop 2 ++ r)[n + 1]? = some '/' := by
    rw [← List.getElem?_drop, ← Nat.sub_zero n, ← hz]
    rfl
  rw [List.getElem?_append_left (by rw [List.length_drop]; omega), List.getElem?_drop] at hslash
  rwa [List.getLast?_eq_getElem?, hlength, show n + 4 - 1 = 2 + (n + 1) by omega]

/-- **A comment or directive that ends in a line break reaches to the end of the text.** -/
theorem eq_nil_of_endsInBreak {b : Bool} {k : TriviaKind} {t r : List Char}
    (hs : Trivia.scan? b (t ++ r) = some (k, t.length)) (hw : k ≠ .whitespace) (hl : k ≠ .endOfLine) {e : Char}
    (hlast : t.getLast? = some e) (he : isBreakChar e = true) : r = [] := by
  have hmem : e ∈ t := List.mem_of_getLast? hlast
  have hline : lineLength (t ++ r) = t.length → r = [] := fun h =>
    absurd he (by rw [isBreakChar_of_lineLength h hmem]; exact Bool.false_ne_true)
  cases scan?_eq_some_iff.1 hs with
  | lineBreak _ _ hk => exact absurd hk hl
  | gap _ _ hk => exact absurd hk hw
  | lineComment _ _ hn => exact hline hn.symm
  | blockComment hp _ hn =>
    rw [isPrefixOf_of_length (hn ▸ (blockCommentLength_bounds hp).1)] at hp
    rcases blockComment_ends hp hn.symm with hr | ⟨n, hfind, hlength⟩
    · exact hr
    · have hslash := getLast?_of_closed hfind hlength
      rw [hlast] at hslash
      cases hslash
      cases he
  | directive _ _ _ hn => exact hline hn.symm

end LayoutLint
