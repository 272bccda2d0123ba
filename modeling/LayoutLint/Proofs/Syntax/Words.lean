import LayoutLint.Syntax.Recognize
import Mathlib.Data.List.Basic
/-!
# Words — documents that say the same

Recognition reads the kinds and the words of tokens, not their trivia, and of a literal only that it is one. Two
documents whose tokens have the same kinds and the same words, a literal at the end apart (`SameWords`), have outlines
that answer every question alike.
-/
namespace LayoutLint

/-- A word with a quote in it, as literals have. -/
def isQuotedWord (w : String) : Bool := w.toList.any fun c => c == '"' || c == '\''

/-- Documents that say the same, where the word of a literal at the end does not count. -/
structure SameWords (d e : Document) : Prop where
  size : e.size = d.size
  eof : d.wordAt d.endOfFile = ""
  kind : ∀ i, e.kindAt i = d.kindAt i
  word : ∀ i, i + 2 ≠ d.size → e.wordAt i = d.wordAt i
  last : ∀ i, e.wordAt i = d.wordAt i ∨
    (isQuotedWord (e.wordAt i) = true ∧ isQuotedWord (d.wordAt i) = true ∧ d.kindAt i ≠ .identifier)

/-- Words without quotes, as the grammar knows them. -/
def arePlain (words : List String) : Bool := words.all fun w => !isQuotedWord w

namespace SameWords

variable {d e : Document} (h : SameWords d e)
include h

theorem endOfFile : e.endOfFile = d.endOfFile := by rw [Document.endOfFile, Document.endOfFile, h.size]

theorem wordAt_beq {w : String} (ht : arePlain [w] = true) (i : Nat) :
    (e.wordAt i == w) = (d.wordAt i == w) := by
  have hq : ∀ u, isQuotedWord u = true → (u == w) = false := by
    intro u hu
    rw [beq_eq_false_iff_ne]
    rintro rfl
    simp [arePlain, hu] at ht
  rcases h.last i with heq | ⟨he, hd, -⟩
  · rw [heq]
  · rw [hq _ he, hq _ hd]

theorem isOneOf {l : List String} (hw : arePlain l = true) (i : Nat) : e.isOneOf i l = d.isOneOf i l := by
  induction l with
  | nil => rfl
  | cons w l ih =>
    simp only [arePlain, List.all_cons, Bool.and_eq_true] at hw
    have hi := ih hw.2
    have hb := h.wordAt_beq (w := w) (by simp [arePlain, hw.1]) i
    simp only [Document.isOneOf, List.contains_cons] at hi ⊢
    rw [hb, hi]

theorem isKeywordAt {w : String} (ht : arePlain [w] = true) (i : Nat) :
    e.isKeywordAt i w = d.isKeywordAt i w := by
  rw [Document.isKeywordAt, Document.isKeywordAt, h.kind, h.wordAt_beq ht]

theorem isPredefined (i : Nat) : e.isPredefined i = d.isPredefined i := by
  have := h.isOneOf (l := predefinedTypes) (by decide) i
  rw [Document.isOneOf, Document.isOneOf] at this
  rw [Document.isPredefined, Document.isPredefined, h.kind, this]

theorem isNameAt (i : Nat) : e.isNameAt i = d.isNameAt i := by
  have := h.isOneOf (l := contextualWords) (by decide) i
  rw [Document.isOneOf, Document.isOneOf] at this
  rw [Document.isNameAt, Document.isNameAt, h.kind, this]

theorem wordAt_of_identifier {i : Nat} (hi : d.kindAt i = .identifier) : e.wordAt i = d.wordAt i :=
  (h.last i).resolve_right fun hl => hl.2.2 hi

/-- Words in front of the last one, one after another. -/
theorem joined {first stop : Nat} (hs : stop + 2 ≤ d.size) : e.joined first stop = d.joined first stop := by
  rw [Document.joined, Document.joined]
  congr 1
  refine List.map_congr_left fun i hi => h.word i ?_
  have := List.mem_range'_1.1 hi
  omega

end SameWords

/-- Outlines of documents that say the same. -/
structure Outline.Same (o o' : Outline) : Prop where
  words : SameWords o.document o'.document
  brackets : o'.brackets = o.brackets
  argsEnd : o'.typeArgsEnd = o.typeArgsEnd
  argsStart : o'.typeArgsStart = o.typeArgsStart

namespace Outline.Same

variable {o o' : Outline} (h : o.Same o')
include h

theorem size : o'.document.size = o.document.size := h.words.size

theorem eof : o'.eof = o.eof := h.words.endOfFile

theorem lastReal : o'.lastReal = o.lastReal := by rw [Outline.lastReal, Outline.lastReal, h.eof]

theorem ids : o'.ids = o.ids := by rw [Outline.ids, Outline.ids, h.eof]

theorem kind (i : Nat) : o'.kind i = o.kind i := h.words.kind i

theorem isAt {w : String} (ht : arePlain [w] = true) (i : Nat) : o'.isAt i w = o.isAt i w :=
  h.words.wordAt_beq ht i

theorem isOneOf {l : List String} (hw : arePlain l = true) (i : Nat) :
    o'.isOneOf i l = o.isOneOf i l := h.words.isOneOf hw i

theorem isKeyword {w : String} (ht : arePlain [w] = true) (i : Nat) :
    o'.isKeyword i w = o.isKeyword i w := h.words.isKeywordAt ht i

theorem isIdentifier (i : Nat) : o'.isIdentifier i = o.isIdentifier i := by
  rw [Outline.isIdentifier, Outline.isIdentifier, h.kind]

theorem isName (i : Nat) : o'.isName i = o.isName i := h.words.isNameAt i

theorem isPredefined (i : Nat) : o'.isPredefined i = o.isPredefined i := h.words.isPredefined i

theorem isModifier (i : Nat) : o'.isModifier i = o.isModifier i := h.isOneOf (by decide) i

theorem closing? (i : Nat) : o'.closing? i = o.closing? i := by rw [Outline.closing?, Outline.closing?, h.brackets]

theorem opening? (i : Nat) : o'.opening? i = o.opening? i := by rw [Outline.opening?, Outline.opening?, h.brackets]

theorem partner? (i : Nat) : o'.partner? i = o.partner? i := by rw [Outline.partner?, Outline.partner?, h.brackets]

theorem typeArgsEnd? (i : Nat) : o'.typeArgsEnd? i = o.typeArgsEnd? i := by
  rw [Outline.typeArgsEnd?, Outline.typeArgsEnd?, h.argsEnd]

theorem typeArgsStart? (i : Nat) : o'.typeArgsStart? i = o.typeArgsStart? i := by
  rw [Outline.typeArgsStart?, Outline.typeArgsStart?, h.argsStart]

theorem closesTypeArgs (i : Nat) : o'.closesTypeArgs i = o.closesTypeArgs i := by
  rw [Outline.closesTypeArgs, Outline.closesTypeArgs, h.typeArgsStart?]

theorem isTypeArgBracket (i : Nat) : o'.isTypeArgBracket i = o.isTypeArgBracket i := by
  rw [Outline.isTypeArgBracket, Outline.isTypeArgBracket, h.typeArgsStart?, h.typeArgsEnd?]

theorem isLiteral (i : Nat) : o'.isLiteral i = o.isLiteral i := by
  simp (disch := decide) only [Outline.isLiteral, h.kind, h.isOneOf]

theorem isInstanceWord (i : Nat) : o'.isInstanceWord i = o.isInstanceWord i := by
  simp (disch := decide) only [Outline.isInstanceWord, h.isKeyword]

theorem isOperandEnd (i : Nat) : o'.isOperandEnd i = o.isOperandEnd i := by
  simp (disch := decide) only [Outline.isOperandEnd, h.isName, h.isLiteral, h.isInstanceWord, h.isOneOf]

theorem isPrimary (i : Nat) : o'.isPrimary i = o.isPrimary i := by
  simp only [Outline.isPrimary, h.isIdentifier, h.isLiteral, h.isPredefined, h.isInstanceWord]

theorem isPostfixTarget (i : Nat) : o'.isPostfixTarget i = o.isPostfixTarget i := by
  simp (disch := decide) only [Outline.isPostfixTarget, h.isIdentifier, h.closesTypeArgs, h.isOneOf, h.isInstanceWord]

/-- A word of the grammar stands in front of the end. -/
theorem lt_eof {text : String} (hne : text ≠ "") {i : Nat} (hi : o.isAt i text = true) : i < o.eof := by
  have hs := lt_size_of_isAt hi hne
  rcases Nat.lt_or_ge i o.eof with hlt | hge
  · exact hlt
  · have hpos := o.document.size_pos
    have : i = o.document.endOfFile := by
      rw [Outline.eof, Document.endOfFile] at hge
      rw [Document.endOfFile]
      omega
    subst this
    exact absurd ((beq_iff_eq.1 hi).symm.trans h.words.eof) hne

end Outline.Same

end LayoutLint
