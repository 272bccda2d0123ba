import LayoutLint.Document.Builder
import LayoutLint.Proofs.Layout.Gaps
import Mathlib.Data.List.Induction
/-!
# Building — documents put together by calls

A builder holds the pieces of its calls in the order of the calls (`DocumentBuilder.Holds`): first those of its tokens,
then the trivia that waits. A call adds its pieces behind all of them (`Holds.call`), also where it gives trivia to a
token further back, for the tokens behind that one are missing and have no pieces. What a run of calls closes with is
therefore a document of their texts, if it is not too large (`DocumentBuilder.kept_of_calls`).
-/
namespace LayoutLint

/-- A call to a builder, with what it is given. -/
inductive BuilderCall where
  | leading (t : Trivia)
  | trailing (t : Trivia)
  | token (kind : TokenKind) (text : String)
  | missing (kind : TokenKind)
  | push (t : Token)
  deriving DecidableEq, Repr

namespace BuilderCall

/-- The token that the call adds. -/
def token? : BuilderCall → Option Token
  | leading _ | trailing _ => none
  | token kind text => some { kind, text }
  | missing kind => some (.absent kind)
  | push t => some t

/-- The pieces that the call is given. -/
def parts : BuilderCall → List Piece
  | leading t | trailing t => [.trivia t]
  | token kind text => { kind, text : Token }.parts
  | missing kind => (Token.absent kind).parts
  | push t => t.parts

/-- The text that the call is given. -/
def text : BuilderCall → String
  | leading t | trailing t => t.text
  | token _ text => text
  | missing _ => ""
  | push t => t.fullText

/-- The call adds no token that closes a document, and none as a whole that the program lacks. -/
def Allowed : BuilderCall → Prop
  | leading _ | trailing _ => True
  | token kind _ | missing kind => kind ≠ .endOfFile
  | push t => t.kind ≠ .endOfFile ∧ t.missing = false

instance : DecidablePred Allowed
  | leading _ | trailing _ => inferInstanceAs (Decidable True)
  | token kind _ | missing kind => inferInstanceAs (Decidable (kind ≠ .endOfFile))
  | push t => inferInstanceAs (Decidable (t.kind ≠ .endOfFile ∧ t.missing = false))

theorem charsOf_parts (c : BuilderCall) : Piece.charsOf c.parts = c.text.toList := by
  cases c with
  | leading t | trailing t => simp [parts, text, Piece.chars, Piece.text]
  | token kind text => simp [parts, BuilderCall.text, Token.parts, Token.charsOf_own]
  | missing kind => rfl
  | push t => exact t.charsOf_parts

theorem charsOf_flatMap (calls : List BuilderCall) :
    Piece.charsOf (calls.flatMap parts) = (String.join (calls.map text)).toList := by
  rw [String.toList_join]
  induction calls with
  | nil => rfl
  | cons c calls ih => rw [List.flatMap_cons, Piece.charsOf_append, ih, charsOf_parts]; rfl

end BuilderCall

namespace Token

/-- The token without its trivia. -/
def withoutTrivia (t : Token) : Token := { t with leading := [], trailing := [] }

theorem parts_of_isBare {t : Token} (h : t.isBare = true) : t.parts = [] := by
  simp only [isBare, Bool.and_eq_true, List.isEmpty_iff] at h
  rw [parts, own, if_pos h.1.1, h.1.2, h.2]
  rfl

/-- Trivia in front of a token. -/
theorem parts_leading (before : List Trivia) (t : Token) :
    { t with leading := before ++ t.leading : Token }.parts = before.map .trivia ++ t.parts := by
  simp [parts, own]

/-- Trivia behind a token. -/
theorem parts_trailing (t : Token) (behind : List Trivia) :
    { t with trailing := t.trailing ++ behind : Token }.parts = t.parts ++ behind.map .trivia := by
  simp [parts, own]

end Token

namespace DocumentBuilder

variable {b : DocumentBuilder} {calls : List BuilderCall} {c : BuilderCall}

/-- The builder after one more call. -/
def call (b : DocumentBuilder) : BuilderCall → DocumentBuilder
  | .leading t => b.leading t
  | .trailing t => b.trailing t
  | .token kind text => b.token kind text
  | .missing kind => b.missing kind
  | .push t => b.push t

/-- The builder after calls to a new one. -/
def ofCalls (calls : List BuilderCall) : DocumentBuilder := calls.foldl call {}

/-- The builder holds the pieces of the calls in order, and the token of each call that adds one. -/
structure Holds (b : DocumentBuilder) (calls : List BuilderCall) : Prop where
  parts : Token.partsOf b.tokens.toList ++ b.pending.map .trivia = calls.flatMap BuilderCall.parts
  tokens : b.tokens.toList.map Token.withoutTrivia = (calls.filterMap BuilderCall.token?).map Token.withoutTrivia
  bare : ∀ t ∈ b.tokens.toList, t.missing = true → t.isBare = true

theorem Holds.nil : Holds {} [] := ⟨rfl, rfl, fun _ ht => absurd ht List.not_mem_nil⟩

/-- Trivia that waits. -/
theorem Holds.leading (h : b.Holds calls) {t : Trivia} (hadds : c.token? = none) (hparts : c.parts = [.trivia t]) :
    (b.leading t).Holds (calls ++ [c]) where
  parts := by
    rw [List.flatMap_append, ← h.parts, List.flatMap_singleton, hparts]
    simp [DocumentBuilder.leading]
  tokens := by
    rw [List.filterMap_append, List.filterMap_cons_none hadds, List.filterMap_nil, List.append_nil]
    exact h.tokens
  bare := h.bare

/-- A token takes the trivia that waits. -/
theorem Holds.push (h : b.Holds calls) {t : Token} (hadds : c.token? = some t) (hparts : c.parts = t.parts)
    (hpresent : t.missing = false) : (b.push t).Holds (calls ++ [c]) where
  parts := by
    rw [List.flatMap_append, ← h.parts, List.flatMap_singleton, hparts]
    simp [DocumentBuilder.push, Token.partsOf, Token.parts_leading]
  tokens := by
    rw [List.filterMap_append, List.map_append, ← h.tokens, List.filterMap_cons_some hadds]
    simp [DocumentBuilder.push, Token.withoutTrivia]
  bare := by
    intro u hu hm
    rw [DocumentBuilder.push, Array.toList_push, List.mem_append, List.mem_singleton] at hu
    rcases hu with hu | rfl
    · exact h.bare u hu hm
    · exact absurd hm (by simp [hpresent])

/-- A missing token has no pieces, so it may stand in front of trivia that waits. -/
theorem Holds.missing (h : b.Holds calls) (kind : TokenKind) : (b.missing kind).Holds (calls ++ [.missing kind]) where
  parts := by
    have habsent : (Token.absent kind).parts = [] := Token.parts_of_isBare rfl
    rw [List.flatMap_append, ← h.parts, List.flatMap_singleton, BuilderCall.parts, habsent]
    simp [DocumentBuilder.missing, Token.partsOf, habsent]
  tokens := by
    rw [List.filterMap_append, List.map_append, ← h.tokens]
    simp [DocumentBuilder.missing, BuilderCall.token?]
  bare := by
    intro u hu hm
    rw [DocumentBuilder.missing, Array.toList_push, List.mem_append, List.mem_singleton] at hu
    rcases hu with hu | rfl
    · exact h.bare u hu hm
    · rfl

/-- The last token that is not missing, with the missing ones behind it. -/
theorem lastPresent?_eq_some {i : Nat} (h : b.lastPresent? = some i) : ∃ front t back,
    b.tokens.toList = front ++ t :: back ∧ front.length = i ∧ t.missing = false ∧ ∀ u ∈ back, u.missing = true := by
  obtain ⟨hpresent, later, earlier, hrange, hlater⟩ := List.find?_eq_some_iff_append.1 h
  rw [List.reverse_eq_iff, List.reverse_append, List.reverse_cons, List.append_assoc, List.singleton_append] at hrange
  have hi : i < b.tokens.toList.length := List.mem_range.1 (by rw [Array.length_toList, hrange]; simp)
  refine ⟨b.tokens.toList.take i, b.tokens.toList[i], b.tokens.toList.drop (i + 1), ?_, ?_, ?_, fun u hu => ?_⟩
  · rw [List.getElem_cons_drop, List.take_append_drop]
  · rw [List.length_take]
    omega
  · rw [Array.length_toList] at hi
    simpa [hi] using hpresent
  · obtain ⟨k, hk, rfl⟩ := List.getElem_of_mem hu
    rw [List.length_drop] at hk
    -- The numbers are in order, so one above `i` was looked at before it.
    have hmem : i + 1 + k ∈ earlier.reverse ++ i :: later.reverse := by
      rw [← hrange, List.mem_range, ← Array.length_toList]
      omega
    have hsorted := List.pairwise_lt_range (n := b.tokens.size)
    rw [hrange, List.pairwise_append] at hsorted
    have hm : i + 1 + k ∈ later := by
      rcases List.mem_append.1 hmem with he | hl
      · have := hsorted.2.2 _ he i List.mem_cons_self
        omega
      · rcases List.mem_cons.1 hl with he | hl
        · omega
        · exact List.mem_reverse.1 hl
    have hk' : i + 1 + k < b.tokens.size := by
      rw [← Array.length_toList]
      omega
    simpa [hk'] using hlater _ hm

/-- Trivia behind the last token that is not missing, or behind what waits. -/
theorem Holds.trailing (h : b.Holds calls) (t : Trivia) : (b.trailing t).Holds (calls ++ [.trailing t]) := by
  unfold DocumentBuilder.trailing
  split
  · rename_i i hpending hlast
    obtain ⟨front, last, back, hsplit, rfl, hpresent, hback⟩ := lastPresent?_eq_some hlast
    have htokens : (b.tokens.modify front.length fun token => { token with trailing := token.trailing ++ [t] }).toList =
        front ++ { last with trailing := last.trailing ++ [t] } :: back := by
      rw [Array.toList_modify, hsplit, List.modify_eq_take_cons_drop (by simp)]
      simp
    -- The tokens passed over have no pieces, so the trivia still stands behind all there are.
    have hgone : Token.partsOf back = [] := List.flatMap_eq_nil_iff.2 fun u hu =>
      Token.parts_of_isBare (h.bare u (by rw [hsplit]; simp [hu]) (hback u hu))
    refine ⟨?_, ?_, fun u hu hm => ?_⟩
    · rw [List.flatMap_append, ← h.parts, htokens, hsplit, hpending, Token.partsOf_append, Token.partsOf_append,
        Token.partsOf_cons, Token.partsOf_cons, hgone, Token.parts_trailing]
      simp [BuilderCall.parts]
    · rw [List.filterMap_append, List.map_append, ← h.tokens, htokens, hsplit]
      simp [BuilderCall.token?, Token.withoutTrivia]
    · rw [htokens, List.mem_append, List.mem_cons] at hu
      rcases hu with hu | rfl | hu
      · exact h.bare u (by rw [hsplit]; simp [hu]) hm
      · exact absurd hm (by simp [hpresent])
      · exact h.bare u (by rw [hsplit]; simp [hu]) hm
  · exact h.leading rfl rfl

/-- A call adds its pieces behind all there are. -/
theorem Holds.call (h : b.Holds calls) (hc : c.Allowed) : (b.call c).Holds (calls ++ [c]) := by
  cases c with
  | leading t => exact h.leading rfl rfl
  | trailing t => exact h.trailing t
  | token kind text => exact h.push rfl rfl rfl
  | missing kind => exact h.missing kind
  | push t => exact h.push rfl rfl hc.2

theorem holds_ofCalls (hc : ∀ c ∈ calls, c.Allowed) : (ofCalls calls).Holds calls := by
  induction calls using List.reverseRecOn with
  | nil => exact .nil
  | append_singleton calls c ih =>
    rw [ofCalls, List.foldl_concat]
    exact (ih fun d hd => hc d (List.mem_append_left _ hd)).call (hc c (by simp))

/-- No token is one that closes a document. -/
theorem Holds.kind_ne (h : b.Holds calls) (hc : ∀ c ∈ calls, c.Allowed) {t : Token} (ht : t ∈ b.tokens.toList) :
    t.kind ≠ .endOfFile := by
  have hmem : t.withoutTrivia ∈ b.tokens.toList.map Token.withoutTrivia := List.mem_map_of_mem ht
  rw [h.tokens] at hmem
  obtain ⟨u, hu, htu⟩ := List.mem_map.1 hmem
  obtain ⟨c, hmem, hadds⟩ := List.mem_filterMap.1 hu
  rw [show t.kind = u.kind from (congrArg Token.kind htu).symm]
  have hallowed := hc c hmem
  cases c with
  | leading t | trailing t => cases hadds
  | token kind text | missing kind =>
    cases hadds
    exact hallowed
  | push t =>
    cases hadds
    exact hallowed.1

/-- The token that closes the document, with the trivia that still waits. -/
def closing (b : DocumentBuilder) : Token := { Token.endOfFile with leading := b.pending }

theorem Holds.parts_closing (h : b.Holds calls) :
    Token.partsOf (b.tokens.toList ++ [b.closing]) = calls.flatMap BuilderCall.parts := by
  rw [← h.parts, Token.partsOf_append]
  simp [closing, Token.parts, Token.own, Token.endOfFile]

theorem Holds.textOf_closing (h : b.Holds calls) :
    textOf (b.tokens.toList ++ [b.closing]) = String.join (calls.map BuilderCall.text) :=
  String.ext (by rw [← Token.charsOf_partsOf, h.parts_closing, BuilderCall.charsOf_flatMap])

/-- A document keeps what calls to a builder are given: their texts and pieces in order, and one token for each call
that adds one. Only the last token is not from a call, and missing ones have no trivia. -/
structure Kept (calls : List BuilderCall) (d : Document) : Prop where
  text : d.text = String.join (calls.map BuilderCall.text)
  parts : d.parts = calls.flatMap BuilderCall.parts
  tokens : d.tokens.toList.map Token.withoutTrivia =
    (calls.filterMap BuilderCall.token?).map Token.withoutTrivia ++ [.endOfFile]
  bare : ∀ t ∈ d.tokens.toList, t.missing = true → t.leading = [] ∧ t.trailing = []

/-- **What calls close with keeps every piece in the order of the calls**, if their texts are not too large. -/
theorem kept_of_calls (calls : List BuilderCall) (hc : ∀ c ∈ calls, c.Allowed)
    (hw : total (calls.map fun c => c.text.utf8ByteSize) ≤ maxBytes) :
    ∃ d, (ofCalls calls).finish = .ok d ∧ Kept calls d := by
  have h := holds_ofCalls hc
  generalize ofCalls calls = b at h
  have hbare : ∀ t ∈ b.tokens.toList ++ [b.closing], t.missing = true → t.isBare = true := by
    intro t ht hm
    rcases List.mem_append.1 ht with ht | ht
    · exact h.bare t ht hm
    · rw [List.mem_singleton.1 ht] at hm
      cases hm
  have hcheck : checkTokens (b.tokens.toList ++ [b.closing]) = .ok () := by
    rw [checkTokens_eq hbare ?_ ⟨b.closing, by simp, rfl⟩, if_neg ?_]
    · rw [← utf8ByteSize_textOf, h.textOf_closing, Token.utf8ByteSize_join, List.map_map]
      exact Nat.not_lt.2 hw
    · rw [List.dropLast_concat]
      exact fun t ht => h.kind_ne hc ht
  obtain ⟨d, hd, htokens⟩ := Document.exists_ofTokens hcheck
  refine ⟨d, ?_, ?_, ?_, ?_, fun t ht hm => ?_⟩
  · rw [← hd, ← Array.toList_push, Array.toArray_toList]
    rfl
  · rw [d.text_eq, htokens, h.textOf_closing]
  · rw [Document.parts, htokens, h.parts_closing]
  · rw [htokens, List.map_append, h.tokens]
    rfl
  · rw [htokens] at ht
    have := hbare t ht hm
    simp only [Token.isBare, Bool.and_eq_true, List.isEmpty_iff] at this
    exact ⟨this.1.2, this.2⟩

/-- Trivia that goes past a missing token, that waits behind other trivia, and that stands in front of a token with
trivia of its own. -/
theorem kept_of_calls_mixed : ∃ d, (ofCalls [.leading (.whitespace " "), .token .identifier "f", .missing .punctuation,
    .trailing (.whitespace "  "), .leading (.endOfLine "\n"), .trailing (.whitespace "\t"),
    .push { kind := .punctuation, text := ";", leading := [.endOfLine "\r"], trailing := [.whitespace "   "] },
    .missing .keyword, .leading (.endOfLine "\n")]).finish = .ok d ∧ d.text = " f  \n\t\r;   \n" ∧
      d.tokens.toList.map Token.withoutTrivia = [{ kind := .identifier, text := "f" }, .absent .punctuation,
        { kind := .punctuation, text := ";" }, .absent .keyword, .endOfFile] := by
  obtain ⟨d, hd, hk⟩ := kept_of_calls [.leading (.whitespace " "), .token .identifier "f", .missing .punctuation,
    .trailing (.whitespace "  "), .leading (.endOfLine "\n"), .trailing (.whitespace "\t"),
    .push { kind := .punctuation, text := ";", leading := [.endOfLine "\r"], trailing := [.whitespace "   "] },
    .missing .keyword, .leading (.endOfLine "\n")] (by decide) (by decide)
  exact ⟨d, hd, hk.text.trans (by decide), hk.tokens.trans (by decide)⟩

end DocumentBuilder

end LayoutLint
