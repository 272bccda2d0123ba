import LayoutLint.Proofs.Layout.Gaps
import LayoutLint.Proofs.Lexing.ByteLiterals
/-!
# ByteLexer — a text read by byte offsets

A lexer that keeps its place as an offset in bytes cuts the text at every piece. It would stop at a cut inside a
character, and run forever on a piece without characters. It does neither: it reads what a lexer of characters reads
(`readTokens?_eq`), so every text has a document, and the document says all of the text and nothing else
(`tokenize?_of_le`).
-/
namespace LayoutLint
namespace Bytes

open Text (width splitAtByte?)

/-! ### The lexical classes, counted in bytes -/

/-- The ASCII character of a byte. -/
def ascii? (b : UInt8) : Option Char := if b.toNat < 128 then some (Char.ofNat b.toNat) else none

/-- The rest of a number after the byte `last`. -/
def numberTail (hex : Bool) (last : UInt8) : List UInt8 → Nat
  | [] => 0
  | b :: r =>
    if (ascii? b).any Char.isAlphanum || b == code '_' then numberTail hex b r + 1
    else if b == code '.' && r.head?.any fun next => (ascii? next).any Char.isDigit then numberTail hex b r + 1
    else if (b == code '+' || b == code '-') && !hex && (last == code 'e' || last == code 'E') then
      numberTail hex b r + 1
    else 0

def numberLength (s : List Char) : Nat :=
  numberTail ("0x".toList.isPrefixOf s || "0X".toList.isPrefixOf s) (code ' ') (utf8 s)

/-- The token at the head of a text, its kind and its number of bytes; `none` when the text was to be cut inside a
character. -/
def scanToken? (s : List Char) : Option (TokenKind × Nat) :=
  (stringLength? (utf8 s)).bind fun
  | some n => some (.stringLiteral, n)
  | none =>
    match s with
    | [] => some (.punctuation, 1)
    | c :: r =>
      if c == '\'' then some (.characterLiteral, charBody ((utf8 s).drop 1) + 1)
      else if c == '@' && r.head?.any isWordStart then
        (splitAtByte? 1 s).map fun (_, name) => (.identifier, width (name.takeWhile isWordPart) + 1)
      else if isWordStart c then
        let n := width (s.takeWhile isWordPart)
        (splitAtByte? n s).map fun (word, _) => (if isKeyword (String.ofList word) then .keyword else .identifier, n)
      else if c.isDigit || (c == '.' && r.head?.any Char.isDigit) then some (.numericLiteral, numberLength s)
      else some (.punctuation,
        (punctuators.find? fun p => p.toList.isPrefixOf s).elim c.utf8Size String.utf8ByteSize)

/-- The trivia at the head of a text, its kind and its number of bytes, if there is any. -/
def scanTrivia? (directives : Bool) (s : List Char) : Option (Option (TriviaKind × Nat)) :=
  match s with
  | [] => some none
  | c :: _ =>
    if isBreakChar c then some (some (.endOfLine, if "\r\n".toList.isPrefixOf s then 2 else 1))
    else if isGap c then some (some (.whitespace, width (s.takeWhile isGap)))
    else if "//".toList.isPrefixOf s then
      some (some (commentKind "///".toList "////".toList s, width (s.takeWhile (!isBreakChar ·))))
    else if "/*".toList.isPrefixOf s then
      (splitAtByte? 2 s).map fun (_, body) =>
        some (commentKind "/**".toList "/**/".toList s,
          (find? ("*/".toList.map code) (utf8 body)).elim (width s) (· + 4))
    else if directives && c == '#' then some (some (.structured, width (s.takeWhile (!isBreakChar ·))))
    else some none

/-! ### The lexer -/

/-- The trivia before a token; `none` when the text was to be cut inside a character, or a piece has no characters. -/
def readLeading? (atLineStart : Bool) (s : List Char) : Option TriviaRun :=
  (scanTrivia? atLineStart s).bind fun
  | none => some ⟨[], atLineStart, s⟩
  | some (kind, n) => (splitAtByte? n s).bind fun (text, rest) =>
    if rest.length < s.length then
      (readLeading? (kind.lineStartAfter atLineStart) rest).map (·.cons ⟨kind, String.ofList text⟩)
    else none
termination_by s.length

/-- The trivia after a token, up to and including the first line break. -/
def readTrailing? (s : List Char) : Option TriviaRun :=
  (scanTrivia? false s).bind fun
  | none => some ⟨[], false, s⟩
  | some (kind, n) => (splitAtByte? n s).bind fun (text, rest) =>
    let t : Trivia := ⟨kind, String.ofList text⟩
    if t.isEndOfLine then some ⟨[t], true, rest⟩
    else if rest.length < s.length then (readTrailing? rest).map (·.cons t)
    else none
termination_by s.length

/-- The tokens of a text, put after `done`. -/
def readTokens? (done : Array Token) (atLineStart : Bool) (s : List Char) : Option (Array Token) :=
  (readLeading? atLineStart s).bind fun before =>
    if before.rest.isEmpty then some (done.push { Token.endOfFile with leading := before.trivia })
    else (scanToken? before.rest).bind fun (kind, n) => (splitAtByte? n before.rest).bind fun (text, rest) =>
      (readTrailing? rest).bind fun after =>
        if after.rest.length < s.length then
          readTokens? (done.push
            { kind, text := String.ofList text, leading := before.trivia, trailing := after.trivia })
            after.atLineStart after.rest
        else none
termination_by s.length

/-- The document of a text. -/
def tokenize? (source : String) : Option (Except DocumentError Document) :=
  (readTokens? #[] true source.toList).map Document.ofTokens

/-! ### Every cut is between characters -/

theorem splitAtByte?_take (s : List Char) (n : Nat) :
    splitAtByte? (width (s.take n)) s = some (s.take n, s.drop n) := by
  conv => lhs; rw [← List.take_append_drop n s, List.take_append_drop n s]
  exact (congrArg _ (List.take_append_drop n s).symm).trans (Text.splitAtByte?_append _ _)

theorem takeWhile_eq_take (p : Char → Bool) (s : List Char) : s.takeWhile p = s.take (s.takeWhile p).length :=
  List.prefix_iff_eq_take.1 (List.takeWhile_prefix p)

theorem ascii?_code {c : Char} (h : c.toNat < 128) : ascii? (code c) = some c := by
  rw [ascii?, toNat_code h, if_pos h, Char.ofNat_toNat]

theorem ascii?_of_wide {b : UInt8} (h : 128 ≤ b.toNat) : ascii? b = none := if_neg (by omega)

theorem isAlphanum_of_wide {c : Char} (h : 128 ≤ c.toNat) : c.isAlphanum = false := by
  have above : ∀ a : Char, a.val.toNat < 128 → ¬ c.val ≤ a.val := fun a ha hle =>
    Nat.not_le.2 (Nat.lt_of_lt_of_le ha h) (UInt32.le_iff_toNat_le.1 hle)
  have hupper : c.isUpper = false := decide_eq_false fun hc => above 'Z' (by decide) hc.2
  have hlower : c.isLower = false := Bool.and_eq_false_imp.2 fun _ => decide_eq_false (above 'z' (by decide))
  have hdigit : c.isDigit = false := Bool.and_eq_false_imp.2 fun _ => decide_eq_false (above '9' (by decide))
  show (c.isUpper || c.isLower || c.isDigit) = false
  rw [hupper, hlower, hdigit]
  rfl

theorem isDigit_of_wide {c : Char} (h : 128 ≤ c.toNat) : c.isDigit = false := by
  have := isAlphanum_of_wide h
  rw [Char.isAlphanum, Bool.or_eq_false_iff] at this
  exact this.2

theorem head?_isDigit (s : List Char) :
    ((utf8 s).head?.any fun b => (ascii? b).any Char.isDigit) = s.head?.any Char.isDigit := by
  cases s with
  | nil => rfl
  | cons c s =>
    rcases utf8_cons_cases c s with ⟨hc, he, -⟩ | ⟨hc, b, bs, he, hb, -⟩
    · rw [he, List.head?_cons, List.head?_cons, Option.any_some, Option.any_some, ascii?_code hc, Option.any_some]
    · rw [he, List.head?_cons, List.head?_cons, Option.any_some, Option.any_some, ascii?_of_wide (by omega),
        isDigit_of_wide hc]
      rfl

theorem numberTail_utf8 (hex : Bool) (s : List Char) {last : Char} (hl : last.toNat < 128) :
    numberTail hex (code last) (utf8 s) = width (s.take (numberTailLength hex last s)) := by
  induction s generalizing last with
  | nil => rfl
  | cons c s ih =>
    rcases utf8_cons_cases c s with ⟨hc, he, hsize⟩ | ⟨hc, b, bs, he, hb, hbs, hsize⟩
    · have hnext : numberTail hex (code c) (utf8 s) + 1 = width ((c :: s).take (numberTailLength hex c s + 1)) := by
        rw [ih hc, List.take_succ_cons, Text.width_cons, hsize, Nat.add_comm]
      rw [he, numberTail, numberTailLength, ascii?_code hc, Option.any_some, head?_isDigit, code_beq (by decide) hc,
        code_beq (by decide) hc, code_beq (by decide) hc, code_beq (by decide) hc, code_beq (by decide) hl,
        code_beq (by decide) hl, hnext]
      split_ifs <;> rfl
    · have hnone : ∀ a : Char, a.toNat < 128 → (c == a) = false := fun a ha => beq_of_wide hc ha
      have hbnone : ∀ a : Char, a.toNat < 128 → (b == code a) = false := fun a ha => beq_code_of_wide (by omega) ha
      rw [he, numberTail, numberTailLength, ascii?_of_wide (by omega), hbnone _ (by decide), hbnone _ (by decide),
        hbnone _ (by decide), hbnone _ (by decide), hnone _ (by decide), hnone _ (by decide), hnone _ (by decide),
        hnone _ (by decide), isAlphanum_of_wide hc]
      simp

/-! ### Tokens and trivia -/

theorem numberLength_eq (s : List Char) : numberLength s = width (s.take (LayoutLint.numberLength s)) :=
  numberTail_utf8 _ s (by decide)

theorem mem_punctuators_ascii : ∀ p ∈ punctuators, Ascii p.toList := by decide

theorem width_punctuator (c : Char) (s : List Char) :
    (punctuators.find? fun p => p.toList.isPrefixOf (c :: s)).elim c.utf8Size String.utf8ByteSize =
      width ((c :: s).take (punctuatorLength (c :: s))) := by
  rw [punctuatorLength]
  cases hf : punctuators.find? fun p => p.toList.isPrefixOf (c :: s) with
  | none => rw [Option.elim_none, List.take_succ_cons, List.take_zero, Text.width_cons, Text.width_nil]; rfl
  | some p =>
    have hascii := mem_punctuators_ascii p (List.mem_of_find?_eq_some hf)
    rw [Option.elim_some, Text.utf8ByteSize_eq_width, width_of_ascii hascii]
    have hprefix := List.find?_some (p := fun p : String => p.toList.isPrefixOf (c :: s)) hf
    exact (width_take_of_isPrefixOf hascii hprefix).symm

/-- **The token at the head of a text is found by its bytes.** -/
theorem scanToken?_eq {s : List Char} (hs : s ≠ []) :
    scanToken? s = some ((Token.scan s).1, width (s.take (Token.scan s).2)) := by
  unfold scanToken?
  rw [stringLength?_utf8, Option.bind_some]
  cases hm : Literal.stringLength? s with
  | some m => rw [scan_of_string hm]; rfl
  | none =>
    obtain ⟨c, r, rfl⟩ := List.exists_cons_of_ne_nil hs
    have hword : width ((c :: r).takeWhile isWordPart) = width ((c :: r).take (wordLength (c :: r))) :=
      congrArg width (takeWhile_eq_take _ _)
    rw [scan_cons hm, Option.map_none]
    simp only
    split_ifs with hquote hat hword' hkey hdigit
    · obtain rfl := beq_iff_eq.1 hquote
      have hdrop : (utf8 ('\'' :: r)).drop 1 = utf8 r := rfl
      rw [hdrop, charBody_utf8, List.take_succ_cons, Text.width_cons, Nat.add_comm]
      rfl
    · obtain rfl := beq_iff_eq.1 (Bool.and_eq_true _ _ ▸ hat).1
      have hsplit : splitAtByte? 1 ('@' :: r) = some (['@'], r) := splitAtByte?_take ('@' :: r) 1
      rw [hsplit, Option.map_some, takeWhile_eq_take, List.take_succ_cons, Text.width_cons, Nat.add_comm]
      rfl
    · rw [hword, splitAtByte?_take, Option.map_some, if_pos hkey]
    · rw [hword, splitAtByte?_take, Option.map_some, if_neg hkey]
    · rw [numberLength_eq]
    · rw [width_punctuator]

theorem width_blockComment {s : List Char} (h : "/*".toList.isPrefixOf s = true) :
    (find? ("*/".toList.map code) (utf8 (s.drop 2))).elim (width s) (· + 4) =
      width (s.take (blockCommentLength s)) := by
  have hfind : find? ("*/".toList.map code) (utf8 (s.drop 2)) =
      (Text.find? "*/".toList (s.drop 2)).map fun n => width ((s.drop 2).take n) := find?_utf8 (by decide) _
  have hopening : width (s.take 2) = 2 := width_take_of_isPrefixOf (p := "/*".toList) (by decide) h
  rw [hfind, blockCommentLength]
  cases hf : Text.find? "*/".toList (s.drop 2) with
  | none => rw [Option.map_none, Option.elim_none, List.take_length]
  | some n =>
    have hclosing : width (((s.drop 2).drop n).take 2) = 2 :=
      width_take_of_isPrefixOf (p := "*/".toList) (by decide) (Literal.isPrefixOf_of_findFrom hf)
    simp only [Option.map_some, Option.elim_some]
    rw [show n + 4 = 2 + n + 2 by omega, width_take_add, width_take_add, hopening, ← List.drop_drop, hclosing]
    omega

theorem width_break {c : Char} {s : List Char} (h : isBreakChar c = true) :
    (if "\r\n".toList.isPrefixOf (c :: s) then 2 else 1) = width ((c :: s).take (breakLength (c :: s))) := by
  rw [show "\r\n".toList = ['\r', '\n'] from rfl, isPrefixOf_pair]
  rcases Bool.or_eq_true _ _ ▸ h with h | h
  · obtain rfl := beq_iff_eq.1 h
    rw [beq_self_eq_true, Bool.true_and]
    cases s with
    | nil => rfl
    | cons d s =>
      rw [List.head?_cons, Option.some_beq_some]
      by_cases hd : d = '\n'
      · subst hd
        rfl
      · rw [beq_eq_false_iff_ne.2 hd, show breakLength ('\r' :: d :: s) = 1 by simp [breakLength, hd, isBreakChar]]
        rfl
  · obtain rfl := beq_iff_eq.1 h
    rfl

/-- **The trivia at the head of a text is found by its bytes.** -/
theorem scanTrivia?_eq (b : Bool) (s : List Char) :
    scanTrivia? b s = some ((Trivia.scan? b s).map fun (kind, n) => (kind, width (s.take n))) := by
  cases s with
  | nil => rfl
  | cons c s =>
    have hline : width ((c :: s).takeWhile (!isBreakChar ·)) = width ((c :: s).take (lineLength (c :: s))) :=
      congrArg width (takeWhile_eq_take _ _)
    rw [scanTrivia?, hline]
    by_cases hbreak : isBreakChar c = true
    · rw [if_pos hbreak, width_break hbreak, scan?_break hbreak]
      rfl
    · by_cases hgap : isGap c = true
      · have hrun : width ((c :: s).takeWhile isGap) = width ((c :: s).take ((c :: s).takeWhile isGap).length) :=
          congrArg width (takeWhile_eq_take _ _)
        rw [if_neg hbreak, if_pos hgap, scan?_gap hgap, hrun]
        rfl
      · have hscan : Trivia.scan? b (c :: s) =
            if "//".toList.isPrefixOf (c :: s) then
              some (commentKind "///".toList "////".toList (c :: s), lineLength (c :: s))
            else if "/*".toList.isPrefixOf (c :: s) then
              some (commentKind "/**".toList "/**/".toList (c :: s), blockCommentLength (c :: s))
            else if b && c == '#' then some (.structured, lineLength (c :: s))
            else none :=
          scan?_of_not_blank (Bool.eq_false_iff.2 hbreak) (Bool.eq_false_iff.2 hgap)
        rw [if_neg hbreak, if_neg hgap, hscan]
        split_ifs with hslashes hblock hdirective
        · rfl
        · have hopening : width ((c :: s).take 2) = 2 := width_take_of_isPrefixOf (p := "/*".toList) (by decide) hblock
          have hsplit := splitAtByte?_take (c :: s) 2
          rw [hopening] at hsplit
          rw [hsplit]
          exact congrArg (fun n => some (some (_, n))) (width_blockComment hblock)
        · rfl
        · rfl

/-! ### The whole text -/

/-- What is cut off behind a piece is the rest of the text. -/
theorem splitAtByte?_cons (c : Char) (r : List Char) {n : Nat} (hn : 0 < n) :
    splitAtByte? (width ((c :: r).take n)) (c :: r) = some ((c :: r).take n, r.drop (n - 1)) := by
  obtain ⟨k, rfl⟩ := Nat.exists_eq_add_of_lt hn
  rw [splitAtByte?_take, Nat.zero_add, Nat.add_sub_cancel, List.drop_succ_cons]

theorem length_drop_lt (c : Char) (r : List Char) (n : Nat) : (r.drop n).length < (c :: r).length := by
  rw [List.length_drop, List.length_cons]
  omega

theorem readLeading?_eq (b : Bool) (s : List Char) : readLeading? b s = some (readLeading b s) := by
  fun_induction readLeading b s with
  | case1 b => rw [readLeading?, scanTrivia?_eq]; rfl
  | case2 b c r h => rw [readLeading?, scanTrivia?_eq, h]; rfl
  | case3 b c r kind n h ih =>
    rw [readLeading?, scanTrivia?_eq, h, Option.map_some, Option.bind_some]
    simp only
    rw [splitAtByte?_cons c r (scan?_bounds h).1, Option.bind_some]
    simp only
    rw [if_pos (length_drop_lt c r (n - 1)), ih, Option.map_some]

theorem readTrailing?_eq (s : List Char) : readTrailing? s = some (readTrailing s) := by
  fun_induction readTrailing s with
  | case1 => rw [readTrailing?, scanTrivia?_eq]; rfl
  | case2 c r h => rw [readTrailing?, scanTrivia?_eq, h]; rfl
  | case3 c r kind n h t ht =>
    rw [readTrailing?, scanTrivia?_eq, h, Option.map_some, Option.bind_some]
    simp only
    rw [splitAtByte?_cons c r (scan?_bounds h).1, Option.bind_some]
    exact if_pos ht
  | case4 c r kind n h t ht ih =>
    rw [readTrailing?, scanTrivia?_eq, h, Option.map_some, Option.bind_some]
    simp only
    rw [splitAtByte?_cons c r (scan?_bounds h).1, Option.bind_some]
    simp only
    rw [if_neg ht, if_pos (length_drop_lt c r (n - 1)), ih, Option.map_some]

/-- **A lexer of bytes reads what a lexer of characters reads.** -/
theorem readTokens?_eq (done : Array Token) (b : Bool) (s : List Char) :
    readTokens? done b s = some (readTokens done b s) := by
  fun_induction readTokens done b s with
  | case1 done b s before h =>
    rw [readTokens?, readLeading?_eq, Option.bind_some, if_pos (by rw [h]; rfl)]
  | case2 done b s before c r h kind n hscan after text token ih =>
    have hbounds := scan_bounds (List.cons_ne_nil c r)
    have hlt : after.rest.length < s.length := by
      have h₁ := length_rest_readLeading b s
      have h₂ := length_rest_readTrailing (r.drop (n - 1))
      have h₃ := length_drop_lt c r (n - 1)
      rw [h] at h₁
      exact Nat.lt_of_le_of_lt h₂ (Nat.lt_of_lt_of_le h₃ h₁)
    rw [hscan] at hbounds
    rw [readTokens?, readLeading?_eq, Option.bind_some, if_neg (by rw [h]; exact Bool.false_ne_true), h,
      scanToken?_eq (List.cons_ne_nil c r), Option.bind_some, hscan]
    simp only
    rw [splitAtByte?_cons c r hbounds.1, Option.bind_some]
    simp only
    rw [readTrailing?_eq, Option.bind_some, if_pos hlt]
    exact ih

end Bytes

/-- Tokens as texts are read as: words, and the end-of-file token behind them. -/
theorem Attached.exists_words {ts : List Token} (h : Attached ts) :
    ∃ words eof, ts = words ++ [eof] ∧ (∀ t ∈ words, t.kind ≠ .endOfFile ∧ t.text ≠ "" ∧ t.missing = false) ∧
      eof.kind = .endOfFile ∧ eof.text = "" ∧ eof.trailing = [] ∧ eof.missing = false := by
  induction h with
  | last ts => exact ⟨[], _, rfl, fun _ h => absurd h List.not_mem_nil, rfl, rfl, rfl, rfl⟩
  | @cons t next rest kind text present _ _ ih =>
    obtain ⟨words, eof, heq, hwords, heof⟩ := ih
    exact ⟨t :: words, eof, by rw [heq]; rfl, List.forall_mem_cons.2 ⟨⟨kind, text, present⟩, hwords⟩, heof⟩

/-- Pieces that are read have characters. -/
theorem Piece.Reads.text_ne {b : Bool} {ps : List Piece} (h : Piece.Reads b ps) {p : Piece} (hp : p ∈ ps) :
    p.text ≠ "" := by
  induction ps generalizing b with
  | nil => exact absurd hp List.not_mem_nil
  | cons q ps ih =>
    obtain ⟨hne, -, hrest⟩ := h
    rcases List.mem_cons.1 hp with rfl | hp
    · intro h
      rw [Piece.chars, h] at hne
      exact hne rfl
    · exact ih hrest hp

/-- **Reading is total and loses nothing.** A text of at most `maxBytes` bytes is read without a cut inside a character
and without an error. Its document has the text itself, one end-of-file token at the end and words before it, and no
piece of trivia is empty. -/
theorem Bytes.tokenize?_of_le {s : String} (h : s.utf8ByteSize ≤ maxBytes) :
    ∃ d, Bytes.tokenize? s = some (.ok d) ∧ Document.ofSource s = .ok d ∧ d.text = s ∧
      (∃ words eof, d.tokens.toList = words ++ [eof] ∧
        (∀ t ∈ words, t.kind ≠ .endOfFile ∧ t.text ≠ "" ∧ t.missing = false) ∧
        eof.kind = .endOfFile ∧ eof.text = "" ∧ eof.trailing = [] ∧ eof.missing = false) ∧
      ∀ t ∈ d.tokens.toList, ∀ x ∈ t.leading ++ t.trailing, x.text ≠ "" := by
  obtain ⟨d, hd⟩ := Document.exists_ofSource h
  obtain ⟨hreads, -, hattached⟩ := reads_tokensOf s
  rw [← Document.tokens_of_ofSource hd] at hreads hattached
  refine ⟨d, ?_, hd, (Document.parsed_of_ofSource hd).2, hattached.exists_words, fun t ht x hx => ?_⟩
  · rw [Bytes.tokenize?, Bytes.readTokens?_eq, Option.map_some]
    exact congrArg some hd
  · refine hreads.text_ne (p := .trivia x) (List.mem_flatMap.2 ⟨t, ht, ?_⟩)
    rw [Token.parts]
    simp only [List.mem_append, List.mem_map, Piece.trivia.injEq, exists_eq_right]
    rcases List.mem_append.1 hx with hx | hx
    · exact .inl (.inl hx)
    · exact .inr hx

/-- An unterminated string with a backslash before a character of three bytes, behind a directive. -/
theorem Bytes.tokenize?_of_le_escape : "#if\n$\"\x7b'\\日\"".utf8ByteSize ≤ maxBytes ∧
    ∃ d, Bytes.tokenize? "#if\n$\"\x7b'\\日\"" = some (.ok d) ∧ d.text = "#if\n$\"\x7b'\\日\"" := by
  have h : "#if\n$\"\x7b'\\日\"".utf8ByteSize ≤ maxBytes := by decide
  obtain ⟨d, hd, -, htext, -⟩ := Bytes.tokenize?_of_le h
  exact ⟨h, d, hd, htext⟩

end LayoutLint
