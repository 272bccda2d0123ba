import LayoutLint.Document
import LayoutLint.Token.Scan
/-!
# Source — reading a document from its text

Trivia after a token belongs to it up to and including the first line break; all other trivia belongs to the token that
follows, and what stands after the last token to the end-of-file token. Reading never fails on account of what the text
says: every character ends up in a token or in trivia.
-/
namespace LayoutLint

/-- Trivia read from the front of a text, what follows it, and whether a directive may stand there. -/
structure TriviaRun where
  trivia : List Trivia
  atLineStart : Bool
  rest : List Char

/-- Is a directive allowed after trivia of this kind? White space leaves the matter as it is. -/
def TriviaKind.lineStartAfter (kind : TriviaKind) (before : Bool) : Bool :=
  match kind with
  | .endOfLine => true
  | .whitespace => before
  | _ => false

/-- The run with a piece of trivia in front. -/
def TriviaRun.cons (t : Trivia) (run : TriviaRun) : TriviaRun := { run with trivia := t :: run.trivia }

/-- The trivia before a token. -/
def readLeading (atLineStart : Bool) (s : List Char) : TriviaRun :=
  match s with
  | [] => ⟨[], atLineStart, []⟩
  | c :: r =>
    match Trivia.scan? atLineStart (c :: r) with
    | none => ⟨[], atLineStart, c :: r⟩
    | some (kind, n) =>
      (readLeading (kind.lineStartAfter atLineStart) (r.drop (n - 1))).cons
        ⟨kind, String.ofList ((c :: r).take n)⟩
termination_by s.length
decreasing_by simp only [List.length_drop, List.length_cons]; omega

/-- The trivia after a token, up to and including the first line break. -/
def readTrailing (s : List Char) : TriviaRun :=
  match s with
  | [] => ⟨[], false, []⟩
  | c :: r =>
    match Trivia.scan? false (c :: r) with
    | none => ⟨[], false, c :: r⟩
    | some (kind, n) =>
      let t : Trivia := ⟨kind, String.ofList ((c :: r).take n)⟩
      if t.isEndOfLine then ⟨[t], true, r.drop (n - 1)⟩ else (readTrailing (r.drop (n - 1))).cons t
termination_by s.length
decreasing_by simp only [List.length_drop, List.length_cons]; omega

theorem length_rest_readLeading (atLineStart : Bool) (s : List Char) :
    (readLeading atLineStart s).rest.length ≤ s.length := by
  fun_induction readLeading atLineStart s with
  | case1 => exact Nat.le_refl _
  | case2 => exact Nat.le_refl _
  | case3 b c r kind n h ih =>
    simp only [TriviaRun.cons, List.length_cons]
    simp only [List.length_drop] at ih
    omega

theorem length_rest_readTrailing (s : List Char) : (readTrailing s).rest.length ≤ s.length := by
  fun_induction readTrailing s with
  | case1 => exact Nat.le_refl _
  | case2 => exact Nat.le_refl _
  | case3 c r kind n h t ht => simp only [List.length_drop, List.length_cons]; omega
  | case4 c r kind n h t ht ih =>
    simp only [TriviaRun.cons, List.length_cons]
    simp only [List.length_drop] at ih
    omega

/-- The tokens of a text, put after `done`. -/
def readTokens (done : Array Token) (atLineStart : Bool) (s : List Char) : Array Token :=
  let before := readLeading atLineStart s
  match _h : before.rest with
  | [] => done.push { Token.endOfFile with leading := before.trivia }
  | c :: r =>
    let (kind, n) := Token.scan (c :: r)
    let after := readTrailing (r.drop (n - 1))
    let text := String.ofList ((c :: r).take n)
    let token : Token := { kind, text, leading := before.trivia, trailing := after.trivia }
    readTokens (done.push token) after.atLineStart after.rest
termination_by s.length
decreasing_by
  have h₁ := length_rest_readLeading atLineStart s
  have h₂ := congrArg List.length _h
  have h₃ := length_rest_readTrailing (r.drop (n - 1))
  simp only [List.length_drop, List.length_cons] at h₂ h₃
  show (readTrailing (r.drop (n - 1))).rest.length < s.length
  simp only [before] at h₂
  omega

/-- The tokens of a text. -/
def tokensOf (source : String) : Array Token := readTokens #[] true source.toList

/-- The document of a text. -/
def Document.ofSource (source : String) : Except DocumentError Document := ofTokens (tokensOf source)

end LayoutLint
