import LayoutLint.Document
/-!
# Splice — changing trivia

A splice replaces a run of one token's trivia by other trivia. A document takes a list of splices at once: all of them
name places in the document as it is, so no splice sees what another one did. Two splices of one list must not overlap,
and two insertions at one place count as overlapping. Tokens that no splice names are kept as they are.
-/
namespace LayoutLint

/-- Replaces the pieces from `start` up to, not including, `stop` of one trivia list. -/
structure Splice where
  token : Nat
  slot : Slot
  start : Nat
  stop : Nat
  replacement : List Trivia
  deriving DecidableEq, Repr

/-- Why splices cannot be made. -/
inductive SpliceError where
  | unknownToken (token : Nat)
  | missingToken (token : Nat)
  | rangeOutOfBounds (token : Nat) (start stop length : Nat)
  | overlapping (token : Nat)
  | document (cause : DocumentError)
  deriving DecidableEq, Repr

def SpliceError.message : SpliceError → String
  | unknownToken token => s!"token {token} does not exist"
  | missingToken token => s!"token {token} is missing and cannot carry trivia"
  | rangeOutOfBounds token start stop length =>
    s!"trivia range {start}..{stop} is out of bounds for token {token} ({length} elements)"
  | overlapping token => s!"overlapping trivia splices on token {token}"
  | document cause => cause.message

namespace Splice

/-- A splice that removes nothing and puts nothing in. -/
def isNoop (s : Splice) : Bool := s.stop ≤ s.start && s.replacement.isEmpty

/-- Replaces the whole list. -/
def replaceAll (d : Document) (token : Nat) (slot : Slot) (replacement : List Trivia) : Splice :=
  ⟨token, slot, 0, ((d.token token).trivia slot).length, replacement⟩

/-- Later places first, so that making one splice does not move the place of the next. -/
def laterFirst (s t : Splice) : Bool := t.start < s.start || (s.start == t.start && t.stop ≤ s.stop)

/-- Does the splice keep clear of the one after it in the list? -/
def clearOf (later earlier : Splice) : Bool := earlier.stop ≤ later.start && earlier.start != later.start

/-- Is every splice, later places first, clear of the next? -/
def allClear : List Splice → Bool
  | later :: earlier :: rest => later.clearOf earlier && allClear (earlier :: rest)
  | _ => true

/-- The list with the run that the splice names replaced. -/
def apply (ts : List Trivia) (s : Splice) : List Trivia := ts.take s.start ++ s.replacement ++ ts.drop s.stop

/-- One trivia list of token `id` with its splices made. -/
def applyAll (id : Nat) (ts : List Trivia) (splices : List Splice) : Except SpliceError (List Trivia) :=
  let ordered := splices.mergeSort laterFirst
  match ordered.find? fun s => s.stop < s.start || ts.length < s.stop with
  | some s => .error (.rangeOutOfBounds id s.start s.stop ts.length)
  | none => if allClear ordered then .ok (ordered.foldl apply ts) else .error (.overlapping id)

end Splice

/-- Token `id` with its splices made. -/
def Token.splice (id : Nat) (t : Token) (splices : List Splice) : Except SpliceError Token :=
  if splices.isEmpty then .ok t
  else if t.missing then .error (.missingToken id)
  else do
    let leading ← Splice.applyAll id t.leading (splices.filter (·.slot == .leading))
    let trailing ← Splice.applyAll id t.trailing (splices.filter (·.slot == .trailing))
    return { t with leading, trailing }

/-- The splices of each of `n` tokens, in the order given. -/
def Splice.byToken (n : Nat) (splices : List Splice) : Array (List Splice) :=
  splices.foldr (fun s groups => groups.modify s.token (s :: ·)) (Array.replicate n [])

namespace Document

/-- The document with the splices made. -/
def splice (d : Document) (splices : List Splice) : Except SpliceError Document :=
  match splices.find? fun s => d.size ≤ s.token with
  | some s => .error (.unknownToken s.token)
  | none => do
    let groups := Splice.byToken d.size splices
    let tokens ← d.tokens.toList.zipIdx.mapM fun (t, id) => t.splice id (groups.getD id [])
    match ofTokens tokens.toArray with
    | .ok e => return e
    | .error e => throw (.document e)

/-- The tokens that no splice names. -/
def untouchedBy (d : Document) (splices : List Splice) : List Nat :=
  (List.range d.size).filter fun id => !splices.any (·.token == id)

end Document

end LayoutLint
