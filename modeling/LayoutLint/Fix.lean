import LayoutLint.Analysis
import LayoutLint.Batch
/-!
# Fix — mending a text in rounds

A round reads the text, makes a selection of the edits for its violations and reads the outcome again. Rounds go on
until no violation can be mended, until a round brings back an earlier text, or until a limit is reached. The loop knows
of reading only that it turns a text into a document with violations, so what it says of its end holds for any rules.
-/
namespace LayoutLint

/-- The number of rounds that are made at most, unless told otherwise. -/
def defaultRounds : Nat := 10

/-- How mending ends. -/
inductive FixResult where
  /-- Nothing is left to mend, after this many rounds. -/
  | converged (rounds : Nat)
  /-- The limit was reached and this many edits are left. -/
  | limitReached (remaining : Nat)
  /-- The text of a round was that of the round this many rounds before. -/
  | cycle (length : Nat)
  deriving DecidableEq, Repr

/-- A text read: its document and its violations. -/
structure Reading where
  document : Document
  violations : List Violation

structure FixReport where
  result : FixResult
  document : Document
  /-- The number of edits made in all rounds. -/
  fixesApplied : Nat
  /-- The violations of the final document. -/
  violations : List Violation

/-- Was the text changed by an edit? -/
def FixReport.modified (r : FixReport) : Bool := 0 < r.fixesApplied

/-- How texts are read and violations mended. -/
structure FixSystem where
  read : String → Except Failure Reading
  editFor? : Document → Violation → Option Edit
  /-- The work has been called off. -/
  cancelled : Bool := false

namespace FixSystem

/-- The edits for the violations of a reading. -/
def edits (s : FixSystem) (r : Reading) : List Edit := r.violations.filterMap (s.editFor? r.document)

/-- Goes on from a reading with at most `left` rounds, after `rounds` rounds that made `applied` edits. `history` lists
the texts of all rounds, the latest first. -/
def fixRounds (s : FixSystem) (left rounds applied : Nat) (history : List String) (r : Reading) :
    Except Failure FixReport :=
  let edits := s.edits r
  let report (result : FixResult) : FixReport :=
    { result, document := r.document, fixesApplied := applied, violations := r.violations }
  if edits.isEmpty then .ok (report (.converged rounds))
  else
    match left with
    | 0 => .ok (report (.limitReached edits.length))
    | left + 1 =>
      if s.cancelled then .error .cancelled
      else do
        let outcome ← r.document.applyEdits (selectClear edits).1
        let applied := applied + outcome.applied.length
        let text := outcome.document.text
        let next ← s.read text
        match history.idxOf? text with
        | some i =>
          return { result := .cycle (i + 1), document := next.document, fixesApplied := applied,
                   violations := next.violations }
        | none => s.fixRounds left (rounds + 1) applied (text :: history) next

/-- Mends a text in at most `limit` rounds. -/
def fix (s : FixSystem) (limit : Nat) (source : String) : Except Failure FixReport := do
  s.fixRounds limit 0 0 [source] (← s.read source)

end FixSystem

namespace Registry

/-- Reads a text: parses it and analyzes it with the rules of the registry. -/
def read (r : Registry) (options : AnalyzerOptions) (cancelled : Bool) (source : String) : Except Failure Reading :=
  match Program.parse source with
  | .error cause => .error (.parse cause)
  | .ok p => do
    return { document := p.document
             violations := ← r.analyze { document := p.document, tree := p.tree, options, cancelled } }

/-- How the rules of a registry mend texts. -/
def fixSystem (r : Registry) (options : AnalyzerOptions) (cancelled : Bool) : FixSystem where
  read := r.read options cancelled
  editFor? := r.editFor?
  cancelled

end Registry

end LayoutLint
