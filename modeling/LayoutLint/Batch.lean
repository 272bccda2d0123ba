import LayoutLint.Registry
/-!
# Batch — edits made together

Edits are computed for one document and made in one go. Edits whose regions conflict are refused together; to mend
violations whose edits conflict, a selection without conflicts is made first and the others wait for the next round.
-/
namespace LayoutLint

/-- The first edit of a list in order, looked for no further than `e` reaches, that conflicts with `e`. -/
def Edit.conflictIn? (e : Edit) : List Edit → Option Edit
  | [] => none
  | f :: rest => if e.span.stop < f.span.start then none else if e.conflictsWith f then some f else e.conflictIn? rest

/-- The first two edits of a list in order that conflict. -/
def firstConflict? : List Edit → Option (Edit × Edit)
  | [] => none
  | e :: rest =>
    match e.conflictIn? rest with
    | some f => some (e, f)
    | none => firstConflict? rest

/-- A document after edits, and the edits that were made, in the order of their regions. -/
structure FixOutcome where
  document : Document
  applied : List Edit

/-- Were any edits made? -/
def FixOutcome.modified (o : FixOutcome) : Bool := !o.applied.isEmpty

namespace Document

/-- The document with the splices made; that they cannot be made is a failure. -/
def applySplices (d : Document) (splices : List Splice) : Except Failure Document :=
  match d.splice splices with
  | .ok e => .ok e
  | .error cause => .error (.invalidSplice cause)

/-- The document with the edits made, all of them or none. -/
def applyEdits (d : Document) (edits : List Edit) : Except Failure FixOutcome :=
  let edits := (edits.filter (!·.isEmpty)).mergeSort Edit.le
  match firstConflict? edits with
  | some (e, f) => .error (.conflictingEdits e.ruleId e.span f.ruleId f.span)
  | none =>
    if edits.isEmpty then .ok { document := d, applied := [] }
    else (d.applySplices (edits.reverse.flatMap (·.splices))).map fun document => { document, applied := edits }

end Document

/-- Splits edits in order into those that conflict with none taken before, and the others. `taken` are the edits taken
so far, the latest first. -/
def takeClear (taken : List Edit) : List Edit → List Edit × List Edit
  | [] => (taken.reverse, [])
  | e :: rest =>
    if taken.any (·.conflictsWith e) then
      let (selected, deferred) := takeClear taken rest
      (selected, e :: deferred)
    else takeClear (e :: taken) rest

/-- Splits edits into a selection without conflicts and those that have to wait. Edits are taken in the order of their
regions. -/
def selectClear (edits : List Edit) : List Edit × List Edit := takeClear [] (edits.mergeSort Edit.ruleLe)

namespace Registry

/-- The edit for a violation; `none` when its rule is not active or cannot mend it, or when the edit has no splices. -/
def editFor? (r : Registry) (d : Document) (v : Violation) : Option Edit :=
  match r.find? v.ruleId with
  | some active => if active.rule.fixable then (active.rule.fix d v.span).filter (!·.isEmpty) else none
  | none => none

/-- The document with one violation mended; `none` when there is nothing to do. -/
def fix? (r : Registry) (d : Document) (v : Violation) : Except Failure (Option Document) :=
  match r.editFor? d v with
  | some e => (d.applySplices e.splices).map some
  | none => .ok none

/-- The document with all violations mended that can be, all at once. -/
def fixAll (r : Registry) (d : Document) (violations : List Violation) : Except Failure FixOutcome :=
  d.applyEdits (violations.filterMap (r.editFor? d))

end Registry

end LayoutLint
