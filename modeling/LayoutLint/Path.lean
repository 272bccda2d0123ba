import LayoutLint.Text.Split
/-!
# Path — the texts that name files

A path is kept as the text that was given. Between its slashes stand parts; its components leave out the parts that do
not matter, which are the empty ones and all single points but one in front. Paths with the same components name the
same place, and paths are ordered by their components.
-/
namespace LayoutLint

inductive PathComponent where
  /-- A slash in front. -/
  | root
  /-- A point in front. -/
  | here
  /-- Two points. -/
  | up
  | name (text : String)
  deriving DecidableEq, Repr

/-- The kinds of components in their order. -/
def PathComponent.rank : PathComponent → Nat
  | root => 0
  | here => 1
  | up => 2
  | name _ => 3

def PathComponent.lt : PathComponent → PathComponent → Bool
  | name a, name b => a < b
  | a, b => a.rank < b.rank

/-- Lists of components in the order of their first difference. -/
def PathComponent.listLe : List PathComponent → List PathComponent → Bool
  | [], _ => true
  | _ :: _, [] => false
  | a :: l, b :: m => if a = b then listLe l m else a.lt b

namespace Path

/-- Part of a path that makes no component, unless it is in front. -/
def isFiller (part : String) : Bool := part.isEmpty || part == "."

/-- The component that a part makes. -/
def componentOf (part : String) : PathComponent := if part == ".." then .up else .name part

/-- A path in its parts: the slash or point in front, if there is one, and the parts after it. -/
structure Parts where
  front : Option PathComponent
  body : List String

def parts (path : String) : Parts :=
  match (Text.splitOn '/' path.toList).map String.ofList with
  | "" :: p :: rest => ⟨some .root, p :: rest⟩
  | "." :: rest => ⟨some .here, rest⟩
  | body => ⟨none, body⟩

namespace Parts

/-- The text of the path. -/
def text (p : Parts) : String :=
  let body := "/".intercalate p.body
  match p.front with
  | some .root => "/" ++ body
  | some .here => if p.body.isEmpty then "." else "./" ++ body
  | _ => body

/-- The path without the parts at its end that make no component. -/
def trimEnd (p : Parts) : Parts := { p with body := (p.body.reverse.dropWhile isFiller).reverse }

/-- The path without the parts at either end that make no component. -/
def trim (p : Parts) : Parts := { p.trimEnd with body := p.trimEnd.body.dropWhile isFiller }

def components (p : Parts) : List PathComponent :=
  p.front.toList ++ (p.body.filter (!isFiller ·)).map componentOf

end Parts

def components (path : String) : List PathComponent := (parts path).components

def le (a b : String) : Bool := PathComponent.listLe (components a) (components b)

/-- Do two paths name the same place? -/
def same (a b : String) : Bool := components a == components b

/-- The name of the file that a path names. -/
def fileName? (path : String) : Option String :=
  match (components path).getLast? with
  | some (.name n) => some n
  | _ => none

/-- Are two points the last part of a path? -/
def endsUp (path : String) : Bool := (parts path).body.getLast? == some ".."

/-- The ending of the name of the file, after its last point. A point in front of a name starts no ending. -/
def extension? (path : String) : Option String := do
  let name ← fileName? path
  match Text.splitLast '.' name.toList with
  | (some (_ :: _), ending) => some (String.ofList ending)
  | _ => none

/-- The path of a file in a directory, given by its name. -/
def join (directory name : String) : String :=
  if directory.isEmpty then name
  else if directory.endsWith "/" then directory ++ name
  else directory ++ "/" ++ name

/-- The path of the directory that holds what a path names. -/
def parent? (path : String) : Option String :=
  let p := (parts path).trimEnd
  if p.body.isEmpty then if p.front = some .here then some "" else none
  else some (Parts.trimEnd { p with body := p.body.dropLast }).text

/-- The parts that are left of parts in a row after some components. -/
def dropComponents? : List PathComponent → List String → Option (List String)
  | [], body => some body
  | c :: cs, body =>
    match body.dropWhile isFiller with
    | [] => none
    | part :: rest => if componentOf part = c then dropComponents? cs rest else none

/-- What is left of a path below a directory; `none` when it is not below it. -/
def relativeTo? (directory path : String) : Option String :=
  let p := parts path
  let below (cs : List PathComponent) :=
    (dropComponents? cs p.body).map fun body => (Parts.trim ⟨none, body⟩).text
  match p.front, components directory with
  | _, [] => some p.trimEnd.text
  | some c, c' :: cs => if c = c' then below cs else none
  | none, cs => below cs

end Path

end LayoutLint
