import LayoutLint.Json.Decimal
/-!
# Value — JSON data

An object lists its members by name. Readers build objects with `objectOf`, which sorts the names and keeps the last of
the members with one name; printers write the members in the order in which they stand.
-/
namespace LayoutLint

inductive JsonValue where
  | null
  | bool (value : Bool)
  | integer (value : Int)
  | decimal (value : Decimal)
  | string (value : String)
  | array (items : List JsonValue)
  | object (members : List (String × JsonValue))
  deriving Repr

namespace JsonValue

/-- The members with one more, in the order of their names. It takes the place of a member with its name. -/
def insertMember (name : String) (value : JsonValue) : List (String × JsonValue) → List (String × JsonValue)
  | [] => [(name, value)]
  | (n, v) :: rest =>
    if name < n then (name, value) :: (n, v) :: rest
    else if name = n then (name, value) :: rest
    else (n, v) :: insertMember name value rest

/-- The object with the members of a list, in which the last of the members with one name counts. -/
def objectOf (members : List (String × JsonValue)) : JsonValue :=
  object (members.foldl (fun ms m => insertMember m.1 m.2 ms) [])

/-- The member of an object with a name. -/
def member? (name : String) : JsonValue → Option JsonValue
  | object members => members.lookup name
  | _ => none

def string? : JsonValue → Option String
  | string s => some s
  | _ => none

def ofNat (n : Nat) : JsonValue := integer n

end JsonValue

end LayoutLint
