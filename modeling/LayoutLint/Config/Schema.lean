import LayoutLint.Json.Value
/-!
# Schema — the shapes that JSON data may have

A schema says what a value must look like. A value that does not fit has a first fault, at a place that is a path of
names and indexes from the value inwards (`fault?`); members are looked at in their order. A member that does not
belong, or one that is missing, is a fault of the object.
-/
namespace LayoutLint

inductive Schema where
  | boolean
  /-- Any string. -/
  | text
  | nonEmptyText
  /-- One of several strings. -/
  | word (words : List String)
  /-- A whole number from one on, however it is written. -/
  | positive
  /-- An array with items of one shape. -/
  | listOf (item : Schema)
  /-- An object with members of one shape, of any names. -/
  | mapOf (member : Schema)
  /-- An object with the members that are listed, some of them required; others may stand beside them if it is open. -/
  | record (isOpen : Bool) (required : List String) (members : List (String × Schema))
  /-- One of several shapes. A value that has none of them is a fault as a whole. -/
  | either (schemas : List Schema)

namespace Schema

mutual

/-- The place of the first fault of a value; `none` when the value fits. -/
def fault? (v : JsonValue) : Schema → Option (List String)
  | boolean =>
    match v with
    | .bool _ => none
    | _ => some []
  | text =>
    match v with
    | .string _ => none
    | _ => some []
  | nonEmptyText =>
    match v with
    | .string s => if s.isEmpty then some [] else none
    | _ => some []
  | word words =>
    match v with
    | .string s => if words.contains s then none else some []
    | _ => some []
  | positive =>
    match v with
    | .integer n => if 0 < n then none else some []
    | .decimal d => if d.isPositiveWhole then none else some []
    | _ => some []
  | listOf item =>
    match v with
    | .array items => items.zipIdx.findSome? fun (value, i) => (item.fault? value).map (toString i :: ·)
    | _ => some []
  | mapOf member =>
    match v with
    | .object members => members.findSome? fun (name, value) => (member.fault? value).map (name :: ·)
    | _ => some []
  | record isOpen required fields =>
    match v with
    | .object members =>
      (members.findSome? fun (name, value) => memberFault? isOpen name value fields) <|>
        if required.all fun name => (members.lookup name).isSome then none else some []
    | _ => some []
  | either schemas => if fitsOne v schemas then none else some []

/-- The place of the first fault of a member of an object with members of these shapes. -/
def memberFault? (isOpen : Bool) (name : String) (v : JsonValue) : List (String × Schema) → Option (List String)
  | [] => if isOpen then none else some []
  | (n, schema) :: rest =>
    if n = name then (schema.fault? v).map (name :: ·) else memberFault? isOpen name v rest

/-- Has a value one of the shapes? -/
def fitsOne (v : JsonValue) : List Schema → Bool
  | [] => false
  | schema :: rest => (schema.fault? v).isNone || fitsOne v rest

end

/-- A name as it stands in a pointer, where `~` and `/` have other meanings. -/
def pointerPart (name : String) : String :=
  String.ofList <| name.toList.flatMap fun c => if c == '~' then ['~', '0'] else if c == '/' then ['~', '1'] else [c]

/-- The JSON pointer to a place, empty for the value as a whole. -/
def pointer (place : List String) : String := String.join (place.map fun name => "/" ++ pointerPart name)

end Schema

end LayoutLint
