import LayoutLint.Json.Token
/-!
# Relaxed — reading relaxed JSON

A value is read from the tokens of a text. Between the items of a container a comma may be missing, and one may follow
the last item; two in a row are refused, as is one in front. A text holds one value; without any token it holds none.
-/
namespace LayoutLint.JsonValue

/-- The tokens that are left after something was read. -/
abbrev Shorter (ts : List JsonToken) := { rest : List JsonToken // rest.length < ts.length }

/-- What is left of the tail of a list of tokens. -/
def Shorter.cons {t : JsonToken} {ts : List JsonToken} (rest : Shorter ts) : Shorter (t :: ts) :=
  ⟨rest.1, Nat.lt_succ_of_lt rest.2⟩

/-- The tail of a list of tokens. -/
def Shorter.tail (t : JsonToken) (ts : List JsonToken) : Shorter (t :: ts) := ⟨ts, Nat.lt_succ_self _⟩

/-- What is left of what is left. -/
def Shorter.trans {ts : List JsonToken} (a : Shorter ts) (b : Shorter a.1) : Shorter ts := ⟨b.1, Nat.lt_trans b.2 a.2⟩

/-- What is left after a comma, if there is one. -/
def Shorter.skipComma {ts : List JsonToken} (rest : Shorter ts) : Shorter ts :=
  match _h : rest.1 with
  | .comma :: r => ⟨r, by have := rest.2; rw [_h] at this; exact Nat.lt_of_succ_lt this⟩
  | _ => rest

/-- The name of a member that a token stands for. -/
def memberName? : JsonToken → Option String
  | .string s => some s
  | .number text => some (String.ofList text)
  | .word text => some (String.ofList text)
  | _ => none

mutual

/-- Reads a value. -/
def readValue? (ts : List JsonToken) : Option (JsonValue × Shorter ts) :=
  match ts with
  | [] => none
  | t :: r =>
    match t with
    | .null => some (null, .tail _ r)
    | .bool b => some (bool b, .tail _ r)
    | .string s => some (string s, .tail _ r)
    | .number text => some (ofNumeral text, .tail _ r)
    | .openBracket => (readItems? r).map fun (items, rest) => (array items, rest.cons)
    | .openBrace => (readMembers? r).map fun (members, rest) => (objectOf members, rest.cons)
    | _ => none
termination_by (ts.length, 0)
decreasing_by
  all_goals exact Prod.Lex.left _ _ (Nat.lt_succ_self _)

/-- Reads the items of an array, and the bracket after them. -/
def readItems? (ts : List JsonToken) : Option (List JsonValue × Shorter ts) :=
  match ts with
  | .closeBracket :: r => some ([], .tail _ r)
  | ts =>
    match readValue? ts with
    | none => none
    | some (value, rest) =>
      let after := rest.skipComma
      (readItems? after.1).map fun (items, last) => (value :: items, after.trans last)
termination_by (ts.length, 1)
decreasing_by
  · exact Prod.Lex.right _ (by decide)
  · exact Prod.Lex.left _ _ rest.skipComma.2

/-- Reads the members of an object, and the brace after them. -/
def readMembers? (ts : List JsonToken) : Option (List (String × JsonValue) × Shorter ts) :=
  match ts with
  | .closeBrace :: r => some ([], .tail _ r)
  | name :: .colon :: r =>
    match memberName? name, readValue? r with
    | some name, some (value, rest) =>
      let after := rest.skipComma
      (readMembers? after.1).map fun (members, last) => ((name, value) :: members, (after.trans last).cons.cons)
    | _, _ => none
  | _ => none
termination_by (ts.length, 1)
decreasing_by
  · exact Prod.Lex.left _ _ (by simp only [List.length_cons]; omega)
  · exact Prod.Lex.left _ _ (by have := rest.skipComma.2; simp only [List.length_cons]; omega)

end

/-- Reads a text that holds one value or none: what it holds, or `none` where it is not relaxed JSON. -/
def readRelaxed? (text : String) : Option (Option JsonValue) :=
  match JsonToken.scanAll? text.toList with
  | none => none
  | some [] => some none
  | some ts =>
    match readValue? ts with
    | some (value, ⟨[], _⟩) => some (some value)
    | _ => none

end LayoutLint.JsonValue
