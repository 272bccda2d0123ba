import LayoutLint.Config
import LayoutLint.Config.Schema
import LayoutLint.Json.Relaxed
/-!
# Reader — configurations as text

A configuration is relaxed JSON of a given shape. A text is refused for the first of these reasons: it is not relaxed
JSON, its value does not fit the shape, a number in it is not an integer, or the pattern of an override cannot be read.
A text that holds no value is the default configuration.
-/
namespace LayoutLint.Config

/-- What may be said of a rule. -/
def ruleSchema : Schema :=
  let severity := Schema.word ["off", "error", "warning", "info"]
  .either [.boolean, severity, .record true [] [("severity", severity)]]

def overrideSchema : Schema := .record false ["files"] [("files", .nonEmptyText), ("max_line_length", .positive)]

/-- The shape of configurations. -/
def schema : Schema := .record false [] [
  ("$schema", .text), ("options", .mapOf ruleSchema), ("max_line_length", .positive),
  ("extension_methods", .listOf .nonEmptyText), ("include", .listOf .text), ("exclude", .listOf .text),
  ("overrides", .listOf overrideSchema), ("timings", .boolean)]

/-- The length that a member of an object gives, or `default` without such a member. -/
def lengthOf? {α : Type} (v : JsonValue) (default : α) (ofLength : Nat → α) : Option α :=
  match v.member? "max_line_length" with
  | none => some default
  | some (.integer n) => some (ofLength n.toNat)
  | some _ => none

/-- The items of an array that is a member of an object. -/
def itemsOf (v : JsonValue) (name : String) : List JsonValue :=
  match v.member? name with
  | some (.array items) => items
  | _ => []

def stringsOf (v : JsonValue) (name : String) : List String := (itemsOf v name).filterMap (·.string?)

def ruleOptionOf : JsonValue → RuleOption
  | .bool on => .enabled on
  | .string severity => .named severity
  | value => .detailed value

def overrideOf? (v : JsonValue) : Option ConfigOverride :=
  (lengthOf? v none some).map fun maxLineLength =>
    { files := ((v.member? "files").bind (·.string?)).getD "", maxLineLength }

/-- The configuration that a value of the right shape holds, its patterns unread; `none` when a length is no integer. -/
def ofJson? (v : JsonValue) : Option Config := do
  let maxLineLength ← lengthOf? v maxLineLengthOption.default id
  let overrides ← (itemsOf v "overrides").mapM overrideOf?
  return {
    options :=
      match v.member? "options" with
      | some (.object members) => members.map fun (id, value) => (id, ruleOptionOf value)
      | _ => []
    maxLineLength
    extensionMethods := stringsOf v "extension_methods"
    included := stringsOf v "include"
    excluded := stringsOf v "exclude"
    overrides
    timings :=
      match v.member? "timings" with
      | some (.bool on) => on
      | _ => false }

/-- Reads a configuration. -/
def ofText (text : String) : Except ConfigError Config :=
  match JsonValue.readRelaxed? text with
  | none => .error .invalidJson
  | some value =>
    let value := value.getD (.object [])
    match schema.fault? value with
    | some place => .error (.notAllowed (Schema.pointer place))
    | none =>
      match ofJson? value with
      | none => .error .notConvertible
      | some c => c.withGlobs

end LayoutLint.Config
