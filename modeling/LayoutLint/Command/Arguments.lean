import LayoutLint.Options
/-!
# Arguments — reading a command line

A command line is a list of words: options, the name of a command, and options and operands of that command. A long
option is written `--name`, with its value in the next word or after `=`; short ones may stand together in one word, and
the value of the last of them may follow at once. No option is given twice at one level, and a value is never empty.
After `--` all words are operands. Asking for the version or for help ends reading, if nothing was wrong before.
-/
namespace LayoutLint

/-- An option as a command knows it. -/
structure OptionForm where
  name : String
  short : Option Char := none
  takesValue : Bool := false

/-- Why a command line gives no command to run. -/
inductive Refusal where
  | wrongUsage
  | askedVersion
  | askedHelp
  deriving DecidableEq, Repr

/-- What was read of the words of one level. -/
structure Given where
  /-- The options with their values. -/
  options : List (String × String) := []
  operands : List String := []

namespace Given

def has (g : Given) (name : String) : Bool := (g.options.lookup name).isSome

/-- What was read with one more option. -/
def add (g : Given) (form : OptionForm) (value : String) : Except Refusal Given :=
  if form.name == "version" then .error .askedVersion
  else if form.name == "help" then .error .askedHelp
  else if g.has form.name || (form.takesValue && value.isEmpty) then .error .wrongUsage
  else .ok { g with options := g.options ++ [(form.name, value)] }

end Given

/-- The text of a value that follows its option at once, maybe after `=`. -/
def attachedValue : List Char → String
  | '=' :: r => String.ofList r
  | r => String.ofList r

/-- Reads short options that stand together in a word, and the option among them that takes the next word for its value.
-/
def readShorts (forms : List OptionForm) (g : Given) : List Char → Except Refusal (Given × Option OptionForm)
  | [] => .ok (g, none)
  | c :: r =>
    match forms.find? (·.short == some c) with
    | none => .error .wrongUsage
    | some form =>
      if !form.takesValue then do readShorts forms (← g.add form "") r
      else if r.isEmpty then .ok (g, some form)
      else do return (← g.add form (attachedValue r), none)

/-- Reads a long option without its dashes, and the option if it takes the next word for its value. -/
def readLong (forms : List OptionForm) (g : Given) (word : List Char) : Except Refusal (Given × Option OptionForm) :=
  let name := word.takeWhile (· != '=')
  let value := word.drop name.length
  match forms.find? (·.name == String.ofList name) with
  | none => .error .wrongUsage
  | some form =>
    if value.isEmpty then if form.takesValue then .ok (g, some form) else do return (← g.add form "", none)
    else if form.takesValue then do return (← g.add form (attachedValue value), none)
    else .error .wrongUsage

/-- Reads the words of a level. Where commands are named, the first operand is one, and it is left with the words after
it; elsewhere all words are read. -/
def readWords (forms : List OptionForm) (namesCommand : Bool) (g : Given) (words : List String) :
    Except Refusal (Given × List String) :=
  match words with
  | [] => .ok (g, [])
  | word :: rest =>
    let read : Except Refusal (Given × Option OptionForm) :=
      match word.toList with
      | '-' :: '-' :: r => readLong forms g r
      | '-' :: r => readShorts forms g r
      | _ => .ok (g, none)
    if word == "--" then
      if namesCommand then .error .wrongUsage else .ok ({ g with operands := g.operands ++ rest }, [])
    else if word == "-" || !word.startsWith "-" then
      if namesCommand then .ok (g, word :: rest)
      else readWords forms namesCommand { g with operands := g.operands ++ [word] } rest
    else
      match read with
      | .error e => .error e
      | .ok (g, none) => readWords forms namesCommand g rest
      | .ok (g, some form) =>
        match rest with
        | [] => .error .wrongUsage
        | value :: rest =>
          if value != "-" && value.startsWith "-" then .error .wrongUsage
          else
            match g.add form value with
            | .error e => .error e
            | .ok g => readWords forms namesCommand g rest
termination_by words.length

end LayoutLint
