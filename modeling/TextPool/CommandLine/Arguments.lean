/-!
# Commands

What the words of a command line ask for. The first word is the command. Two words may stand
anywhere after it and be repeated: `json` asks for the figures in machine-readable form, and
`verbose` for remarks on the progress, of which there are none. All other words name files.

Words that start with two dashes are refused, and that comes before anything else is looked at.
-/

namespace TextPool

/-- What the program is asked to do. -/
inductive Command where
  /-- Write a table file with the lines of a text file. -/
  | pack (input output : String)
  /-- List the strings of a table file. -/
  | dump (image : String)
  /-- Give the figures of a table file. -/
  | stats (image : String) (json : Bool)
  deriving DecidableEq

/-- Why the words of a command line ask for nothing. -/
inductive UsageError where
  | noCommand
  | unknownOption (word : String)
  | unknownCommand (word : String)
  | missingOperands (operands : List String)
  deriving DecidableEq

def UsageError.message : UsageError → String
  | noCommand => "Usage: vstr <pack|dump|stats> [verbose] [json] <args>"
  | unknownOption word => "Unknown option: " ++ word
  | unknownCommand word => "Unknown command: " ++ word
  | missingOperands operands =>
    "Missing " ++ " ".intercalate (operands.map fun operand => "<" ++ operand ++ ">")

namespace Command

def isOption (word : String) : Bool :=
  match word.toList with
  | '-' :: '-' :: _ => true
  | _ => false

/-- The words that name files. -/
def operands (words : List String) : List String :=
  words.filter fun word => word ≠ "verbose" ∧ word ≠ "json"

/-- The command that a first word and the words after it ask for. -/
def ofWords (command : String) (words : List String) : Except UsageError Command :=
  match command with
  | "pack" =>
    match operands words with
    | [input, output] => .ok (.pack input output)
    | _ => .error (.missingOperands ["input", "output"])
  | "dump" =>
    match operands words with
    | [image] => .ok (.dump image)
    | _ => .error (.missingOperands ["image"])
  | "stats" =>
    match operands words with
    | [image] => .ok (.stats image (words.contains "json"))
    | _ => .error (.missingOperands ["image"])
  | _ => .error (.unknownCommand command)

def ofArguments : List String → Except UsageError Command
  | [] => .error .noCommand
  | command :: words =>
    match words.find? isOption with
    | some word => .error (.unknownOption word)
    | none => ofWords command words

def source : Command → String
  | pack input _ => input
  | dump image => image
  | stats image _ => image

end Command

end TextPool
