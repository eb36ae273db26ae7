import Preproc.CommandLine.Flag

set_option autoImplicit false

/-! # Help

What the program prints about itself and its commands. Commands and flags stand in two columns, the
second two blanks to the right of the longest entry of the first. -/

namespace Preproc.CommandLine

/-- The name of the program. -/
def programName : String := "rpp"

/-- What the program does. -/
def programUsage : String := "Run the directives of a C-style preprocessor over a file"

/-- A flag as it is written, with the kind of its value. -/
def Flag.synopsis (f : Flag) : String :=
  let info := f.info
  let value := match info.kind with
    | .switch => ""
    | .number => " int"
    | .text | .list => " string"
  let long := "--" ++ info.name ++ value
  let both := match info.short with
    | some short => long ++ ", -" ++ short ++ value
    | none => long
  if info.kind = .list then both ++ " [ " ++ both ++ " ]" else both

/-- The words about a flag. -/
def Flag.description (f : Flag) : String :=
  match f.info.shownDefault with
  | some d => f.info.usage ++ " (default: " ++ d ++ ")"
  | none => f.info.usage

/-- Two columns of text. -/
def columns (rows : List (String × String)) : List String :=
  let width := rows.foldl (fun w row => w.max row.1.length) 0
  rows.map fun (left, right) =>
    "   " ++ left ++ String.ofList (List.replicate (width - left.length + 2) ' ') ++ right

/-- Flags in two columns. -/
def flagColumns (flags : List Flag) : List String :=
  columns (flags.map fun f => (f.synopsis, f.description))

/-- Sections with an empty line between each two of them. -/
def sections (parts : List (List String)) : String :=
  "\n\n".intercalate (parts.map fun lines => "\n".intercalate lines) ++ "\n"

/-- The overview of the program. -/
def overviewText (version : String) : String :=
  sections
    [["NAME:", "   " ++ programName ++ " - " ++ programUsage],
      ["USAGE:", "   " ++ programName ++ " [global options] [command [command options]] <file>"],
      ["VERSION:", "   " ++ version],
      "COMMANDS:" :: columns (Command.all.map fun c => (", ".intercalate c.names, c.usage)),
      "GLOBAL OPTIONS:" :: flagColumns (flagsOf none)]

/-- A command with the words that lead to it. -/
def pathOf (level : Option Command) (command : Command) : String :=
  let words := [programName] ++ (level.bind (·.names.head?)).toList ++ command.names.take 1
  " ".intercalate words

/-- What a command does. -/
def nameSection (level : Option Command) (command : Command) : List String :=
  ["NAME:", "   " ++ pathOf level command ++ " - " ++ command.usage]

/-- How a command is called. -/
def usageSection (level : Option Command) (command : Command) (options : String) : List String :=
  ["USAGE:", "   " ++ pathOf level command ++ options ++ " " ++ command.arguments]

/-- All about a command that is asked about itself. -/
def commandText (command : Command) : String :=
  sections
    [nameSection none command,
      usageSection none command " [options]",
      "OPTIONS:" :: flagColumns command.ownFlags,
      "GLOBAL OPTIONS:" :: flagColumns sharedFlags]

/-- A command as a topic of help. -/
def topicText (command : Command) : String :=
  sections
    [nameSection none command,
      usageSection none command "",
      "OPTIONS:" :: flagColumns command.ownFlags]

/-- Help as a topic of itself. -/
def helpTopicText (level : Option Command) : String :=
  sections
    [nameSection level .help,
      usageSection level .help "",
      "GLOBAL OPTIONS:" :: flagColumns sharedFlags]

/-- The version of the program. -/
def versionText (version : String) : String :=
  programName ++ " version " ++ version ++ "\n"

end Preproc.CommandLine
