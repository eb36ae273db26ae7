import Preproc.Text.Bytes

set_option autoImplicit false

/-! # Flags

The flags of the command line, each with its names, the kind of value that it takes, and the words
that describe it. -/

namespace Preproc.CommandLine

/-- The flags. -/
inductive Flag where
  | define
  | undefine
  | includeDir
  | warn
  | config
  | strict
  | maxDepth
  | maxParams
  | maxMacros
  | lineMarkers
  | logFormat
  | noColor
  | output
  | help
  | version
  | format
  | all
  | jobs
  | ext
  deriving DecidableEq

/-- What a flag takes. -/
inductive FlagKind where
  /-- Nothing, or a truth value behind an equals sign. -/
  | switch
  | number
  | text
  /-- Several texts with commas between them; the flag may be repeated. -/
  | list
  deriving DecidableEq

/-- What is known of a flag. -/
structure FlagInfo where
  name : String
  short : Option String := none
  kind : FlagKind
  usage : String
  /-- The default as it is shown, if it is. -/
  shownDefault : Option String := none

/-- What is known of a flag. -/
def Flag.info : Flag → FlagInfo
  | define => ⟨"define", some "D", .list, "Define a macro: NAME, NAME=VALUE or F(x)=BODY", none⟩
  | undefine => ⟨"undefine", some "U", .list, "Remove a macro after the definitions", none⟩
  | includeDir => ⟨"include", some "I", .list, "Add a directory to the include path", none⟩
  | warn =>
    ⟨"warn", some "W", .list, "Enable a warning class, or disable it with no-<class>", none⟩
  | config => ⟨"config", none, .text, "Load settings from a YAML file", none⟩
  | strict =>
    ⟨"strict", none, .switch, "Hide extension macros and turn warnings about syntax into errors",
      none⟩
  | maxDepth => ⟨"max-depth", none, .number, "Maximum #if nesting", some "0"⟩
  | maxParams => ⟨"max-params", none, .number, "Maximum macro parameters", some "0"⟩
  | maxMacros =>
    ⟨"max-macros", none, .number,
      "Number of macros after which a warning is given (0 disables it)", some "0"⟩
  | lineMarkers =>
    ⟨"line-markers", none, .switch, "Emit #line markers instead of blank lines", none⟩
  | logFormat =>
    ⟨"log-format", none, .text, "Diagnostic format: plain, text or json", some "\"plain\""⟩
  | noColor => ⟨"no-color", some "C", .switch, "Disable ANSI color output", none⟩
  | output => ⟨"output", some "o", .text, "Write to this file instead of stdout", none⟩
  | help => ⟨"help", some "h", .switch, "show help", none⟩
  | version => ⟨"version", some "v", .switch, "print the version", none⟩
  | format => ⟨"format", none, .text, "Output format: define or yaml", some "\"define\""⟩
  | all => ⟨"all", some "a", .switch, "Include predefined and protected macros", none⟩
  | jobs => ⟨"jobs", some "j", .number, "Files checked in parallel", some "1"⟩
  | ext =>
    ⟨"ext", none, .list, "File extensions collected from directories",
      some "\".c\", \".h\", \".rpp\""⟩

/-- Whether a flag goes by a given name, long or short. -/
def Flag.hasName (f : Flag) (name : Bytes) : Bool :=
  ascii f.info.name = name || f.info.short.any fun short => ascii short = name

/-- The flags that every command takes. -/
def sharedFlags : List Flag :=
  [.define, .undefine, .includeDir, .warn, .config, .strict, .maxDepth, .maxParams, .maxMacros,
    .lineMarkers, .logFormat, .noColor, .output]

/-- The commands. -/
inductive Command where
  | process
  | macros
  | check
  | help
  deriving DecidableEq

/-- The names of a command; the first is the one that is shown. -/
def Command.names : Command → List String
  | process => ["process"]
  | macros => ["macros"]
  | check => ["check"]
  | help => ["help", "h"]

/-- What a command does. -/
def Command.usage : Command → String
  | process => "Write the compiled lines of a file"
  | macros => "Print the macros defined after processing a file"
  | check => "Report diagnostics for files without writing output"
  | help => "Shows a list of commands or help for one command"

/-- How the arguments of a command are shown. -/
def Command.arguments : Command → String
  | process => "<file>"
  | macros => "[file]"
  | check => "<file | directory>..."
  | help => "[command]"

/-- All commands in the order in which they are shown. -/
def Command.all : List Command :=
  [.process, .macros, .check, .help]

/-- The commands that may follow a command, or the program when none was given. Each command has help
    on itself, and help has nothing more. -/
def commandsAfter : Option Command → List Command
  | none => Command.all
  | some .help => []
  | some _ => [.help]

/-- The command with a given name that may follow another. -/
def commandAfter? (level : Option Command) (name : Bytes) : Option Command :=
  (commandsAfter level).find? fun c => c.names.any fun n => ascii n = name

/-- The flags that only one command takes. -/
def Command.ownFlags : Command → List Flag
  | process => [.help]
  | macros => [.format, .all, .help]
  | check => [.jobs, .ext, .help]
  | help => []

/-- The flags of a command, or of the program when no command is given. -/
def flagsOf : Option Command → List Flag
  | none => sharedFlags ++ [.help, .version]
  | some command => command.ownFlags ++ sharedFlags

/-- The flag of a command with a given name. -/
def flag? (command : Option Command) (name : Bytes) : Option Flag :=
  (flagsOf command).find? (·.hasName name)

end Preproc.CommandLine
