import Preproc.CommandLine.Help
import Preproc.CommandLine.Options
import Preproc.Diagnostic.Render
import Preproc.Engine.Start
import Preproc.Files.IncludePath
import Preproc.Settings.Yaml
import Preproc.Yaml.Writer

set_option autoImplicit false

/-! # The program

What each command does with the files it sees. A command writes to the two output streams, perhaps
writes a file, and ends with a status: 0 when all is well, 1 after errors, 2 after a run that was
ended early. -/

namespace Preproc.CommandLine

/-- What the program is given besides its arguments. -/
structure Environment where
  version : String
  files : Files.View
  stdin : Bytes
  /-- Whether diagnostics go to a terminal that shows colours. -/
  terminal : Bool := false
  /-- The time that is put into records. -/
  time : Bytes

/-- What the program did. -/
structure Outcome where
  status : Nat := 0
  stdout : Bytes := []
  stderr : Bytes := []
  /-- The file that was written, if there is one. -/
  written : Option (Bytes × Bytes) := none
  /-- The paths that were looked at. -/
  lookedAt : List Bytes := []

/-- The status after a run. -/
def statusOf (r : Engine.Result) : Nat :=
  if r.aborted then 2 else if 0 < r.errors then 1 else 0

/-! ## Settings -/

/-- The format of diagnostics; an unknown name is the error. -/
def diagnosticFormat (colours : Bool) (o : Options) : Except Bytes DiagnosticFormat :=
  if o.logFormat.isEmpty || o.logFormat = ascii "plain" then
    .ok (if colours && !o.noColor then .colour else .plain)
  else if o.logFormat = ascii "text" then .ok .fields
  else if o.logFormat = ascii "json" then .ok .json
  else .error (ascii "unknown log format " ++ quoted o.logFormat)

/-- Diagnostics as text. -/
def writeDiagnostics (env : Environment) (format : DiagnosticFormat) (ds : List Diagnostic) :
    Bytes :=
  ds.flatMap (Diagnostic.write format env.time)

/-- The settings of the file that the flags name, or the defaults. -/
def baseSettings (env : Environment) (o : Options) : Except Bytes Settings :=
  if o.config.isEmpty then .ok {}
  else match env.files.read o.config with
    | .error why => .error (ascii "reading config " ++ o.config ++ ascii ": " ++ why)
    | .ok text =>
      match Settings.ofYaml text with
      | .ok s => .ok s
      | .error e => .error (o.config ++ ascii ": " ++ e.message)

/-- The warnings that are wanted when the flags name some: they change what was wanted before. -/
def chosenWarnings (before : WarningSet) (names : List Bytes) : Except Bytes WarningSet :=
  if names.isEmpty then .ok before
  else match WarningSet.ofNames (splitOn (byte '|') before.name ++ names) with
    | .ok set => .ok set
    | .error raw => .error (WarningSet.unknownMessage raw)

/-- The settings of a run: those of the file, and the flags on top of them. -/
def settingsOf (env : Environment) (o : Options) : Except Bytes Settings :=
  match baseSettings env o with
  | .error why => .error why
  | .ok base =>
    match chosenWarnings base.warnings o.warnings with
    | .error why => .error why
    | .ok warnings =>
      let s := { base with
        defines := base.defines ++ o.defines
        undefines := base.undefines ++ o.undefines
        includeDirs := base.includeDirs ++ o.includeDirs
        warnings
        strict := o.strict.getD base.strict
        lineMarkers := o.lineMarkers.getD base.lineMarkers
        maxDepth := o.maxDepth.getD base.maxDepth
        maxParams := o.maxParams.getD base.maxParams
        maxMacros := o.maxMacros.getD base.maxMacros }
      match s.validate with
      | .ok () => .ok s
      | .error e => .error e.message

/-- What a run with given settings works with. -/
def hostOf (env : Environment) (s : Settings) : Engine.Host :=
  ⟨s, some (Files.findInclude env.files s.includeDirs)⟩

/-- The paths at which included files were looked for. -/
def requestedPaths (s : Settings) (state : Engine.State) : List Bytes :=
  state.requests.flatMap fun r =>
    Files.includeCandidates s.includeDirs r.name r.includedFrom r.system

/-! ## Commands -/

/-- An error that ends a command, after what was written before it. -/
def Outcome.fail (before : Outcome) (message : Bytes) : Outcome :=
  { before with
    status := 1
    stderr := before.stderr ++ ascii "error: " ++ message ++ [newline] }

/-- The name and text of an input; a single dash stands for the standard input. -/
def readInput (env : Environment) (path : Bytes) : Except Bytes (Bytes × Bytes) :=
  if path = ascii "-" then .ok (ascii "<stdin>", env.stdin)
  else match env.files.read path with
    | .ok text => .ok (path, text)
    | .error why => .error (ascii "reading " ++ path ++ ascii ": " ++ why)

/-- A run that has been set up: the format of its diagnostics, its settings, and its state before
    the first file. -/
structure Session where
  format : DiagnosticFormat
  host : Engine.Host
  state : Engine.State

/-- Set up a run as the flags say. -/
def startSession (env : Environment) (o : Options) : Except Outcome Session :=
  let looked : Outcome := { lookedAt := if o.config.isEmpty then [] else [o.config] }
  match diagnosticFormat env.terminal o with
  | .error why => .error (looked.fail why)
  | .ok format =>
    match settingsOf env o with
    | .error why => .error (looked.fail why)
    | .ok settings =>
      let host := hostOf env settings
      match host.start with
      | (state, none) => .ok ⟨format, host, state⟩
      | (state, some failure) =>
        let told := writeDiagnostics env format state.reporter.delivered
        .error ({ looked with stderr := told }.fail failure.message)

/-- What a session has told so far. -/
def Session.outcome (env : Environment) (o : Options) (s : Session) (paths : List Bytes) :
    Outcome where
  stderr := writeDiagnostics env s.format s.state.reporter.delivered
  lookedAt := (if o.config.isEmpty then [] else [o.config]) ++ paths
    ++ requestedPaths s.host.settings s.state

/-- Write the compiled lines of a file. -/
def processCommand (env : Environment) (o : Options) (arguments : List Bytes) : Outcome :=
  match arguments with
  | [] => ({} : Outcome).fail (ascii "usage: rpp process [-o output] <file>")
  | path :: _ =>
    match startSession env o with
    | .error out => out
    | .ok session =>
      match readInput env path with
      | .error why => (session.outcome env o [path]).fail why
      | .ok (name, text) =>
        let (out, result) := session.state.run session.host name text
        let told := { session with state := out.state }.outcome env o
          [path, o.output, Path.parent o.output]
        if o.output.isEmpty then
          { told with status := statusOf result, stdout := out.written }
        else match env.files.writeError o.output with
          | some why =>
            told.fail (ascii "writing " ++ o.output ++ ascii ": "
              ++ Files.View.failed "open" o.output why)
          | none =>
            { told with status := statusOf result, written := some (o.output, out.written) }

/-- A macro as an entry of a YAML list. -/
def macroEntry (d : Macro.Definition) : Bytes :=
  let line (text : Bytes) : Bytes := text ++ [newline]
  let field (lead name : String) (value : Bytes) : Bytes :=
    line (ascii lead ++ ascii name ++ ascii ": " ++ value)
  field "- " "name" (Yaml.writeString d.name)
    ++ (if d.params.isEmpty then []
      else line (ascii "  params:")
        ++ d.params.flatMap fun p => line (ascii "    - " ++ Yaml.writeString p))
    ++ (if d.functionLike then field "  " "function" (ascii "true") else [])
    ++ field "  " "body" (Yaml.writeString (Macro.Replacement.source d.params d.body))
    ++ field "  " "kind" (Yaml.writeString d.origin.name)
    ++ (if d.definedAt.file.isEmpty then []
      else field "  " "defined_at"
        (Yaml.writeString (d.definedAt.file ++ ascii ":" ++ decimal d.definedAt.line)))

/-- Macros in the format that was asked for. -/
def writeMacros (format : Bytes) (ds : List Macro.Definition) : Except Bytes Bytes :=
  if format = ascii "yaml" then
    .ok (if ds.isEmpty then ascii "[]\n" else ds.flatMap macroEntry)
  else if format = ascii "define" then
    .ok (ds.flatMap fun d => ascii "#define " ++ d.source ++ [newline])
  else .error (ascii "unknown format " ++ quoted format)

/-- Print the macros that are defined after a file, or without one. -/
def macrosCommand (env : Environment) (o : Options) (arguments : List Bytes) : Outcome :=
  match startSession env o with
  | .error out => out
  | .ok session =>
    let ran : Except Bytes (Engine.State × Engine.Result) :=
      match arguments with
      | [] => .ok (session.state, {})
      | path :: _ =>
        (readInput env path).map fun (name, text) =>
          let (out, result) := session.state.run session.host name text
          (out.state, result)
    match ran with
    | .error why => (session.outcome env o (arguments.take 1)).fail why
    | .ok (state, result) =>
      let told := { session with state }.outcome env o (arguments.take 1)
      let ds := state.table.all.filter fun d => o.all || d.origin = .user
      match writeMacros o.format ds with
      | .error why => told.fail why
      | .ok text => { told with status := statusOf result, stdout := text }

/-! ## Checking files -/

/-- What came of checking one file. -/
structure FileCheck where
  path : Bytes
  /-- The diagnostics as text. -/
  told : Bytes := []
  /-- The result of the run, or why there was none. -/
  result : Except Bytes Engine.Result
  lookedAt : List Bytes := []

/-- Check one file on its own. -/
def checkFile (env : Environment) (o : Options) (settings : Settings) (path : Bytes) : FileCheck :=
  match diagnosticFormat false o with
  | .error why => { path, result := .error why }
  | .ok format =>
    let host := hostOf env settings
    match host.start with
    | (state, some failure) =>
      { path
        told := writeDiagnostics env format state.reporter.delivered
        result := .error failure.message }
    | (state, none) =>
      match env.files.read path with
      | .error why =>
        { path
          told := writeDiagnostics env format state.reporter.delivered
          result := .error (ascii "reading " ++ path ++ ascii ": " ++ why) }
      | .ok text =>
        let (out, result) := state.run host path text
        { path
          told := writeDiagnostics env format out.state.reporter.delivered
          result := .ok result
          lookedAt := requestedPaths settings out.state }

/-- What a checked file adds to the error stream. -/
def FileCheck.report (c : FileCheck) : Bytes :=
  match c.result with
  | .ok _ => c.told
  | .error why => c.told ++ c.path ++ ascii ": " ++ why ++ [newline]

/-- The status of a checked file. -/
def FileCheck.status (c : FileCheck) : Nat :=
  match c.result with
  | .ok r => statusOf r
  | .error _ => 1

/-- The errors of a checked file. -/
def FileCheck.errors (c : FileCheck) : Nat :=
  match c.result with
  | .ok r => r.errors
  | .error _ => 0

/-- The warnings of a checked file. -/
def FileCheck.warnings (c : FileCheck) : Nat :=
  match c.result with
  | .ok r => r.warnings
  | .error _ => 0

/-- The outcome of checking files: all reports in order, the worst status, and the totals. -/
def summarize (checks : List FileCheck) : Outcome where
  status := checks.foldl (fun worst c => worst.max c.status) 0
  stdout := decimalNat checks.length ++ ascii " files, "
    ++ decimalNat (checks.foldl (fun n c => n + c.errors) 0) ++ ascii " errors, "
    ++ decimalNat (checks.foldl (fun n c => n + c.warnings) 0) ++ ascii " warnings\n"
  stderr := checks.flatMap FileCheck.report
  lookedAt := checks.flatMap FileCheck.lookedAt

/-- The file extensions that are collected when none are named. -/
def defaultExts : List Bytes :=
  [ascii ".c", ascii ".h", ascii ".rpp"]

/-- The files that a target stands for: itself, or the files in a directory with one of the given
    extensions. -/
def filesOf (env : Environment) (exts : List Bytes) (target : Bytes) : Except Bytes (List Bytes) :=
  match env.files.entry target with
  | .file _ => .ok [target]
  | .directory names =>
    .ok ((names.filter fun entry => !entry.2 && exts.contains (Path.ext entry.1)).map fun entry =>
      Path.join target entry.1)
  | .absent why =>
    .error (ascii "cannot access " ++ target ++ ascii ": " ++ Files.View.failed "stat" target why)

/-- The files that all targets stand for, up to the first that cannot be used. -/
def collectFiles (env : Environment) (exts : List Bytes) : List Bytes → Except Bytes (List Bytes)
  | [] => .ok []
  | target :: rest =>
    match filesOf env exts target with
    | .error why => .error why
    | .ok files => (collectFiles env exts rest).map (files ++ ·)

/-- Report diagnostics for files. -/
def checkCommand (env : Environment) (o : Options) (arguments : List Bytes) : Outcome :=
  if arguments.isEmpty then
    ({} : Outcome).fail (ascii "usage: rpp check [-j jobs] <file | directory>...")
  else
    let looked : Outcome := { lookedAt := arguments }
    match collectFiles env (o.ext.getD defaultExts) arguments with
    | .error why => looked.fail why
    | .ok [] => looked.fail (ascii "no files to check")
    | .ok files =>
      let looked := { looked with
        lookedAt := arguments ++ files ++ if o.config.isEmpty then [] else [o.config] }
      match settingsOf env o with
      | .error why => looked.fail why
      | .ok settings =>
        let out := summarize (files.map (checkFile env o settings))
        { out with lookedAt := looked.lookedAt ++ out.lookedAt }

/-! ## The command line -/

/-- The overview of the program. -/
def overview (env : Environment) : Outcome :=
  { stdout := ascii (overviewText env.version) }

/-- The wording of the error for help on something that is no command. -/
def noHelpTopic (topic : Bytes) : Bytes :=
  ascii "No help topic for '" ++ topic ++ ascii "'"

/-- Help on the program or a command, or on the topic that the first argument names. -/
def showHelp (env : Environment) (level : Option Command) (arguments : List Bytes) : Outcome :=
  match arguments.headD [], level with
  | [], none => overview env
  | [], some command => { stdout := ascii (commandText command) }
  | topic, _ =>
    match commandAfter? level topic with
    | none => ({} : Outcome).fail (noHelpTopic topic)
    | some .help => { stdout := ascii (helpTopicText level) }
    | some command => { stdout := ascii (topicText command) }

/-- The arguments of a command as it sees them. When the first has the name of a flag that was given,
    an empty one is put before it. -/
def seenArguments (o : Options) (arguments : List Bytes) : List Bytes :=
  match arguments with
  | first :: _ => if o.given.any (·.hasName first) then [] :: arguments else arguments
  | [] => []

/-- A command line that cannot be read, after what was written before. -/
def usageFailure (before : Outcome) (e : UsageError) : Outcome :=
  { before with stderr := ascii "Incorrect Usage: " ++ e.message ++ ascii "\n\n" }.fail e.message

/-- Do what a command does. -/
def perform (env : Environment) (command : Command) (o : Options) (arguments : List Bytes) :
    Outcome :=
  match command with
  | .process => processCommand env o arguments
  | .macros => macrosCommand env o arguments
  | .check => checkCommand env o arguments
  | .help => showHelp env none arguments

/-- Carry out a command with the arguments behind its name. Help takes them as they are. -/
def runCommand (env : Environment) (command : Command) (o : Options) (arguments : List Bytes) :
    Outcome :=
  if command = .help then perform env .help o arguments
  else match parse (some command) o [] arguments with
    | .error e => usageFailure {} e
    | .ok p =>
      if p.options.help then showHelp env (some command) p.arguments
      else match p.arguments.head?.bind (commandAfter? (some command)) with
        | some _ => showHelp env (some command) (p.arguments.drop 1)
        | none => perform env command p.options (seenArguments p.options p.arguments)

/-- Run the program. Without a command, a file is processed; without anything, the overview is
    printed, and it is also printed when the flags before a command cannot be read. -/
def run (env : Environment) (arguments : List Bytes) : Outcome :=
  match parse none {} [] arguments with
  | .error e => usageFailure (overview env) e
  | .ok p =>
    if p.options.help then showHelp env none p.arguments
    else if p.options.version then { stdout := ascii (versionText env.version) }
    else match p.arguments with
      | [] => overview env
      | name :: rest =>
        match commandAfter? none name with
        | some command => runCommand env command p.options rest
        | none => perform env .process p.options (seenArguments p.options p.arguments)

end Preproc.CommandLine
