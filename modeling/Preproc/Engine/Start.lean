import Preproc.Engine.Process

set_option autoImplicit false

/-! # The start of a run

The macros that are always there, and those that the settings ask for. -/

namespace Preproc.Engine

/-- The place of definitions that are not in any file. -/
def commandLine : Position :=
  { file := ascii "<command-line>", line := 1, column := 1 }

/-- Define a macro from a text, as a directive would. -/
def State.defineText (h : Host) (s : State) (text : Bytes) :
    State × Except (Located Macro.Refusal) Macro.Definition :=
  s.define h (Cursor.ofText commandLine text)

/-- Define a macro of a given origin from a text, whatever is there. -/
def State.defineTextAs (h : Host) (s : State) (origin : Macro.Origin) (text : Bytes) :
    State × Except (Located Macro.Refusal) Macro.Definition :=
  s.defineAs h origin (Cursor.ofText commandLine text)

/-- Drop every macro, group and file. -/
def State.clear (s : State) : State :=
  { s with table := s.table.clear, branches := s.branches.reset, files := [] }

/-- The macros without a body that are always there and that directives cannot change. -/
def lockedNames : List Bytes :=
  [ascii "__FILE__", ascii "__LINE__"]

/-- Install a macro without a body that directives cannot change. -/
def State.lockName (s : State) (name : Bytes) : State :=
  let d : Macro.Definition :=
    { name, definedAt := { file := ascii "<builtin>" }, origin := .locked }
  let (table, ceiling) := s.table.definePrivileged d
  { s with table }.ceiling ceiling

/-- Make the definitions that the settings ask for, up to the first that is refused. -/
def State.applyDefines (h : Host) : State → List Bytes → State × Option Failure
  | s, [] => (s, none)
  | s, text :: rest =>
    match Settings.Define.ofText text with
    | .error e => (s, some (.plain e.message))
    | .ok d =>
      match s.defineText h (d.head ++ ascii " " ++ d.body) with
      | (s, .ok _) => s.applyDefines h rest
      | (s, .error e) => (s, some (.wrapped (ascii "-D" ++ text) (refusalFailure e)))

/-- Drop the definitions that the settings do not want. -/
def State.applyUndefines (s : State) (names : List Bytes) : State :=
  names.foldl (fun s name =>
    { s with table := (s.table.undefinePrivileged? name).getD s.table }) s

/-- The state before anything is defined. -/
def Host.emptyState (h : Host) : State where
  table := .empty h.settings.maxMacros h.settings.strict
  branches := { max := h.settings.maxDepth }
  reporter := { mask := h.settings.warnings }

/-- The built-in macros that directives can change, each with its origin and text. -/
def builtins : List (Macro.Origin × Bytes) :=
  [(.predefined, ascii "__RPP__ 1"), (.extension, ascii "__RPP_EXTENSIONS__ 1")]

/-- Install the built-in macros. -/
def Host.builtinState (h : Host) : State :=
  builtins.foldl (fun s entry => (s.defineTextAs h entry.1 entry.2).1)
    (lockedNames.foldl State.lockName h.emptyState)

/-- The state before the first run. Settings that are not valid, and definitions that are refused,
    are failures; the state then shows what was reported before. -/
def Host.start (h : Host) : State × Option Failure :=
  match h.settings.validate with
  | .error e => (h.emptyState, some (.plain e.message))
  | .ok () =>
    match h.builtinState.applyDefines h h.settings.defines with
    | (s, some failure) => (s, some failure)
    | (s, none) => (s.applyUndefines h.settings.undefines, none)

end Preproc.Engine
