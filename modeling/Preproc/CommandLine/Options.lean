import Preproc.CommandLine.Flag
import Preproc.Text.Blank
import Preproc.Text.Number
import Preproc.Text.Quoted

set_option autoImplicit false

/-! # Reading the command line

Arguments are read from left to right. What starts with a dash is a flag, perhaps with its value
behind an equals sign or in the next argument; the rest are the arguments of the command. The name of
a command hands everything after it to that command. -/

namespace Preproc.CommandLine

/-- What the flags say. A flag that was not given is `none` where that matters. -/
structure Options where
  defines : List Bytes := []
  undefines : List Bytes := []
  includeDirs : List Bytes := []
  warnings : List Bytes := []
  config : Bytes := []
  strict : Option Bool := none
  maxDepth : Option Int := none
  maxParams : Option Int := none
  maxMacros : Option Int := none
  lineMarkers : Option Bool := none
  logFormat : Bytes := ascii "plain"
  noColor : Bool := false
  output : Bytes := []
  help : Bool := false
  version : Bool := false
  format : Bytes := ascii "define"
  all : Bool := false
  jobs : Int := 1
  ext : Option (List Bytes) := none
  /-- The flags that were given. -/
  given : List Flag := []

/-- What is wrong with a command line. -/
inductive UsageError where
  | unknownFlag (name : Bytes)
  | missingValue (argument : Bytes)
  /-- A value that does not fit its flag, with the reason. -/
  | badValue (value name reason : Bytes)
  deriving DecidableEq

/-- The wording of an error. -/
def UsageError.message : UsageError → Bytes
  | unknownFlag name => ascii "flag provided but not defined: -" ++ name
  | missingValue argument => ascii "flag needs an argument: " ++ argument
  | badValue value name reason =>
    ascii "invalid value " ++ quoted value ++ ascii " for flag -" ++ name ++ ascii ": " ++ reason

/-! ## Values -/

/-- The value of a flag that takes a number of 64 bits. -/
def numberValue (text : Bytes) : Except Bytes Int :=
  let fail (reason : String) : Except Bytes Int :=
    .error (ascii "strconv.ParseInt: parsing " ++ quoted text ++ ascii ": " ++ ascii reason)
  match readSigned none text with
  | .ok n => .ok n
  | .error .malformed => fail "invalid syntax"
  | .error .outOfRange => fail "value out of range"

/-- The value of a switch. -/
def switchValue (text : Bytes) : Except Bytes Bool :=
  if ["1", "t", "T", "TRUE", "true", "True"].any (fun w => ascii w = text) then .ok true
  else if ["0", "f", "F", "FALSE", "false", "False"].any (fun w => ascii w = text) then .ok false
  else .error (ascii "parse error")

/-- The values of a list. -/
def listValue (text : Bytes) : List Bytes :=
  splitOn (byte ',') text

/-- Give a flag a value. A list goes on with the values it was given before; its default goes away
    with the first of them. -/
def Options.assign (o : Options) (flag : Flag) (text : Bytes) : Except Bytes Options :=
  match flag with
  | .define => .ok { o with defines := o.defines ++ listValue text }
  | .undefine => .ok { o with undefines := o.undefines ++ listValue text }
  | .includeDir => .ok { o with includeDirs := o.includeDirs ++ listValue text }
  | .warn => .ok { o with warnings := o.warnings ++ listValue text }
  | .config => .ok { o with config := text }
  | .strict => (switchValue text).map ({ o with strict := some · })
  | .maxDepth => (numberValue text).map ({ o with maxDepth := some · })
  | .maxParams => (numberValue text).map ({ o with maxParams := some · })
  | .maxMacros => (numberValue text).map ({ o with maxMacros := some · })
  | .lineMarkers => (switchValue text).map ({ o with lineMarkers := some · })
  | .logFormat => .ok { o with logFormat := text }
  | .noColor => (switchValue text).map ({ o with noColor := · })
  | .output => .ok { o with output := text }
  | .help => (switchValue text).map ({ o with help := · })
  | .version => (switchValue text).map ({ o with version := · })
  | .format => .ok { o with format := text }
  | .all => (switchValue text).map ({ o with all := · })
  | .jobs => (numberValue text).map ({ o with jobs := · })
  | .ext => .ok { o with ext := some (o.ext.getD [] ++ listValue text) }

/-- Give a flag a value and note that it was given. -/
def Options.set (o : Options) (flag : Flag) (text : Bytes) : Except Bytes Options :=
  { o with given := flag :: o.given }.assign flag text

/-! ## Arguments -/

/-- A byte that may begin the name of a flag after a single dash: the code of a letter. -/
def beginsFlag (b : UInt8) : Bool :=
  (byte 'a' ≤ b && b ≤ byte 'z') || (byte 'A' ≤ b && b ≤ byte 'Z') || b == 0xAA || b == 0xB5
    || b == 0xBA || (0xC0 ≤ b && b != 0xD7 && b != 0xF7)

/-- A command line that was read. -/
structure Parsed where
  options : Options
  arguments : List Bytes

/-- Read the arguments of a command, or of the program when no command was given. -/
def parse (command : Option Command) (o : Options) (positional : List Bytes) :
    List Bytes → Except UsageError Parsed
  | [] => .ok ⟨o, positional⟩
  | raw :: rest =>
    let done (more : List Bytes) : Except UsageError Parsed := .ok ⟨o, positional ++ more⟩
    let argument := trimBlank raw
    match argument with
    | [] => done []
    | first :: body =>
      if first ≠ byte '-' then
        if (commandAfter? command argument).isSome then done (raw :: rest)
        else parse command o (positional ++ [argument]) rest
      else match body with
        | [] => done [argument]
        | second :: tail =>
          if argument = ascii "--" then done rest
          else if second ≠ byte '-' && !beginsFlag second then done (raw :: rest)
          else
            let text := if second = byte '-' then tail else body
            let (name, attached) := match cut? (byte '=') text with
              | some (name, value) => (name, some value)
              | none => (text, none)
            match flag? command name with
            | none => .error (.unknownFlag name)
            | some flag =>
              if flag.info.kind = .switch then
                let value := if (attached.getD []).isEmpty then ascii "true" else attached.getD []
                match o.set flag value with
                | .error reason => .error (.badValue value name reason)
                | .ok o => parse command o positional rest
              else match attached with
                | some [] => .error (.missingValue argument)
                | some value =>
                  match o.set flag value with
                  | .error reason => .error (.badValue value name reason)
                  | .ok o => parse command o positional rest
                | none =>
                  match rest with
                  | [] => .error (.missingValue argument)
                  | value :: rest =>
                    match o.set flag value with
                    | .error reason => .error (.badValue value name reason)
                    | .ok o => parse command o positional rest

end Preproc.CommandLine
