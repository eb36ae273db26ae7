import Preproc.Engine.State
import Preproc.Files.Tree

set_option autoImplicit false

/-! # The include path

Where an included file is looked for: beside the file that includes it, unless the name stands
between angle brackets, and then in a list of directories. The first place that holds a file
wins. -/

namespace Preproc.Files

/-- The places where an included file may be, in the order of the search. -/
def includeCandidates (dirs : List Bytes) (name includedFrom : Bytes) (system : Bool) :
    List Bytes :=
  if Path.isAbsolute name then [name]
  else
    let beside :=
      if system || includedFrom.isEmpty || includedFrom.head? = some (byte '<') then []
      else [Path.join (Path.dir includedFrom) name]
    beside ++ dirs.map (Path.join · name)

/-- Find an included file. A name that starts at the root is not searched for. -/
def findInclude (v : View) (dirs : List Bytes) : Engine.Includer :=
  fun name includedFrom system =>
    let load (path : Bytes) : Except Bytes (Bytes × Bytes) :=
      (v.read path).map fun contents => (Path.clean path, contents)
    if Path.isAbsolute name then load name
    else match (includeCandidates dirs name includedFrom system).find? v.isFile with
      | some path => load path
      | none => .error (ascii "no such file in the include path")

end Preproc.Files
