import Preproc.Text.Bytes

set_option autoImplicit false

/-! # Paths

Paths are texts whose parts are divided by slashes. A path is cleaned by lexical rules alone: empty
parts and `.` are dropped, and `..` takes the part before it away. -/

namespace Preproc.Path

/-- The byte that divides the parts of a path. -/
abbrev slash : UInt8 := 47

/-- Whether a path starts at the root. -/
def isAbsolute (path : Bytes) : Bool :=
  path.head? = some slash

/-- Take one more part into a clean list of parts, which is kept reversed. -/
def pushPart (absolute : Bool) (parts : List Bytes) (part : Bytes) : List Bytes :=
  if part.isEmpty || part = ascii "." then parts
  else if part = ascii ".." then
    match parts with
    | [] => if absolute then [] else [part]
    | last :: rest => if last = ascii ".." then part :: parts else rest
  else part :: parts

/-- The shortest path with the same meaning. -/
def clean (path : Bytes) : Bytes :=
  let absolute := isAbsolute path
  let parts := ((splitOn slash path).foldl (pushPart absolute) []).reverse
  let body := joinWith [slash] parts
  if absolute then slash :: body else if body.isEmpty then ascii "." else body

/-- Two paths in a row; an empty one is left out. -/
def join (a b : Bytes) : Bytes :=
  if a.isEmpty && b.isEmpty then []
  else if a.isEmpty then clean b
  else if b.isEmpty then clean a
  else clean (a ++ slash :: b)

/-- The directory of a path: what stands before its last slash. -/
def dir (path : Bytes) : Bytes :=
  clean (path.reverse.dropWhile (· != slash)).reverse

/-- The path that leads to the last part of a path, as it is written. -/
def parent (path : Bytes) : Bytes :=
  match (path.reverse.dropWhile (· != slash)).reverse with
  | [] => ascii "."
  | [_] => [slash]
  | lead => lead.dropLast

/-- The extension of a file name: what stands from its last point on. -/
def ext (name : Bytes) : Bytes :=
  let tail := name.reverse.takeWhile (· != byte '.')
  if tail.length = name.length then [] else byte '.' :: tail.reverse

end Preproc.Path
