import Preproc.Files.Path

set_option autoImplicit false

/-! # Files

What a program sees of the files around it: for each path a file, a directory, or the reason why
there is neither. `Tree` is such a view that is held in memory. -/

namespace Preproc.Files

/-- Why a path cannot be used. -/
inductive Error where
  | missing
  | notDirectory
  | isDirectory
  | denied
  /-- The path holds a zero byte. -/
  | malformed
  | tooLong
  deriving DecidableEq

/-- The wording of an error. -/
def Error.message : Error → Bytes
  | missing => ascii "no such file or directory"
  | notDirectory => ascii "not a directory"
  | isDirectory => ascii "is a directory"
  | denied => ascii "permission denied"
  | malformed => ascii "invalid argument"
  | tooLong => ascii "file name too long"

/-- What is found at a path. -/
inductive Entry where
  | file (contents : Bytes)
  /-- A directory with the names in it; each says whether it is a directory itself. -/
  | directory (names : List (Bytes × Bool))
  | absent (why : Error)

/-- The files that a program sees. -/
structure View where
  /-- What is found at a path. -/
  entry : Bytes → Entry

namespace View

/-- An operation on a path that failed. -/
def failed (operation : String) (path : Bytes) (why : Error) : Bytes :=
  ascii operation ++ ascii " " ++ path ++ ascii ": " ++ why.message

/-- The contents of a file, or why they cannot be read. -/
def read (v : View) (path : Bytes) : Except Bytes Bytes :=
  match v.entry path with
  | .file contents => .ok contents
  | .directory _ => .error (failed "read" path .isDirectory)
  | .absent why => .error (failed "open" path why)

/-- Whether there is a file at a path. -/
def isFile (v : View) (path : Bytes) : Bool :=
  match v.entry path with
  | .file _ => true
  | _ => false

/-- Why a file cannot be written at a path, if it cannot: it takes the place of a file, or is new in
    a directory. -/
def writeError (v : View) (path : Bytes) : Option Error :=
  match v.entry path with
  | .file _ => none
  | .directory _ => some .isDirectory
  | .absent .missing =>
    if path.getLast? = some Path.slash then some .isDirectory
    else match v.entry (Path.parent path) with
      | .directory _ => none
      | .file _ => some .notDirectory
      | .absent why => some why
  | .absent why => some why

end View

/-! ## Files in memory -/

/-- Files and directories by their parts, relative to the current directory. -/
structure Tree where
  files : List (List Bytes × Bytes)
  dirs : List (List Bytes)

namespace Tree

/-- The parts of a path that is already clean. -/
def partsOf (path : Bytes) : List Bytes :=
  (splitOn Path.slash path).filter fun part => !part.isEmpty && part ≠ ascii "."

/-- A tree from paths. -/
def ofPaths (files : List (Bytes × Bytes)) (dirs : List Bytes) : Tree :=
  ⟨files.map fun entry => (partsOf entry.1, entry.2), dirs.map partsOf⟩

/-- All paths in a tree, each with whether it is a directory itself. -/
def paths (t : Tree) : List (List Bytes × Bool) :=
  t.files.map (fun entry => (entry.1, false)) ++ t.dirs.map (·, true)

/-- The contents of the file at some parts. -/
def fileAt (t : Tree) (parts : List Bytes) : Option Bytes :=
  (t.files.find? (·.1 = parts)).map (·.2)

/-- Whether some parts lead to a directory. -/
def isDir (t : Tree) (parts : List Bytes) : Bool :=
  parts.isEmpty || t.paths.any fun entry =>
    parts.isPrefixOf entry.1 && (entry.2 || parts.length < entry.1.length)

/-- The names in a directory, in increasing order. -/
def namesIn (t : Tree) (parts : List Bytes) : List (Bytes × Bool) :=
  let names := (t.paths.filterMap fun entry =>
    if parts.isPrefixOf entry.1 then (entry.1.drop parts.length).head? else none).eraseDups
  (names.map fun name => (name, t.isDir (parts ++ [name]))).mergeSort
    fun a b => !bytesLt b.1 a.1

/-- The longest name of a file. -/
def nameLimit : Nat := 255

/-- The first length of a path that is too long. -/
def pathLimit : Nat := 4096

/-- Follow the parts of a path from a place, which is kept reversed and is `none` outside the tree.
    Only a directory can be left upward or downward, and nothing is known of what is outside. -/
def follow (t : Tree) : (place : Option (List Bytes)) → List Bytes →
    Except Error (Option (List Bytes))
  | place, [] => .ok (place.map List.reverse)
  | none, part :: rest =>
    if part.isEmpty || part = ascii "." || part = ascii ".." then t.follow none rest
    else .error .missing
  | some place, part :: rest =>
    if t.isDir place.reverse then
      if part.isEmpty || part = ascii "." then t.follow (some place) rest
      else if part = ascii ".." then
        t.follow (if place.isEmpty then none else some place.tail) rest
      else if nameLimit < part.length then .error .tooLong
      else t.follow (some (part :: place)) rest
    else if (t.fileAt place.reverse).isSome then .error .notDirectory
    else .error .missing

/-- What is found at a path that starts at the root: of what is there, only the root itself and the
    device that holds nothing are known. -/
def rootEntry (path : Bytes) : Entry :=
  let clean := Path.clean path
  if clean = ascii "/" then .directory []
  else if clean = ascii "/dev/null" then .file []
  else .absent .missing

/-- What is found at a path. -/
def entry (t : Tree) (path : Bytes) : Entry :=
  if path.contains 0 then .absent .malformed
  else if path.isEmpty then .absent .missing
  else if pathLimit ≤ path.length then .absent .tooLong
  else if Path.isAbsolute path then rootEntry path
  else match t.follow (some []) (splitOn Path.slash path) with
    | .error why => .absent why
    | .ok none => .directory []
    | .ok (some parts) =>
      match t.fileAt parts with
      | some contents => .file contents
      | none => if t.isDir parts then .directory (t.namesIn parts) else .absent .missing

/-- A tree as it is seen by a program. -/
def view (t : Tree) : View :=
  ⟨t.entry⟩

end Tree

end Preproc.Files
