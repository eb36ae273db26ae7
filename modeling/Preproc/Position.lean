import Preproc.Text.Bytes

set_option autoImplicit false

/-! # Positions

A place in a source file as it is presented to the reader: a file name, a byte offset, a line and a
column. A line or column of zero means that it is not known. -/

namespace Preproc

/-- A place in a source file. -/
structure Position where
  file : Bytes := []
  offset : Int := 0
  line : Int := 0
  column : Int := 0
  deriving DecidableEq

namespace Position

/-- The name under which the file of a position is shown. -/
def shownFile (pos : Position) : Bytes :=
  if pos.file.isEmpty then ascii "<input>" else pos.file

/-- File and line of a position as text. -/
def showLine (pos : Position) : Bytes :=
  pos.shownFile ++ ascii ":" ++ decimal pos.line

/-- A position as text: file, line, and the column when it is known. -/
def render (pos : Position) : Bytes :=
  if 0 < pos.column then pos.showLine ++ ascii ":" ++ decimal pos.column else pos.showLine

end Position

/-- Something that is known of a place, such as the cause of an error. -/
structure Located (ε : Type) where
  pos : Position
  cause : ε
  deriving DecidableEq

end Preproc
