import Preproc.Proofs.Engine.Effect
import Preproc.Proofs.Token.DirectiveLine

set_option autoImplicit false

/-! # Structured sources

A source in which groups nest is a tree: text lines, definitions, and groups with their branches.
This file gives such a tree its lines and, by recursion over the tree, its meaning: what it writes,
which macros there are after it, and which conditions are evaluated on the way. -/

namespace Preproc.Engine

open Source (Start SimpleLine startsDirective)

/-! ## Trees -/

/-- A line that is no directive. -/
structure TextLine where
  bytes : Bytes
  simple : SimpleLine bytes
  plain : startsDirective bytes = false

/-- The line that opens a group. -/
inductive Opening where
  | ifTrue (line : DirectiveLine .ifTrue)
  | ifdef (line : DirectiveLine .ifdef)
  | ifndef (line : DirectiveLine .ifndef)

mutual

/-- A sequence of lines and whole groups. -/
inductive Items where
  | nil
  | text (line : TextLine) (rest : Items)
  | define (line : DirectiveLine .define) (rest : Items)
  | undef (line : DirectiveLine .undef) (rest : Items)
  | group (opening : Opening) (body : Items) (branches : Branches) (rest : Items)

/-- What follows the first branch of a group, up to its end. -/
inductive Branches where
  | endif (line : DirectiveLine .endif)
  | otherwise (line : DirectiveLine .otherwise) (body : Items) (close : DirectiveLine .endif)
  | elif (line : DirectiveLine .elif) (body : Items) (rest : Branches)

end

/-- The bytes of an opening line. -/
def Opening.bytes : Opening → Bytes
  | ifTrue line => line.bytes
  | ifdef line => line.bytes
  | ifndef line => line.bytes

/-- The place of the keyword on an opening line that starts at `pos`. -/
def Opening.keywordPos (opening : Opening) (pos : Position) : Position :=
  match opening with
  | ifTrue line => line.keywordPos pos
  | ifdef line => line.keywordPos pos
  | ifndef line => line.keywordPos pos

mutual

/-- The lines of a sequence, in order. -/
def Items.lines : Items → List Bytes
  | .nil => []
  | .text line rest => line.bytes :: rest.lines
  | .define line rest => line.bytes :: rest.lines
  | .undef line rest => line.bytes :: rest.lines
  | .group opening body branches rest =>
    opening.bytes :: (body.lines ++ (branches.lines ++ rest.lines))

/-- The lines of the branches that follow the first, with the end of the group. -/
def Branches.lines : Branches → List Bytes
  | .endif line => [line.bytes]
  | .otherwise line body close => line.bytes :: (body.lines ++ [close.bytes])
  | .elif line body rest => line.bytes :: (body.lines ++ rest.lines)

end

mutual

/-- How deep the groups of a sequence nest. -/
def Items.depth : Items → Nat
  | .nil => 0
  | .text _ rest => rest.depth
  | .define _ rest => rest.depth
  | .undef _ rest => rest.depth
  | .group _ body branches rest => max (max body.depth branches.depth + 1) rest.depth

/-- How deep the groups inside the branches nest. -/
def Branches.depth : Branches → Nat
  | .endif _ => 0
  | .otherwise _ body _ => body.depth
  | .elif _ body rest => max body.depth rest.depth

end

/-- The source that a sequence stands for: each line ends in a newline. -/
def Items.source (items : Items) : Bytes :=
  Source.sourceOf items.lines

/-! ## Meaning -/

/-- One empty line for each of some lines. -/
def emptyLines (lines : List Bytes) : Bytes :=
  List.replicate lines.length newline

theorem emptyLines_cons (line : Bytes) (lines : List Bytes) :
    emptyLines (line :: lines) = [newline] ++ emptyLines lines := rfl

theorem emptyLines_append (lines lines' : List Bytes) :
    emptyLines (lines ++ lines') = emptyLines lines ++ emptyLines lines' := by
  rw [emptyLines, List.length_append, ← List.replicate_append_replicate]
  rfl

/-- What a piece of source comes to. -/
structure Meaning where
  written : Bytes
  /-- The macros after it. -/
  table : Macro.Table
  /-- The conditions that were evaluated, in order. -/
  evaluations : List Evaluation

namespace Meaning

/-- One piece of source and then another, which starts with the macros that the first one left. -/
def andThen (first : Meaning) (next : Macro.Table → Meaning) : Meaning :=
  let second := next first.table
  ⟨first.written ++ second.written, second.table, first.evaluations ++ second.evaluations⟩

/-- Lines that are not copied: each leaves an empty line. -/
def dropped (table : Macro.Table) (lines : List Bytes) : Meaning :=
  ⟨emptyLines lines, table, []⟩

/-- A branch and what follows it in its group: one of the two is read and the other dropped. -/
def choose (taken : Bool) (table : Macro.Table) (body rest : Macro.Table → Meaning)
    (bodyLines restLines : List Bytes) : Meaning :=
  if taken then (body table).andThen (dropped · restLines)
  else (dropped table bodyLines).andThen rest

end Meaning

/-- What the meaning of a line depends on besides the line itself and the macros. -/
structure Reading where
  limits : Macro.Limits
  /-- The name of the file. -/
  file : Bytes

namespace Reading

variable (r : Reading)

/-- The place of a line. -/
def position (start : Start) : Position :=
  { file := r.file, offset := start.offset, line := start.line, column := 1 }

theorem column_pos (start : Start) : 0 < (r.position start).column :=
  Int.one_pos

/-- The operands of a directive line that stands at `start`. -/
def operands {kw : Keyword} (line : DirectiveLine kw) (start : Start) : Cursor :=
  line.cursor (r.position start)

/-- The condition of a line that stands at `start`: the evaluation that it takes, and whether the
    condition is true. -/
def condition {kw : Keyword} (line : DirectiveLine kw) (start : Start) (table : Macro.Table) :
    List Evaluation × Bool :=
  conditionOutcome table (r.operands line start).remaining

/-- The test of an opening line. -/
def test (opening : Opening) (start : Start) (table : Macro.Table) : List Evaluation × Bool :=
  match opening with
  | .ifTrue line => r.condition line start table
  | .ifdef line => ([], definedOutcome table .ifdef (r.operands line start))
  | .ifndef line => ([], definedOutcome table .ifndef (r.operands line start))

/-- The macros after a definition at `start`. -/
def defined (line : DirectiveLine .define) (start : Start) (table : Macro.Table) : Macro.Table :=
  tableAfterDefine r.limits table (r.operands line start)

/-- The macros after `#undef` at `start`. -/
def undefined (line : DirectiveLine .undef) (start : Start) (table : Macro.Table) : Macro.Table :=
  tableAfterUndef table (r.operands line start)

mutual

/-- The meaning of a sequence that starts at `start` and finds the macros `table`. -/
def items (start : Start) (table : Macro.Table) : Items → Meaning
  | .nil => ⟨[], table, []⟩
  | .text line rest =>
    Meaning.andThen ⟨line.bytes ++ [newline], table, []⟩
      fun table => items (start.below line.bytes) table rest
  | .define line rest =>
    Meaning.andThen ⟨[newline], r.defined line start table, []⟩
      fun table => items (start.below line.bytes) table rest
  | .undef line rest =>
    Meaning.andThen ⟨[newline], r.undefined line start table, []⟩
      fun table => items (start.below line.bytes) table rest
  | .group opening body rest following =>
    let inside := start.below opening.bytes
    let after := inside.belowAll body.lines
    let test := r.test opening start table
    let group := Meaning.andThen ⟨[newline], table, test.1⟩ fun table =>
      .choose test.2 table (fun table => items inside table body)
        (fun table => branches after table rest) body.lines rest.lines
    group.andThen fun table => items (after.belowAll rest.lines) table following

/-- The meaning of the branches of a group in which no branch was taken so far. -/
def branches (start : Start) (table : Macro.Table) : Branches → Meaning
  | .endif _ => ⟨[newline], table, []⟩
  | .otherwise line body _ =>
    Meaning.andThen ⟨[newline], table, []⟩ fun table =>
      Meaning.andThen (items (start.below line.bytes) table body) fun table =>
        ⟨[newline], table, []⟩
  | .elif line body rest =>
    let inside := start.below line.bytes
    let test := r.condition line start table
    Meaning.andThen ⟨[newline], table, test.1⟩ fun table =>
      .choose test.2 table (fun table => items inside table body)
        (fun table => branches (inside.belowAll body.lines) table rest) body.lines rest.lines

end

end Reading

end Preproc.Engine
