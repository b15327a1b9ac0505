import Ebnf.Diagnostic
import Ebnf.Text.Bytes
import Ebnf.Text.Column
import Ebnf.Text.WhiteSpace

/-!
# Reports

Diagnostics as text for people.  A diagnostic with a position shows the lines of
the grammar that it points at; positions are byte offsets into the grammar.
-/

namespace Ebnf.Report

open Column

/-! ## Lines of a source -/

/-- A line of the source, without its end. -/
structure SourceLine where
  /-- counted from 1 -/
  number : Nat
  /-- byte offset of its first character -/
  start : Nat
  /-- all characters, the line end included -/
  chars : List Char
deriving Inhabited

/-- The lines of a text: a line starts at the beginning and behind each line feed. -/
def linesFrom (number start : Nat) (read : List Char) : List Char → List SourceLine
  | [] => [⟨number, start, read.reverse⟩]
  | c :: cs =>
    if c = '\n' then
      let line := (c :: read).reverse
      ⟨number, start, line⟩ :: linesFrom (number + 1) (start + byteLength line) [] cs
    else linesFrom number start (c :: read) cs

/-- The lines of a source. -/
def sourceLines (source : String) : List SourceLine :=
  linesFrom 1 0 [] source.toList

/-- Index of the last line that starts at an offset or before it. -/
def lineIndex (ls : List SourceLine) (offset : Nat) : Nat :=
  (ls.takeWhile fun l => l.start ≤ offset).length - 1

/-- A character as it is shown: its byte offset in the line and its width in columns. -/
structure Cell where
  char : Char
  offset : Nat
  width : Nat

/-- Columns from one tab stop to the next. -/
def tabWidth : Nat := 4

/-- The cells of characters that begin at a byte offset and column of their line. -/
def cellsFrom (offset column : Nat) : List Char → List Cell
  | [] => []
  | c :: cs =>
    let width := if c = '\t' then tabWidth - column % tabWidth else 1
    ⟨c, offset, width⟩ :: cellsFrom (offset + c.utf8Size) (column + width) cs

namespace SourceLine

/-- The cells of a line as it is shown: line ends and NUL characters at its end are dropped. -/
def cells (l : SourceLine) : List Cell :=
  let dropped := l.chars.reverse.dropWhile fun c => c == '\n' || c == '\r' || c == '\x00'
  cellsFrom 0 0 dropped.reverse

/-- The line as it is shown: tabs become blanks. -/
def text (l : SourceLine) : String :=
  String.join <| l.cells.map fun cell =>
    if cell.char = '\t' then blanks cell.width else String.singleton cell.char

/-- Column of a byte offset of the line: one more than the characters that end before it. -/
def column (l : SourceLine) (offset : Nat) : Nat :=
  let before := (cellsFrom 0 0 l.chars).filter fun cell =>
    cell.offset + cell.char.utf8Size ≤ offset
  before.length + 1

/-- Whether only white space stands before a byte offset of the line. -/
def blankBefore (l : SourceLine) (offset : Nat) : Bool :=
  ((cellsFrom 0 0 l.chars).filter fun cell => cell.offset < offset).all
    fun cell => WhiteSpace.isWhite cell.char

end SourceLine

/-! ## Frames -/

/-- A character repeated. -/
def repeated (c : Char) (n : Nat) : String :=
  String.ofList (List.replicate n c)

/-- The beginning of a line without a number; `gutter` is the width of the numbers. -/
def margin (gutter : Nat) : String :=
  blanks gutter ++ " "

/-- A line of the source with its number; `frame` stands between border and text. -/
def numberedLine (gutter : Nat) (frame : String) (l : SourceLine) : String :=
  number gutter l.number ++ " │" ++ frame ++ " " ++ l.text

/-- Carets below the bytes from `beg` to `stop` of a line, of which the end counts as one more
character. -/
def carets (l : SourceLine) (beg stop : Nat) : String :=
  let size := byteLength (l.cells.map Cell.char)
  let lineEnd : Cell := ⟨'\x00', size, 1⟩
  String.join <| (l.cells ++ [lineEnd]).map fun cell =>
    if max beg cell.offset < min stop (cell.offset + cell.char.utf8Size) then
      repeated '^' cell.width
    else if cell.offset < stop then blanks cell.width
    else ""

/-- A rule as wide as the characters of a line that begin before a byte offset. -/
def rule (l : SourceLine) (offset : Nat) : String :=
  let before := l.cells.filter fun cell => cell.offset < offset
  repeated '─' (before.foldr (fun cell n => cell.width + n) 0)

/-- Lines for a label within one line of the source. -/
def singleLine (gutter : Nat) (l : SourceLine) (pos : Position) : List String :=
  let beg := pos.beg - l.start
  let stop := max (pos.stop - l.start) (beg + 1)
  [margin gutter ++ "│",
    numberedLine gutter "" l,
    margin gutter ++ "│ " ++ carets l beg stop,
    margin gutter ++ "│"]

/-- Lines for the line in which a label over several lines begins. -/
def openLines (gutter : Nat) (l : SourceLine) (pos : Position) : List String :=
  let beg := pos.beg - l.start
  if l.blankBefore beg then [numberedLine gutter " ╭" l]
  else [numberedLine gutter "  " l, margin gutter ++ "│ ╭" ++ rule l (beg + 1) ++ "^"]

/-- Lines for the line in which a label over several lines ends. -/
def closeLines (gutter : Nat) (l : SourceLine) (pos : Position) : List String :=
  [numberedLine gutter " │" l, margin gutter ++ "│ ╰" ++ rule l (pos.stop - l.start) ++ "^"]

/-- Lines between the two ends of a label that do not belong to it: one is shown, of more only
that they are left out. -/
def gapLines (gutter : Nat) : List SourceLine → List String
  | [] => []
  | [l] => [numberedLine gutter "  " l]
  | _ => [margin gutter ++ "·  "]

/-! ## Diagnostics -/

/-- Number of digits of a number. -/
def digits (n : Nat) : Nat :=
  (toString n).length

/-- A label in its source: the lines in which it begins and ends, and those between the two.  A
label is turned around if it ends in an earlier line than it begins in. -/
structure Extent where
  first : SourceLine
  between : List SourceLine
  last : SourceLine

namespace Extent

/-- The extent of a position in the lines of a source. -/
def of (ls : List SourceLine) (pos : Position) : Extent :=
  let i := lineIndex ls pos.beg
  let j := lineIndex ls pos.stop
  { first := ls.getD i default
    between := (ls.take (max i j)).drop (min i j + 1)
    last := ls.getD j default }

/-- Width of the line numbers. -/
def gutter (e : Extent) : Nat :=
  max (digits e.first.number) (digits e.last.number)

/-- The lines that a label shows, from the top of the source downwards. -/
def snippet (e : Extent) (pos : Position) : List String :=
  if e.first.number = e.last.number then singleLine e.gutter e.first pos
  else
    let opening := openLines e.gutter e.first pos
    let closing := closeLines e.gutter e.last pos
    let border := margin e.gutter ++ "│  "
    let inner :=
      if e.first.number < e.last.number then
        opening ++ e.between.map (numberedLine e.gutter " │") ++ closing
      else closing ++ gapLines e.gutter e.between ++ opening
    border :: inner ++ [border]

/-- The frame of a label: where it begins, and the lines that it shows. -/
def frame (name : String) (e : Extent) (pos : Position) : List String :=
  let l := e.first
  let place := name ++ ":" ++ toString l.number ++ ":" ++ toString (l.column (pos.beg - l.start))
  (margin e.gutter ++ "┌─ " ++ place) :: e.snippet pos

end Extent

/-- A diagnostic with an empty line behind it. -/
def diagnostic (name : String) (ls : List SourceLine) (d : Diagnostic) : List String :=
  let snippet := (d.label?.map fun pos => (Extent.of ls pos).frame name pos).getD []
  let gutter := (d.label?.map fun pos => (Extent.of ls pos).gutter).getD 0
  let notes := d.note?.toList.map fun note => margin gutter ++ "= " ++ note
  d.headline :: snippet ++ notes ++ [""]

/-- All diagnostics, and the number of errors. -/
def render (name source : String) (ds : Diagnostics) : String :=
  let ls := sourceLines source
  unlines (ds.flatMap (diagnostic name ls) ++ [toString ds.errors ++ " errors detected"])

end Ebnf.Report
