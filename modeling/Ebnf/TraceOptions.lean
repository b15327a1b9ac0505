/-!
# Trace switches

A run can produce listings of what it computed.  Which ones is said by a text of
switches: letters of either case, or a digit for each letter.  Anything else in
the text is ignored.
-/

namespace Ebnf

/-- The listings that a run produces. -/
structure TraceOptions where
  /-- states of the scanner and character classes -/
  scanner : Bool := false
  /-- start and follow sets -/
  firstFollow : Bool := false
  /-- nodes of the productions -/
  nodes : Bool := false
  /-- sets of ANY and SYNC nodes -/
  anySync : Bool := false
  /-- the symbol table -/
  symbols : Bool := false
  /-- the lines on which symbols are used -/
  crossRef : Bool := false
  deriving DecidableEq, Repr, Inhabited

namespace TraceOptions

/-- Turns on the listing that a switch stands for. -/
def switch (flags : TraceOptions) (c : Char) : TraceOptions :=
  match c.toUpper with
  | 'A' | '0' => { flags with scanner := true }
  | 'F' | '1' => { flags with firstFollow := true }
  | 'G' | '2' => { flags with nodes := true }
  | 'J' | '4' => { flags with anySync := true }
  | 'S' | '6' => { flags with symbols := true }
  | 'X' | '7' => { flags with crossRef := true }
  | _ => flags

/-- Reads a text of switches. -/
def parse (s : String) : TraceOptions :=
  s.toList.foldl switch {}

end TraceOptions

end Ebnf
