/-!
# Columns

Texts filled up with blanks to a width, which counts characters.  A longer text
stays as it is.
-/

namespace Ebnf.Column

/-- A text of blanks. -/
def blanks (n : Nat) : String :=
  String.ofList (List.replicate n ' ')

/-- A text at the left of a column. -/
def left (width : Nat) (s : String) : String :=
  s ++ blanks (width - s.length)

/-- A text at the right of a column. -/
def right (width : Nat) (s : String) : String :=
  blanks (width - s.length) ++ s

/-- A number at the right of a column. -/
def number (width : Nat) (n : Nat) : String :=
  right width (toString n)

/-- Lines, each with its end. -/
def unlines (ls : List String) : String :=
  String.join (ls.map (· ++ "\n"))

end Ebnf.Column
