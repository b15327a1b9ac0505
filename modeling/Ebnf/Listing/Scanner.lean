import Ebnf.Scanner
import Ebnf.Text.Column

/-!
# Listings of a scanner

The states of a scanner with one line for each shift, and the character classes.
-/

namespace Ebnf.Listing

open Column

/-- A character: quoted if it is printable ASCII other than quote and backslash, else its number. -/
def charText (c : Nat) : String :=
  if 0x20 ≤ c ∧ c ≤ 0x7E ∧ c ≠ '\''.toNat ∧ c ≠ '\\'.toNat then
    "'" ++ String.singleton (Char.ofNat c) ++ "'"
  else toString c

/-- The ranges of a character set. -/
def setText (set : CharSet) : String :=
  " ".intercalate <| set.ranges.map fun r =>
    if r.lo < r.hi then charText r.lo ++ ".." ++ charText r.hi else charText r.lo

/-- What a shift is taken on, and where it leads. -/
def shiftText (g : Grammar) (shift : Shift) : String :=
  let on := match shift.on with
    | .cls id => (g.charClass id).name
    | .char c => charText c
  " " ++ on ++ " " ++ toString shift.target ++
    (if shift.part = .context then " context" else "")

/-- A state: its token and number, and its shifts below each other. -/
def stateText (g : Grammar) (st : ScannerState) : String :=
  let token := (st.endOf.map fun s => "E(" ++ (g.sym s).name ++ ")").getD ""
  left 14 token ++ number 3 st.number ++ ":" ++
    ("\n" ++ blanks 18).intercalate (st.shifts.map (shiftText g)) ++ "\n"

/-- All states of a scanner. -/
def states (sc : Scanner) (g : Grammar) : String :=
  String.join (sc.states.toList.map (stateText g))

/-- All character classes of a grammar. -/
def classes (g : Grammar) : String :=
  unlines (g.classes.toList.map fun c => left 10 c.name ++ ": " ++ setText c.set)

end Ebnf.Listing
