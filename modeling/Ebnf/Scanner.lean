import Ebnf.Machine.Merge
import Ebnf.Search

/-!
# Scanners

A scanner is the deterministic automaton that reads the tokens of a grammar.
The character sets of the shifts of a state are disjoint, and every shift leads
to a single state.  A scanner holds all it needs, so it does not refer to the
grammar any more.
-/

namespace Ebnf

/-- A transition to one state. -/
structure Shift where
  on : Trigger
  part : Part
  target : StateId
  deriving DecidableEq, Repr, Inhabited

/-- A state with its shifts. -/
structure ScannerState where
  number : StateId
  shifts : List Shift
  /-- the token recognised here -/
  endOf : Option SymbolId
  /-- entered by a context shift -/
  context : Bool
  deriving DecidableEq, Repr, Inhabited

/-- Whether the context of a token is complete here: it is entered by a context shift and left by
none. -/
def ScannerState.endsContext (s : ScannerState) : Bool :=
  s.context && s.shifts.all (·.part != .context)

/-- A deterministic automaton for the tokens of a grammar. -/
structure Scanner where
  states : Array ScannerState
  /-- members of the character classes -/
  classes : Array CharSet := #[]
  comments : List Comment := []
  /-- characters that may stand between tokens -/
  ignored : CharSet := ∅
  /-- texts that are tokens of their own -/
  literals : List Literal := []
  /-- tokens whose text is looked up among the literals -/
  classLiterals : List SymbolId := []
  /-- some token has a context -/
  hasContext : Bool := false
  deriving Inhabited

namespace Scanner

/-- The state in which every token begins. -/
def start : StateId := 0

/-- The state with an index. -/
def state (sc : Scanner) (s : StateId) : ScannerState :=
  sc.states.getD s default

/-- The characters that a trigger stands for. -/
def triggerSet (sc : Scanner) : Trigger → CharSet
  | .cls id => sc.classes.getD id ∅
  | .char c => .singleton c

/-- Whether a trigger stands for a character. -/
def triggers (sc : Scanner) (t : Trigger) (c : Nat) : Bool :=
  match t with
  | .cls id => (sc.classes.getD id ∅).contains c
  | .char d => d == c

/-- The shift of a state on a character. -/
def findShift (sc : Scanner) (s : StateId) (c : Char) : Option Shift :=
  (sc.state s).shifts.find? fun shift => sc.triggers shift.on c.toNat

/-- The state to which a text leads. -/
def run (sc : Scanner) : StateId → List Char → Option StateId
  | s, [] => some s
  | s, c :: cs => (sc.findShift s c).bind fun shift => sc.run shift.target cs

/-- The shifts taken along a text, with `none` at the end if there was no shift. -/
def walk (sc : Scanner) : StateId → List Char → List (Option Shift)
  | _, [] => []
  | s, c :: cs =>
    match sc.findShift s c with
    | none => [none]
    | some shift => some shift :: sc.walk shift.target cs

/-! ## From machines -/

/-- The scanner state of a machine state whose moves have one target each. -/
def ofMachineState (number : StateId) (st : MachineState) : ScannerState :=
  let shifts := st.moves.filterMap fun m => m.targets.min?.map fun target =>
    { on := m.on, part := m.part, target : Shift }
  { number
    shifts := shifts.filter (·.on.isClass) ++ shifts.filter (!·.on.isClass)
    endOf := st.endOf
    context := st.context }

/-- The scanner of a machine whose moves have one target each. -/
def ofMachine (m : Machine) : Scanner :=
  { states := m.states.mapIdx ofMachineState
    comments := m.comments
    hasContext := m.hasContext }

/-! ## Removing redundant states -/

/-- The states that can be reached from the start. -/
def reachable (sc : Scanner) : BitSet :=
  .ofList (explore (fun s => (sc.state s).shifts.map Shift.target)
    (allFresh sc.states.size) [start])

/-- Whether nothing distinguishes a state from others that recognise the same token. -/
def isPlainEnd (sc : Scanner) (s : StateId) : Bool :=
  let st := sc.state s
  s != start && st.endOf.isSome && st.shifts.isEmpty && !st.context

/-- The state that takes the place of `s`: the first of `ends`, the plain ends, with the same token,
if `s` is one. -/
def representative (sc : Scanner) (ends : List StateId) (s : StateId) : StateId :=
  if sc.isPlainEnd s then
    (ends.find? fun t => (sc.state t).endOf == (sc.state s).endOf).getD s
  else s

/-- Drops the states that cannot be reached, merges plain ends of the same token, and numbers the
others without gaps. -/
def dropRedundant (sc : Scanner) : Scanner :=
  let reachable := sc.reachable
  let used := (List.range sc.states.size).filter reachable.contains
  let ends := used.filter sc.isPlainEnd
  let kept := used.filter fun s => sc.representative ends s == s
  let renumber := fun s => kept.idxOf (sc.representative ends s)
  { sc with states := (kept.map fun s =>
      let st := sc.state s
      { st with
        number := renumber st.number
        shifts := st.shifts.map fun shift =>
          { shift with target := renumber shift.target } }).toArray }

/-! ## Combining shifts -/

/-- Joins to a shift all of a list that lead to the same state in the same way; the result also
holds the others. -/
def joinShifts (g : Grammar) (s : Shift) : List Shift → Shift × List Shift × Grammar
  | [] => (s, [], g)
  | t :: ts =>
    if s.target = t.target ∧ s.part = t.part then
      let (on, g) := g.triggerFor ((g.triggerSet s.on).union (g.triggerSet t.on))
      joinShifts g { s with on } ts
    else
      let (s, rest, g) := joinShifts g s ts
      (s, t :: rest, g)

/-- Joins all shifts that lead to the same state in the same way, beginning with each of the first
`fuel` ones that are left. -/
def mergeShiftsWithin (g : Grammar) : Nat → List Shift → List Shift × Grammar
  | 0, ss => (ss, g)
  | _, [] => ([], g)
  | fuel + 1, s :: ss =>
    let (s, rest, g) := joinShifts g s ss
    let (rest, g) := mergeShiftsWithin g fuel rest
    (s :: rest, g)

/-- Joins all shifts that lead to the same state in the same way. -/
def mergeShifts (g : Grammar) (ss : List Shift) : List Shift × Grammar :=
  mergeShiftsWithin g ss.length ss

/-- Joins the shifts of every state, one state after the other. -/
def mergeAllShifts (g : Grammar) : List ScannerState → List ScannerState × Grammar
  | [] => ([], g)
  | st :: sts =>
    let (shifts, g) := mergeShifts g st.shifts
    let (rest, g) := mergeAllShifts g sts
    ({ st with shifts } :: rest, g)

/-! ## Taking over the tables -/

/-- Takes what scanning needs from the grammar. -/
def withTables (sc : Scanner) (g : Grammar) : Scanner :=
  { sc with
    classes := g.classes.map CharClass.set
    ignored := g.ignored
    literals := g.literals.filter fun l => (g.sym l.sym).tokenKind == .literal
    classLiterals := g.terminals.filter fun s => (g.sym s).tokenKind == .clsLiteral }

end Scanner

/-- Makes the machine deterministic and small.  Tokens that cannot be told apart are reported. -/
def Draft.toScanner (d : Draft) : Scanner × Grammar :=
  let d := d.mergeStates
  let sc := (Scanner.ofMachine d.machine).dropRedundant
  let (states, g) := Scanner.mergeAllShifts d.grammar sc.states.toList
  ({ sc with states := states.toArray }.withTables g, g)

end Ebnf
