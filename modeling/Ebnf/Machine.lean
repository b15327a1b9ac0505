import Ebnf.Outline

/-!
# Token machines

A token machine is the nondeterministic automaton that collects all token
declarations of a grammar.  State 0 is where every token begins.  A move is taken
on a character or on a character class and may lead to several states; among the
moves of a state those on classes stand in front.
-/

namespace Ebnf

/-- What a move is taken on. -/
inductive Trigger
  | cls (id : ClassId)
  | char (c : Nat)
  deriving DecidableEq, Repr, Inhabited

/-- Whether the move is taken on a character class. -/
def Trigger.isClass : Trigger → Bool
  | cls _ => true
  | char _ => false

namespace Grammar

/-- The characters that a trigger stands for. -/
def triggerSet (g : Grammar) : Trigger → CharSet
  | .cls id => (g.charClass id).set
  | .char c => .singleton c

/-- Whether a trigger stands for a character. -/
def triggers (g : Grammar) (t : Trigger) (c : Nat) : Bool :=
  match t with
  | .cls id => (g.charClass id).set.contains c
  | .char d => d == c

/-- A trigger for a set of characters: the single member, or a class that is declared if there is
none with these members. -/
def triggerFor (g : Grammar) (set : CharSet) : Trigger × Grammar :=
  match set.first?, set.size with
  | some c, 1 => (.char c, g)
  | _, _ =>
    let (id, g) := g.internClass set
    (.cls id, g)

/-- Whether two triggers share a character. -/
def overlap (g : Grammar) (t u : Trigger) : Bool :=
  match t, u with
  | .char c, u => g.triggers u c
  | t, .char c => g.triggers t c
  | .cls a, .cls b => (g.charClass a).set.intersects (g.charClass b).set

end Grammar

/-- A transition to any of several states. -/
structure Move where
  on : Trigger
  part : Part
  targets : BitSet
  deriving DecidableEq, Repr, Inhabited

/-- Lets a move also do what another one does.  It is a context move if one of them is. -/
def Move.absorb (m other : Move) : Move :=
  { m with
    targets := m.targets.union other.targets
    part := if other.part = .context then .context else m.part }

/-- Adds a move: on a class behind the leading moves on classes, on a character at the end. -/
def addMove (ms : List Move) (m : Move) : List Move :=
  if m.on.isClass then ms.takeWhile (·.on.isClass) ++ m :: ms.dropWhile (·.on.isClass)
  else ms ++ [m]

/-- A state with its moves. -/
structure MachineState where
  moves : List Move := []
  /-- the token recognised here -/
  endOf : Option SymbolId := none
  /-- entered by a context move -/
  context : Bool := false
  deriving DecidableEq, Repr, Inhabited

/-- Delimiters of a kind of comment. -/
structure Comment where
  start : String
  stop : String
  nested : Bool
  deriving DecidableEq, Repr, Inhabited

/-- The automaton of all tokens declared so far. -/
structure Machine where
  states : Array MachineState
  comments : List Comment := []
  /-- some token has a context -/
  hasContext : Bool := false
  deriving Inhabited

namespace Machine

/-- The machine without tokens. -/
def initial : Machine :=
  { states := #[{}] }

/-- The state in which every token begins. -/
def start : StateId := 0

/-- The state with an index. -/
def state (m : Machine) (s : StateId) : MachineState :=
  m.states.getD s default

/-- Changes one state. -/
def modifyState (m : Machine) (s : StateId) (f : MachineState → MachineState) : Machine :=
  { m with states := m.states.modify s f }

/-- Appends a state. -/
def addState (m : Machine) (s : MachineState) : StateId × Machine :=
  (m.states.size, { m with states := m.states.push s })

/-- The first move of a state that is taken on a character. -/
def findMove (m : Machine) (g : Grammar) (s : StateId) (c : Nat) : Option Move :=
  (m.state s).moves.find? fun move => g.triggers move.on c

/-- The moves taken along a text, each time going on in the first of the states that the move leads
to; `none` at the end if there was no move. -/
def walk (m : Machine) (g : Grammar) : StateId → List Nat → List (Option Move)
  | _, [] => []
  | s, c :: cs =>
    match m.findMove g s c with
    | none => [none]
    | some move =>
      some move ::
        match move.targets.min? with
        | some t => m.walk g t cs
        | none => []

end Machine

/-- A token machine together with the grammar whose tokens it recognises. -/
structure Draft where
  machine : Machine
  grammar : Grammar
  deriving Inhabited

namespace Draft

/-- Appends a diagnostic. -/
def report (d : Draft) (diag : Diagnostic) : Draft :=
  { d with grammar := d.grammar.report diag }

/-- Appends a state in which a token is recognised. -/
def addFinal (d : Draft) (tok : SymbolId) : StateId × Draft :=
  let (s, machine) := d.machine.addState { endOf := some tok }
  (s, { d with machine })

/-- Adds a move of a token.  A move on a class makes it a class token. -/
def connect (d : Draft) (tok : SymbolId) (source : StateId) (on : Trigger) (part : Part)
    (target : StateId) : Draft :=
  let grammar := if on.isClass then d.grammar.modifySym tok fun s => { s with tokenKind := .cls }
    else d.grammar
  let machine := d.machine.modifyState source fun s =>
    { s with moves := addMove s.moves ⟨on, part, .singleton target⟩ }
  { machine := { machine with hasContext := machine.hasContext || part == .context }, grammar }

end Draft

end Ebnf
