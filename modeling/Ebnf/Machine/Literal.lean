import Ebnf.Machine

/-!
# Adding literals to the machine

A literal is a token that is declared by its text.  If the machine built so far
recognises the text as a class token, the literal borrows the state in which
this token ends, and the scanner looks the text up.  Otherwise it gets a path of
its own.
-/

namespace Ebnf

/-- Where a text leads, and the part that the last move belongs to; each move goes on in its first
target. -/
def Machine.follow (m : Machine) (g : Grammar) :
    StateId → Option Part → List Nat → Option (StateId × Option Part)
  | s, part, [] => some (s, part)
  | s, _, c :: cs => do
    let move ← m.findMove g s c
    let target ← move.targets.min?
    m.follow g target (some move.part) cs

namespace Draft

/-- Adds a path of new states from `s`; the result is its last state. -/
def addPath (d : Draft) (tok : SymbolId) (s : StateId) : List Nat → StateId × Draft
  | [] => (s, d)
  | c :: cs =>
    let (target, machine) := d.machine.addState {}
    ({ d with machine }.connect tok s (.char c) .main target).addPath tok target cs

/-- Where the text of a literal ends: in the final state to which it leads already, or at the end of
a path of its own. -/
def placeLiteral (d : Draft) (tok : SymbolId) (chars : List Nat) :
    StateId × Option Part × Draft :=
  let known := (d.machine.follow d.grammar Machine.start none chars).filter fun r =>
    (d.machine.state r.1).endOf.isSome
  match known with
  | some (s, part) => (s, part, d)
  | none =>
    let (s, d) := d.addPath tok Machine.start chars
    (s, none, d)

/-- Lets a literal end in the state `s`.  It may share the state with a class token, unless the end
of that token is cut off as its context. -/
def endLiteral (d : Draft) (tok : SymbolId) (s : StateId) (part : Option Part) : Draft :=
  match (d.machine.state s).endOf with
  | none =>
    { d with machine := d.machine.modifyState s fun st => { st with endOf := some tok } }
  | some matched =>
    if (d.grammar.sym matched).tokenKind = .fixed ∨ part = some .context then
      d.report (.errorOn (d.grammar.sym tok).line
        (.indistinguishable (d.grammar.sym tok).name (d.grammar.sym matched).name))
    else
      let g := d.grammar.modifySym matched fun s => { s with tokenKind := .clsLiteral }
      { d with grammar := g.modifySym tok fun s => { s with tokenKind := .literal } }

/-- Declares the quoted text as the token `tok`. -/
def addLiteral (d : Draft) (quoted : String) (tok : SymbolId) : Draft :=
  let (text, grammar) := d.grammar.readQuoted quoted
  let d := { d with grammar }
  let line := (grammar.sym tok).line
  if text.isEmpty then d.report (.errorOn line .emptyToken)
  else
    match grammar.addLiteral? text tok with
    | none => d.report (.errorOn line .literalDeclaredTwice)
    | some grammar =>
      let (s, part, d) := { d with grammar }.placeLiteral tok (text.toList.map Char.toNat)
      d.endLiteral tok s part

end Draft

end Ebnf
