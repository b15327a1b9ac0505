import Ebnf.Machine

/-!
# Adding comments to the machine

The delimiters of a comment are given as chains of nodes.  They may hold only
characters and classes with one member, and one or two of them.
-/

namespace Ebnf

namespace Grammar

/-- The nodes of a chain to its very end, at most `fuel` of them. -/
def chain (g : Grammar) : Nat → Option NodeId → List NodeId
  | 0, _ => []
  | _, none => []
  | fuel + 1, some p => p :: g.chain fuel (g.node p).next

/-- The character that a node adds to a delimiter, and what is wrong with the node. -/
def delimiterPart (g : Grammar) (p : NodeId) : Option Char × Option Cause :=
  match (g.node p).kind with
  | .char c _ => (Escape.scalar? c, none)
  | .cls id _ =>
    let set := (g.charClass id).set
    (set.first?.bind Escape.scalar?, if set.size = 1 then none else some .delimiterSet)
  | _ => (none, some .delimiterStructure)

/-- The delimiter that a chain spells.  A delimiter of a wrong length becomes a question mark. -/
def delimiter (g : Grammar) (p : NodeId) (line : Nat) : String × Grammar :=
  let parts := (g.chain g.nodes.size (some p)).map g.delimiterPart
  let chars := parts.filterMap Prod.fst
  let g := g.reportAll ((parts.filterMap Prod.snd).map (.errorOn line))
  if chars.length = 0 ∨ 2 < chars.length then ("?", g.report (.errorOn line .delimiterLength))
  else (String.ofList chars, g)

end Grammar

/-- Declares a kind of comment by the chains of its delimiters. -/
def Draft.addComment (d : Draft) (start stop : NodeId) (nested : Bool) : Draft :=
  let line := (d.grammar.node start).line
  let (startText, grammar) := d.grammar.delimiter start line
  let (stopText, grammar) := grammar.delimiter stop line
  let comments := d.machine.comments ++ [⟨startText, stopText, nested⟩]
  { machine := { d.machine with comments }, grammar }

end Ebnf
