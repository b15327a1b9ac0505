import Ebnf.Grammar

/-!
# Fragments

A fragment is a chain of nodes under construction: the node at which it is
entered and the nodes whose successor is still open.  Productions and token
structures are put together from fragments by sequence, alternative, option and
iteration, and closed at the end.
-/

namespace Ebnf

/-- A chain under construction. -/
structure Fragment where
  /-- first node -/
  entry : NodeId
  /-- nodes whose successor is still to be linked -/
  exits : List NodeId
  deriving DecidableEq, Repr, Inhabited

/-- The fragment of a single node. -/
def Fragment.ofNode (p : NodeId) : Fragment :=
  ⟨p, [p]⟩

namespace Grammar

/-! ## Nodes -/

/-- Appends a node. -/
def addNode (g : Grammar) (n : Node) : NodeId × Grammar :=
  (g.nodes.size, { g with nodes := g.nodes.push n })

/-- Appends a node and makes a fragment of it. -/
def addLeaf (g : Grammar) (n : Node) : Fragment × Grammar :=
  let (p, g) := g.addNode n
  (.ofNode p, g)

/-- Marks nodes as leaving the structure that encloses them. -/
def markLeaving (g : Grammar) (ps : List NodeId) : Grammar :=
  ps.foldl (fun g p => g.modifyNode p fun n => { n with leaves := true }) g

/-- Gives nodes a successor, or none. -/
def link (g : Grammar) (ps : List NodeId) (next : Option NodeId) : Grammar :=
  ps.foldl (fun g p => g.modifyNode p fun n => { n with next }) g

/-! ## Combining fragments -/

/-- Makes a fragment the first arm of an alternative. -/
def firstArm (g : Grammar) (f : Fragment) : Fragment × Grammar :=
  let (alt, g) := g.addNode { kind := .alt, sub := some f.entry, line := (g.node f.entry).line }
  (⟨alt, alt :: f.exits⟩, g.markLeaving f.exits)

/-- The last arm of the alternative that begins at `p`. -/
def lastArm (g : Grammar) : Nat → NodeId → NodeId
  | 0, p => p
  | fuel + 1, p =>
    match (g.node p).down with
    | some q => g.lastArm fuel q
    | none => p

/-- Appends a fragment as a further arm to an alternative. -/
def addArm (g : Grammar) (alts f : Fragment) : Fragment × Grammar :=
  let (alt, g) := g.addNode
    { kind := .alt, sub := some f.entry, leaves := true, line := (g.node f.entry).line }
  let g := g.markLeaving f.exits
  let last := g.lastArm g.nodes.size alts.entry
  (⟨alts.entry, alts.exits ++ alt :: f.exits⟩,
    g.modifyNode last fun n => { n with down := some alt })

/-- One fragment after the other. -/
def sequence (g : Grammar) (f₁ f₂ : Fragment) : Fragment × Grammar :=
  (⟨f₁.entry, f₂.exits⟩, g.link f₁.exits (some f₂.entry))

/-- A fragment any number of times. -/
def iteration (g : Grammar) (f : Fragment) : Fragment × Grammar :=
  let (iter, g) := g.addNode { kind := .iter, sub := some f.entry, line := (g.node f.entry).line }
  (.ofNode iter, (g.markLeaving f.exits).link f.exits (some iter))

/-- A fragment once or not at all. -/
def option (g : Grammar) (f : Fragment) : Fragment × Grammar :=
  let (opt, g) := g.addNode { kind := .opt, sub := some f.entry, line := (g.node f.entry).line }
  (⟨opt, opt :: f.exits⟩, g.markLeaving f.exits)

/-- Ends a complete production or token: nothing follows the open nodes. -/
def close (g : Grammar) (f : Fragment) : Grammar :=
  g.link f.exits none

/-! ## Character strings -/

/-- Appends a chain of character nodes behind the node `p`; the result is the last one. -/
def addChars (g : Grammar) (line : Nat) (p : NodeId) : List Char → NodeId × Grammar
  | [] => (p, g)
  | c :: cs =>
    let (q, g) := g.addNode { kind := .char c.toNat .main, line }
    addChars (g.modifyNode p fun n => { n with next := some q, leaves := false }) line q cs

/-- The chain of the characters of a quoted text. -/
def addString (g : Grammar) (quoted : String) (line : Nat) : Fragment × Grammar :=
  let (text, g) := g.readQuoted quoted
  match text.toList with
  | [] => (g.report (.errorOn line .emptyToken)).addLeaf { kind := .eps, line }
  | c :: cs =>
    let (p, g) := g.addNode { kind := .char c.toNat .main, line }
    let (last, g) := g.addChars line p cs
    (⟨p, [last]⟩, g)

end Grammar

end Ebnf
