import Ebnf.Outline
import Ebnf.Search

/-!
# Start sets

The terminals that can start a chain are collected along the nodes that can be
reached without reading anything: into the contents of structures, into the
productions of nonterminals, and on behind whatever is deletable.  A nonterminal
whose start set is known already is not entered.
-/

namespace Ebnf.Grammar

/-- The nodes that can come next after `p` was begun and nothing was read. -/
def startEdges (g : Grammar) (p : NodeId) : List NodeId :=
  let n := g.node p
  let inside := match n.kind with
    | .nonterminal s => if (g.sym s).firstKnown then [] else (g.sym s).production.toList
    | .alt => n.sub.toList ++ n.down.toList
    | .iter | .opt => n.sub.toList
    | _ => []
  if g.deletableNode p then inside ++ n.next.toList else inside

/-- The terminals that a node by itself begins with. -/
def startTerminals (g : Grammar) (p : NodeId) : BitSet :=
  match (g.node p).kind with
  | .terminal s | .weak s => .singleton (g.sym s).number
  | .any => (g.node p).set
  | .nonterminal s => if (g.sym s).firstKnown then (g.sym s).first else ∅
  | _ => ∅

/-- The terminals that can start the chain from a node to the end of its production. -/
def first (g : Grammar) (p : Option NodeId) : BitSet :=
  (explore g.startEdges (allFresh g.nodes.size) p.toList).foldl
    (fun set p => set.union (g.startTerminals p)) ∅

/-- Computes the start set of a nonterminal. -/
def computeFirst (g : Grammar) (s : SymbolId) : Grammar :=
  let set := g.first (g.sym s).production
  g.modifySym s fun sym => { sym with first := set, firstKnown := true }

/-- Computes the start sets of all nonterminals, one after the other. -/
def computeFirsts (g : Grammar) : Grammar :=
  let cleared := g.nonterminals.foldl
    (fun g s => g.modifySym s fun sym => { sym with first := ∅, firstKnown := false }) g
  cleared.nonterminals.foldl computeFirst cleared

/-- The terminals that can come next at a node in the production of `cur`. -/
def expected (g : Grammar) (p : Option NodeId) (cur : SymbolId) : BitSet :=
  if g.deletableChain p then (g.first p).union (g.sym cur).follow else g.first p

/-- Whether a chain begins with a resolver. -/
def beginsWithResolver (g : Grammar) (p : Option NodeId) : Bool :=
  p.any fun p => (g.node p).kind == .resolver

/-- The terminals that select a chain: those that can come next, or none if a resolver decides. -/
def selecting (g : Grammar) (p : Option NodeId) (cur : SymbolId) : BitSet :=
  if g.beginsWithResolver p then ∅ else g.expected p cur

end Ebnf.Grammar
