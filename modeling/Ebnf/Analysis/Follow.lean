import Ebnf.Analysis.First

/-!
# Follow sets

A reference to a nonterminal is followed by whatever can start behind it.  If
all behind it is deletable, it is also followed by what follows the nonterminal
in whose production it stands.  Follow sets are inherited along these
dependencies, which may be cyclic: the nonterminals are completed one after the
other, each by a depth-first search that adds sets on the way back.
-/

namespace Ebnf.Grammar

/-- All nodes that a node is linked to. -/
def edges (g : Grammar) (p : NodeId) : List NodeId :=
  let n := g.node p
  n.sub.toList ++ n.down.toList ++ n.next.toList

/-- The nodes of the productions of some nonterminals, each with its nonterminal; `fresh` marks
the nodes not met in another production. -/
def nodesOf (g : Grammar) (fresh : Array Bool) : List SymbolId → List (SymbolId × NodeId)
  | [] => []
  | s :: ss =>
    let met := explore g.edges fresh (g.sym s).production.toList
    met.map (s, ·) ++ g.nodesOf (met.foldl visit fresh) ss

/-- The nodes of all productions, each with the nonterminal in whose production it stands. -/
def productionNodes (g : Grammar) : List (SymbolId × NodeId) :=
  g.nodesOf (allFresh g.nodes.size) g.nonterminals

/-- Forgets all follow sets; the end of the input follows the start symbol. -/
def clearFollow (g : Grammar) : Grammar :=
  let g := g.nonterminals.foldl
    (fun g s => g.modifySym s fun sym => { sym with follow := ∅, inherits := ∅ }) g
  match g.start with
  | some s => g.modifySym s fun sym => { sym with follow := sym.follow.insert (g.sym g.eof).number }
  | none => g

/-- Adds what follows the node `p`, if it refers to a nonterminal, in the production of `cur`. -/
def followNode (g : Grammar) (cur : SymbolId) (p : NodeId) : Grammar :=
  match (g.node p).kind with
  | .nonterminal s =>
    let next := (g.node p).next
    let set := g.first next
    let number := (g.sym cur).number
    let passes := g.deletableChain next
    g.modifySym s fun sym =>
      { sym with
        follow := sym.follow.union set
        inherits := if passes then sym.inherits.insert number else sym.inherits }
  | _ => g

/-- What follows `t`, the nonterminal with the number `i`, also follows `s`.  If `s` is the symbol to
be completed, it need not inherit from `t` any more. -/
def inheritFrom (g : Grammar) (cur s : SymbolId) (i : Nat) (t : SymbolId) : Grammar :=
  let set := (g.sym t).follow
  g.modifySym s fun sym =>
    { sym with
      follow := sym.follow.union set
      inherits := if s = cur then sym.inherits.erase i else sym.inherits }

/-- Adds to the follow set of `s` those of the nonterminals from which it inherits, completed in the
same way before; `fresh` marks the numbers of the nonterminals that are not visited yet, at most
`fuel` of them, and `nts` are the nonterminals by number. -/
def complete (nts : Array SymbolId) (cur : SymbolId) :
    Nat → SymbolId → Grammar × Array Bool → Grammar × Array Bool
  | 0, _, state => state
  | fuel + 1, s, (g, fresh) =>
    if isFresh fresh (g.sym s).number then
      (List.range nts.size).foldl (fun state i =>
        if (state.1.sym s).inherits.contains i then
          let t := nts.getD i 0
          let (g, fresh) := complete nts cur fuel t state
          (g.inheritFrom cur s i t, fresh)
        else state) (g, visit fresh (g.sym s).number)
    else (g, fresh)

/-- Computes the follow sets of all nonterminals. -/
def computeFollows (g : Grammar) : Grammar :=
  let direct := g.productionNodes.foldl (fun g entry => g.followNode entry.1 entry.2) g.clearFollow
  let nts := direct.nonterminals.toArray
  direct.nonterminals.foldl
    (fun g s => (complete nts s nts.size s (g, allFresh nts.size)).1) direct

end Ebnf.Grammar
