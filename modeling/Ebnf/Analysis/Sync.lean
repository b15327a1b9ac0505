import Ebnf.Analysis.Follow

/-!
# Synchronisation sets

After an error a parser skips terminals up to the next SYNC.  There it goes on
with any terminal that can come next, and it stops at the end of the input.
-/

namespace Ebnf.Grammar

/-- Computes the set of the node `p`, if it is a SYNC, in the production of `cur`: what can come
next, and the end of the input. -/
def syncNode (g : Grammar) (cur : SymbolId) (p : NodeId) : Grammar :=
  if (g.node p).kind = .sync then
    let set := (g.expected (g.node p).next cur).insert (g.sym g.eof).number
    let g := g.modifyNode p fun n => { n with set }
    { g with syncUnion := g.syncUnion.union set }
  else g

/-- Computes the sets of all SYNC nodes and their union. -/
def computeSyncs (g : Grammar) : Grammar :=
  g.productionNodes.foldl (fun g entry => g.syncNode entry.1 entry.2)
    { g with syncUnion := .singleton (g.sym g.eof).number }

end Ebnf.Grammar
