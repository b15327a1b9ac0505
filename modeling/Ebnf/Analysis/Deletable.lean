import Ebnf.Outline

/-!
# Deletable nonterminals

A nonterminal is deletable if its production can be passed without reading
anything.  This may depend on nonterminals further down the table, so the table
is gone through until nothing changes; each round but the last flags a
nonterminal, which bounds the number of rounds.
-/

namespace Ebnf.Grammar

/-- Flags a nonterminal whose production is deletable, given the flags of the others. -/
def flagDeletable (g : Grammar) (s : SymbolId) : Grammar :=
  let sym := g.sym s
  if !sym.deletable && sym.production.isSome && g.deletableChain sym.production then
    g.modifySym s fun sym => { sym with deletable := true }
  else g

/-- The deletable nonterminals. -/
def deletables (g : Grammar) : List SymbolId :=
  g.nonterminals.filter fun s => (g.sym s).deletable

/-- Goes through all nonterminals until nothing changes, at most `fuel` times. -/
def closeDeletable : Nat → Grammar → Grammar
  | 0, g => g
  | fuel + 1, g =>
    let g' := g.nonterminals.foldl flagDeletable g
    if g'.deletables.length = g.deletables.length then g' else closeDeletable fuel g'

/-- Flags all deletable nonterminals and warns about each of them. -/
def computeDeletable (g : Grammar) : Grammar :=
  let g := closeDeletable (g.nonterminals.length + 1) g
  g.reportAll (g.deletables.map fun s => .warningOn (g.sym s).line (.deletable (g.sym s).name))

end Ebnf.Grammar
