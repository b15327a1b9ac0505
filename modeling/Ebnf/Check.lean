import Ebnf.Check.Lookahead
import Ebnf.Check.Productions
import Ebnf.Check.Resolvers

/-!
# All checks of a grammar

Missing, circular and endless productions make a grammar unusable.  Only a
usable grammar is checked for look-ahead conflicts and misplaced resolvers.
-/

namespace Ebnf.Grammar

/-- Runs a check: appends what it finds, and succeeds if it finds nothing. -/
def runCheck (g : Grammar) (check : Grammar → List Diagnostic) : Bool × Grammar :=
  let found := check g
  (found.isEmpty, g.reportAll found)

/-- Runs all checks; the result says whether the grammar is usable. -/
def checkAll (g : Grammar) : Bool × Grammar :=
  let (complete, g) := g.runCheck missingProductions
  let (_, g) := g.runCheck unreachableSymbols
  let (noncircular, g) := g.runCheck circularProductions
  let (terminating, g) := g.runCheck endlessSymbols
  let ok := complete && noncircular && terminating
  if ok then
    let (_, g) := g.runCheck misplacedResolvers
    let (_, g) := g.runCheck lookaheadConflicts
    (ok, g)
  else (ok, g)

end Ebnf.Grammar
