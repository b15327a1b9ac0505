import Ebnf.Analysis.Any
import Ebnf.Analysis.Deletable
import Ebnf.Analysis.Sync

/-!
# Symbol sets

The sets on which the checks and the parser rest, in the order in which they
depend on each other.
-/

namespace Ebnf.Grammar

/-- Computes deletability, start sets, ANY sets, follow sets and synchronisation sets. -/
def computeSets (g : Grammar) : Grammar :=
  g.computeDeletable.computeFirsts.computeAnys.computeFollows.computeSyncs

end Ebnf.Grammar
