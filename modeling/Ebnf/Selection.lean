import Ebnf.Analysis.First

/-!
# How a parser selects

What an emitter of parsers needs beyond the symbol sets.  A test for a few
terminals compares with each of them; a test for more looks up a set, which is
registered once.  An alternative with many arms is decided by a switch, if one
terminal decides it.
-/

namespace Ebnf

/-- How a parser tests whether the next terminal is in a set. -/
inductive Test
  /-- the set is empty -/
  | never
  /-- compare with each terminal -/
  | oneOf (terminals : List SymbolId)
  /-- look up a registered set -/
  | inSet (index : Nat)
  deriving DecidableEq, Repr

/-- Sets with more terminals are registered. -/
def maxCompared : Nat := 3

/-- Registered sets of terminals.  The first one is the union of all synchronisation sets. -/
structure TestSets where
  sync : BitSet
  registered : List BitSet := []
  deriving DecidableEq, Repr, Inhabited

namespace TestSets

/-- The sets with which every parser starts. -/
def ofGrammar (g : Grammar) : TestSets :=
  { sync := g.syncUnion }

/-- All sets by index. -/
def toList (ts : TestSets) : List BitSet :=
  ts.sync :: ts.registered

/-- The index of a set, which is registered if it is not yet. -/
def register (ts : TestSets) (set : BitSet) : Nat × TestSets :=
  match ts.registered.findIdx? (· == set) with
  | some i => (i + 1, ts)
  | none => (ts.registered.length + 1, { ts with registered := ts.registered ++ [set] })

/-- The test for a set of terminal numbers. -/
def test (ts : TestSets) (g : Grammar) (set : BitSet) : Test × TestSets :=
  if set.size = 0 then (.never, ts)
  else if set.size ≤ maxCompared then (.oneOf (set.toList.map g.terminal), ts)
  else
    let (i, ts) := ts.register set
    (.inSet i, ts)

end TestSets

namespace Grammar

/-- Whether each arm is selected by terminals of its own; `taken` selects an earlier arm.  No arm
may begin with a resolver. -/
def armsDisjoint (g : Grammar) (cur : SymbolId) (taken : BitSet) : List NodeId → Bool
  | [] => true
  | p :: ps =>
    let set := g.selecting (g.node p).sub cur
    !taken.intersects set && !g.beginsWithResolver (g.node p).sub &&
      g.armsDisjoint cur (taken.union set) ps

/-- Alternatives with more arms are decided by a switch. -/
def maxBranches : Nat := 5

/-- Whether the alternative at `p` in the production of `cur` is decided by a switch: it has many
arms, and one terminal decides between them. -/
def suitsSwitch (g : Grammar) (p : NodeId) (cur : SymbolId) : Bool :=
  let arms := (g.outline (some p)).arms
  decide (maxBranches < arms.length) && g.armsDisjoint cur ∅ arms

end Grammar

end Ebnf
