import Ebnf.Analysis.First

/-!
# Look-ahead conflicts

A parser decides by the next terminal.  It cannot if two arms of an alternative
begin with the same terminal, or if an option or iteration begins with a
terminal that may also follow it.  All conflicts are warnings.
-/

namespace Ebnf.Grammar

/-- A warning about the production of `cur`. -/
def conflictOn (g : Grammar) (cur : SymbolId) (line : Nat) (what : Conflict) : Diagnostic :=
  .warningOn line (.conflict (g.sym cur).name what)

/-- A warning for each terminal in both sets. -/
def overlapOn (g : Grammar) (cur : SymbolId) (line : Nat) (what : String → Conflict)
    (s t : BitSet) : List Diagnostic :=
  (s.inter t).toList.map fun n => g.conflictOn cur line (what (g.sym (g.terminal n)).name)

/-- Conflicts of an option or iteration by itself. -/
def groupConflicts (g : Grammar) (cur : SymbolId) (p : NodeId) (body : Outline) :
    List Diagnostic :=
  let n := g.node p
  if g.deletableOutline body then [g.conflictOn cur n.line .deletableContents]
  else g.overlapOn cur n.line .successor (g.selecting n.sub cur) (g.expected n.next cur)

mutual

/-- Conflicts of an outline in the production of `cur`. -/
def conflicts (g : Grammar) (cur : SymbolId) : Outline → List Diagnostic
  | .done => []
  | .leaf p next =>
    (if (g.node p).kind = .any ∧ (g.node p).set.isEmpty then
      [g.conflictOn cur (g.node p).line .emptyAny] else []) ++ g.conflicts cur (next ())
  | .group p body next =>
    g.groupConflicts cur p (body ()) ++ g.conflicts cur (body ()) ++ g.conflicts cur (next ())
  | .arm p body down next =>
    g.conflicts cur (body ()) ++
      g.armConflicts cur (g.node p).line (g.selecting (g.node p).sub cur) (down ()) ++
      g.conflicts cur (next ())

/-- Conflicts of the further arms of an alternative; `taken` selects an earlier arm. -/
def armConflicts (g : Grammar) (cur : SymbolId) (line : Nat) (taken : BitSet) :
    Outline → List Diagnostic
  | .arm p body down _ =>
    let set := g.selecting (g.node p).sub cur
    g.overlapOn cur line .alternatives taken set ++ g.conflicts cur (body ()) ++
      g.armConflicts cur line (taken.union set) (down ())
  | _ => []

end

/-- Conflicts of all productions. -/
def lookaheadConflicts (g : Grammar) : List Diagnostic :=
  g.nonterminals.flatMap fun s => g.conflicts s (g.outline (g.sym s).production)

end Ebnf.Grammar
