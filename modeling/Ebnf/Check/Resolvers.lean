import Ebnf.Analysis.First

/-!
# Placement of resolvers

A resolver decides a conflict.  It has to stand at the beginning of an arm,
option or iteration that is in conflict, and not behind an arm that takes the
same terminals.  All complaints are warnings.
-/

namespace Ebnf.Grammar

/-- A warning at the resolver `p`. -/
def misplacedAt (g : Grammar) (p : NodeId) (what : Misplacement) : Diagnostic :=
  match (g.node p).pos with
  | some pos => .warningAt pos (.resolver what)
  | none => .warningOn (g.node p).line (.resolver what)

/-- The resolver with which a chain begins. -/
def resolverAt? (g : Grammar) (p : Option NodeId) : Option NodeId :=
  p.filter fun p => (g.node p).kind == .resolver

/-- Complaints about the resolver that begins an option or iteration. -/
def groupResolver (g : Grammar) (cur : SymbolId) (p : NodeId) : List Diagnostic :=
  match g.resolverAt? (g.node p).sub with
  | none => []
  | some r =>
    if (g.first (g.node r).next).intersects (g.expected (g.node p).next cur) then []
    else [g.misplacedAt r .noConflict]

/-- Complaints about the resolver that begins an arm; `all` selects any arm without a resolver, and
`taken` one of the earlier arms. -/
def armResolver (g : Grammar) (cur : SymbolId) (p : NodeId) (all taken : BitSet) :
    List Diagnostic :=
  match g.resolverAt? (g.node p).sub with
  | none => []
  | some r =>
    let set := g.expected (g.node r).next cur
    (if set.intersects taken then [g.misplacedAt r .neverEvaluated] else []) ++
    (if set.intersects all then [] else [g.misplacedAt r .noConflict])

/-- What selects an arm or one of the earlier arms, of those without a resolver. -/
def takenWith (g : Grammar) (cur : SymbolId) (p : NodeId) (taken : BitSet) : BitSet :=
  match g.resolverAt? (g.node p).sub with
  | none => taken.union (g.expected (g.node p).sub cur)
  | some _ => taken

/-- What selects any arm of an alternative. -/
def selectingAny (g : Grammar) (cur : SymbolId) (arms : List NodeId) : BitSet :=
  arms.foldl (fun set p => set.union (g.selecting (g.node p).sub cur)) ∅

mutual

/-- Complaints about the resolvers of an outline; `allowed` says whether one may stand at its
beginning. -/
def misplacements (g : Grammar) (cur : SymbolId) (allowed : Bool) : Outline → List Diagnostic
  | .done => []
  | .leaf p next =>
    (if (g.node p).kind = .resolver ∧ !allowed then [g.misplacedAt p .noAlternative] else []) ++
      g.misplacements cur false (next ())
  | .group p body next =>
    g.groupResolver cur p ++ g.misplacements cur true (body ()) ++
      g.misplacements cur false (next ())
  | .arm p body down next =>
    let all := g.selectingAny cur (p :: (down ()).arms)
    g.armResolver cur p all ∅ ++ g.misplacements cur true (body ()) ++
      g.armMisplacements cur all (g.takenWith cur p ∅) (down ()) ++
      g.misplacements cur false (next ())

/-- Complaints about the resolvers of the further arms of an alternative. -/
def armMisplacements (g : Grammar) (cur : SymbolId) (all taken : BitSet) :
    Outline → List Diagnostic
  | .arm p body down _ =>
    g.armResolver cur p all taken ++ g.misplacements cur true (body ()) ++
      g.armMisplacements cur all (g.takenWith cur p taken) (down ())
  | _ => []

end

/-- Complaints about the resolvers of all productions. -/
def misplacedResolvers (g : Grammar) : List Diagnostic :=
  g.nonterminals.flatMap fun s => g.misplacements s false (g.outline (g.sym s).production)

end Ebnf.Grammar
