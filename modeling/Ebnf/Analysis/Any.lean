import Ebnf.Analysis.First

/-!
# ANY sets

An ANY stands for every terminal that has no other meaning at its place.  Taken
from its set are the terminals with which other arms begin, those that may
follow an option or iteration that it begins, and those with which a deletable
part in front of it begins.
-/

namespace Ebnf.Grammar

/-- The first ANY that can be reached in an outline without reading anything. -/
def frontAny (g : Grammar) : Outline → Option NodeId
  | .done => none
  | .leaf p next =>
    if (g.node p).kind = .any then some p
    else if g.leafDeletable p then g.frontAny (next ())
    else none
  | .group _ body next => g.frontAny (body ()) <|> g.frontAny (next ())
  | .arm p body down next =>
    g.frontAny (body ()) <|> g.frontAny (down ()) <|>
      if g.deletableNode p then g.frontAny (next ()) else none

/-- Takes terminals from the set of an ANY. -/
def narrow (g : Grammar) (any : NodeId) (set : BitSet) : Grammar :=
  g.modifyNode any fun n => { n with set := n.set.diff set }

/-- Where the contents of a node begin: the production of a nonterminal, or the body of a
structure. -/
def contents (g : Grammar) (p : NodeId) : Option NodeId :=
  match (g.node p).kind with
  | .nonterminal s => (g.sym s).production
  | _ => (g.node p).sub

/-- Takes from an ANY behind a deletable node what this node can begin with. -/
def narrowBehind (g : Grammar) (p : NodeId) : Grammar :=
  if g.deletableNode p then
    match g.frontAny (g.outline (g.node p).next) with
    | some any => g.narrow any (g.first (g.contents p))
    | none => g
  else g

/-- Takes from an ANY that begins an option or iteration what can follow. -/
def narrowGroup (g : Grammar) (p : NodeId) (body : Outline) : Grammar :=
  match g.frontAny body with
  | some any => g.narrow any (g.first (g.node p).next)
  | none => g

/-- Takes from an ANY that begins an arm what the later arms begin with, and what is `taken` by
earlier arms without one; the result also holds what is taken then. -/
def narrowArm (g : Grammar) (p : NodeId) (body : Outline) (taken : BitSet) : BitSet × Grammar :=
  match g.frontAny body with
  | some any => (taken, g.narrow any ((g.first (g.node p).down).union taken))
  | none => (taken.union (g.first (g.node p).sub), g)

mutual

/-- Narrows the ANY sets of an outline. -/
def narrowAnys (g : Grammar) : Outline → Grammar
  | .done => g
  | .leaf p next => (g.narrowBehind p).narrowAnys (next ())
  | .group p body next =>
    (((g.narrowAnys (body ())).narrowGroup p (body ())).narrowBehind p).narrowAnys (next ())
  | .arm p body down next =>
    let (taken, g) := (g.narrowAnys (body ())).narrowArm p (body ()) ∅
    ((g.narrowArms taken (down ())).narrowBehind p).narrowAnys (next ())

/-- Narrows the ANY sets of the further arms of an alternative. -/
def narrowArms (g : Grammar) (taken : BitSet) : Outline → Grammar
  | .arm p body down _ =>
    let (taken, g) := (g.narrowAnys (body ())).narrowArm p (body ()) taken
    g.narrowArms taken (down ())
  | _ => g

end

/-- Narrows the ANY sets of all productions, one after the other. -/
def computeAnys (g : Grammar) : Grammar :=
  g.nonterminals.foldl (fun g s => g.narrowAnys (g.outline (g.sym s).production)) g

end Ebnf.Grammar
