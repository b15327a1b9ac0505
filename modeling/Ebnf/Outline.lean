import Ebnf.Fragment
import Ebnf.Search

/-!
# Outlines

The outline of a chain is the nested structure that one sees from its first node
without leaving the structure that encloses it: a tree of leaves, options,
iterations and alternatives.  Walks that stop where a node leaves its structure
are recursive functions on outlines.

Chains may share nodes, and an outline repeats what is shared.  Its parts are
therefore given on demand: a walk that passes over the contents of a structure
does not build them.  `Grammar.nodesWithin` lists the nodes of an outline without
repetitions.

A chain is *deletable* if it can be passed without reading anything.
-/

namespace Ebnf

/-- The nested view of a chain of nodes. -/
inductive Outline
  /-- end of the chain -/
  | done
  /-- a node without contents -/
  | leaf (p : NodeId) (next : Unit → Outline)
  /-- an option or iteration -/
  | group (p : NodeId) (body next : Unit → Outline)
  /-- an arm, the further arms, and what follows the alternative -/
  | arm (p : NodeId) (body down next : Unit → Outline)
  deriving Inhabited

namespace Outline

/-- The nodes of an outline: contents before what follows them. -/
def nodes : Outline → List NodeId
  | done => []
  | leaf p next => p :: (next ()).nodes
  | group p body next => p :: (body ()).nodes ++ (next ()).nodes
  | arm p body down next => p :: (body ()).nodes ++ (down ()).nodes ++ (next ()).nodes

/-- The node with which an outline begins. -/
def head? : Outline → Option NodeId
  | done => none
  | leaf p _ | group p _ _ | arm p _ _ _ => some p

/-- The arms of the alternative with which an outline begins. -/
def arms : Outline → List NodeId
  | arm p _ down _ => p :: (down ()).arms
  | _ => []

end Outline

namespace Grammar

/-- The outline from a node, at most `fuel` nodes deep. -/
def outlineWithin (g : Grammar) : Nat → Option NodeId → Outline
  | 0, _ => .done
  | _, none => .done
  | fuel + 1, some p =>
    let n := g.node p
    let body := fun _ => g.outlineWithin fuel n.sub
    let next := fun _ => if n.leaves then .done else g.outlineWithin fuel n.next
    match n.kind with
    | .alt => .arm p body (fun _ => g.outlineWithin fuel n.down) next
    | .iter | .opt => .group p body next
    | _ => .leaf p next

/-- The outline from a node.  No path in it is longer than there are nodes. -/
def outline (g : Grammar) (p : Option NodeId) : Outline :=
  g.outlineWithin g.nodes.size p

/-- The nodes that a node is linked to without leaving the structure that encloses it. -/
def innerEdges (g : Grammar) (p : NodeId) : List NodeId :=
  let n := g.node p
  n.sub.toList ++ n.down.toList ++ if n.leaves then [] else n.next.toList

/-- The nodes that one sees from a node without leaving the structure that encloses it, each
once. -/
def nodesWithin (g : Grammar) (p : Option NodeId) : List NodeId :=
  explore g.innerEdges (allFresh g.nodes.size) p.toList

/-! ## Deletability -/

/-- Whether a node without contents reads nothing. -/
def leafDeletable (g : Grammar) (p : NodeId) : Bool :=
  match (g.node p).kind with
  | .nonterminal s => (g.sym s).deletable
  | .eps | .sync | .action | .resolver => true
  | _ => false

/-- Whether an outline can be passed without reading anything.  Options and iterations always can,
an alternative if one of its arms can. -/
def deletableOutline (g : Grammar) : Outline → Bool
  | .done => true
  | .leaf p next => g.leafDeletable p && g.deletableOutline (next ())
  | .group _ _ next => g.deletableOutline (next ())
  | .arm _ body down next =>
    (g.deletableOutline (body ()) ||
        ((down ()).head?.isSome && g.deletableOutline (down ()))) &&
      g.deletableOutline (next ())

/-- Whether a chain can be passed up to the end of the structure that encloses it. -/
def deletableWithin (g : Grammar) (p : Option NodeId) : Bool :=
  g.deletableOutline (g.outline p)

/-- Whether a single node can be passed. -/
def deletableNode (g : Grammar) (p : NodeId) : Bool :=
  match (g.node p).kind with
  | .alt =>
    g.deletableWithin (g.node p).sub ||
      ((g.node p).down.isSome && g.deletableWithin (g.node p).down)
  | .iter | .opt => true
  | _ => g.leafDeletable p

/-- Whether the successors of a node can be passed to the very end, at most `fuel` of them. -/
def deletableAlong (g : Grammar) : Nat → Option NodeId → Bool
  | _, none => true
  | 0, some _ => true
  | fuel + 1, some p => g.deletableNode p && g.deletableAlong fuel (g.node p).next

/-- Whether a chain can be passed to the very end of the production, out of all structures that
enclose it. -/
def deletableChain (g : Grammar) (p : Option NodeId) : Bool :=
  g.deletableAlong g.nodes.size p

/-! ## Context -/

/-- Lets the characters of a chain be required behind the token only. -/
def markContext (g : Grammar) (p : Option NodeId) : Grammar :=
  (g.nodesWithin p).foldl
    (fun g p => g.modifyNode p fun n => { n with kind := n.kind.toContext }) g

end Grammar

end Ebnf
