import Ebnf.Outline
import Ebnf.Search

/-!
# Checks of the productions

Every nonterminal must have a production, must not derive itself alone, and must
derive some text without nonterminals.  A nonterminal that cannot be reached
from the start symbol is only worth a warning.

Each check is a function to the diagnostics it finds; it succeeds if there are
none.
-/

namespace Ebnf.Grammar

/-! ## Missing productions -/

/-- An error for each nonterminal without a production. -/
def missingProductions (g : Grammar) : List Diagnostic :=
  (g.nonterminals.filter fun s => (g.sym s).production.isNone).map fun s =>
    .errorOn (g.sym s).line (.noProduction (g.sym s).name)

/-! ## Reachability -/

/-- The nonterminals that occur in the production of `s`. -/
def occurring (g : Grammar) (s : SymbolId) : List SymbolId :=
  (g.nodesWithin (g.sym s).production).filterMap fun p =>
    match (g.node p).kind with
    | .nonterminal t => some t
    | _ => none

/-- Numbers of the nonterminals that can be reached from the start symbol. -/
def reachedNumbers (g : Grammar) : List Nat :=
  explore (fun n => (g.occurring (g.nonterminal n)).map fun s => (g.sym s).number)
    (allFresh g.nonterminals.length) (g.start.map fun s => (g.sym s).number).toList

/-- A warning for each nonterminal that cannot be reached. -/
def unreachableSymbols (g : Grammar) : List Diagnostic :=
  let reached := g.reachedNumbers
  (g.nonterminals.filter fun s => !reached.contains (g.sym s).number).map fun s =>
    .warningOn (g.sym s).line (.unreachable (g.sym s).name)

/-! ## Circular productions -/

/-- Whether nothing has to be read behind a node: it is the last one of its structure, where the
structure itself was asked, or all behind it is deletable. -/
def endsChain (g : Grammar) (p : NodeId) : Bool :=
  (g.node p).leaves || g.deletableChain (g.node p).next

/-- The nonterminals that an outline can derive as the only symbol. -/
def unitSymbols (g : Grammar) : Outline → List SymbolId
  | .done => []
  | .leaf p next =>
    (match (g.node p).kind with
      | .nonterminal s => if g.endsChain p then [s] else []
      | _ => []) ++
    (if g.leafDeletable p then g.unitSymbols (next ()) else [])
  | .group p body next =>
    (if g.endsChain p then g.unitSymbols (body ()) else []) ++ g.unitSymbols (next ())
  | .arm p body down next =>
    (if g.endsChain p then g.unitSymbols (body ()) ++ g.unitSymbols (down ()) else []) ++
    (if g.deletableNode p then g.unitSymbols (next ()) else [])

/-- All pairs of a nonterminal and a nonterminal that its production derives alone. -/
def unitPairs (g : Grammar) : List (SymbolId × SymbolId) :=
  g.nonterminals.flatMap fun s => (g.unitSymbols (g.outline (g.sym s).production)).map (s, ·)

/-- The pairs whose left side occurs on the right of a pair, and whose right side on the left. -/
def prune (pairs : List (SymbolId × SymbolId)) : List (SymbolId × SymbolId) :=
  let lefts := BitSet.ofList (pairs.map Prod.fst)
  let rights := BitSet.ofList (pairs.map Prod.snd)
  pairs.filter fun pair => lefts.contains pair.2 && rights.contains pair.1

/-- Prunes until nothing changes, at most `fuel` times. -/
def pruneWithin : Nat → List (SymbolId × SymbolId) → List (SymbolId × SymbolId)
  | 0, pairs => pairs
  | fuel + 1, pairs =>
    let rest := prune pairs
    if rest.length = pairs.length then rest else pruneWithin fuel rest

/-- The pairs that remain when all that lead nowhere or come from nowhere are pruned. -/
def circularPairs (g : Grammar) : List (SymbolId × SymbolId) :=
  pruneWithin g.unitPairs.length g.unitPairs

/-- An error for each step of a circular derivation. -/
def circularProductions (g : Grammar) : List Diagnostic :=
  g.circularPairs.map fun pair =>
    .errorOn (g.sym pair.1).line (.circular (g.sym pair.1).name (g.sym pair.2).name)

/-! ## Termination -/

/-- Whether an outline can be derived to terminals, given the numbers of nonterminals that can. -/
def terminates (g : Grammar) (known : BitSet) : Outline → Bool
  | .done => true
  | .leaf p next =>
    (match (g.node p).kind with
      | .nonterminal s => known.contains (g.sym s).number
      | _ => true) && g.terminates known (next ())
  | .group _ _ next => g.terminates known (next ())
  | .arm _ body down next =>
    (g.terminates known (body ()) ||
        ((down ()).head?.isSome && g.terminates known (down ()))) &&
      g.terminates known (next ())

/-- Adds the number of a nonterminal whose production can be derived to terminals. -/
def noteTerminating (g : Grammar) (known : BitSet) (s : SymbolId) : BitSet :=
  let number := (g.sym s).number
  if !known.contains number && g.terminates known (g.outline (g.sym s).production) then
    known.insert number
  else known

/-- Goes through all nonterminals until nothing changes, at most `fuel` times. -/
def closeTerminating (g : Grammar) : Nat → BitSet → BitSet
  | 0, known => known
  | fuel + 1, known =>
    let known' := g.nonterminals.foldl g.noteTerminating known
    if known' = known then known else g.closeTerminating fuel known'

/-- Numbers of the nonterminals that can be derived to terminals. -/
def terminating (g : Grammar) : BitSet :=
  g.closeTerminating (g.nonterminals.length + 1) ∅

/-- An error for each nonterminal that cannot be derived to terminals. -/
def endlessSymbols (g : Grammar) : List Diagnostic :=
  let known := g.terminating
  (g.nonterminals.filter fun s => !known.contains (g.sym s).number).map fun s =>
    .errorOn (g.sym s).line (.notTerminating (g.sym s).name)

end Ebnf.Grammar
