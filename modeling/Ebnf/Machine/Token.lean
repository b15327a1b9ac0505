import Ebnf.Machine

/-!
# Adding a token structure to the machine

A token structure is turned into states and moves in two passes.  The first
gives a state to every node; a character leads from the state of its node to the
state of the node behind it.  The second starts at every node with a state of
its own and collects the moves that leave this state, passing through options,
iterations and alternatives.

The passes walk a graph with loops.  Each has a bound on the depth of its
recursion as an argument and answers `none` if the bound is too small;
`Draft.addToken` chooses bounds that are large enough.
-/

namespace Ebnf

/-! ## Numbering -/

namespace Draft

/-- Gives a state to the node `p`: the given one, or a new one if there is none or if an iteration
must not share it. -/
def claimState (d : Draft) (tok : SymbolId) (p : NodeId) (state : Option StateId)
    (renumber : Bool) : StateId × Draft :=
  let shared := if (d.grammar.node p).kind = .iter ∧ renumber then none else state
  let (s, machine) := match shared with
    | some s => (s, d.machine)
    | none => d.machine.addState {}
  let machine := if d.grammar.deletableChain (some p) then
      machine.modifyState s fun st => { st with endOf := some tok }
    else machine
  (s, { machine, grammar := d.grammar.modifyNode p fun n => { n with state := some s } })

/-- Gives a state to every node that can be reached from `p` and has none.  Nodes behind a
character, an option or an alternative begin a new state; the arms of an alternative share one, and
so do an iteration and what follows it. -/
def assignStates (tok : SymbolId) :
    Nat → Option NodeId → Option StateId → Bool → Draft → Option Draft
  | _, none, _, _, d => some d
  | 0, some p, _, _, d => if (d.grammar.node p).state.isSome then some d else none
  | fuel + 1, some p, state, renumber, d =>
    let n := d.grammar.node p
    if n.state.isSome then some d
    else
      let (s, d) := d.claimState tok p state renumber
      match n.kind with
      | .cls _ _ | .char _ _ => assignStates tok fuel n.next none false d
      | .opt => do
        let d ← assignStates tok fuel n.next none false d
        assignStates tok fuel n.sub (some s) true d
      | .iter => do
        let d ← assignStates tok fuel n.next (some s) true d
        assignStates tok fuel n.sub (some s) true d
      | .alt => do
        let d ← assignStates tok fuel n.next none false d
        let d ← assignStates tok fuel n.sub (some s) true d
        assignStates tok fuel n.down (some s) renumber d
      | _ => some d

end Draft

/-! ## Collecting moves -/

/-- What a token structure asks for. -/
inductive Demand
  /-- a move; without a target it leads to a new final state -/
  | edge (source : StateId) (on : Trigger) (part : Part) (target : Option StateId)
  /-- an option or iteration whose body may be empty -/
  | fault (diag : Diagnostic)
  deriving DecidableEq, Repr

namespace Grammar

/-- The state of a node, if there is one. -/
def stateAt (g : Grammar) (p : Option NodeId) : Option StateId :=
  p.bind fun p => (g.node p).state

/-- The moves that leave the state `source` at the node `p`, and the nodes passed.  An iteration
with a state of its own also gets the moves that leave this state. -/
def leaving (g : Grammar) :
    Nat → StateId → Option NodeId → BitSet → Option (List Demand × BitSet)
  | _, _, none, passed => some ([], passed)
  | 0, _, some _, _ => none
  | fuel + 1, source, some p, passed =>
    let n := g.node p
    let passed := passed.insert p
    match n.kind with
    | .cls id part => some ([.edge source (.cls id) part (g.stateAt n.next)], passed)
    | .char c part => some ([.edge source (.char c) part (g.stateAt n.next)], passed)
    | .alt => do
      let (here, passed) ← g.leaving fuel source n.sub passed
      let (others, passed) ← g.leaving fuel source n.down passed
      pure (here ++ others, passed)
    | .opt =>
      if g.deletableWithin n.sub then
        some ([.fault (.errorOn n.line .deletableOption)], passed)
      else do
        let (behind, passed) ←
          if n.next.all passed.contains then some ([], passed)
          else g.leaving fuel source n.next passed
        let (inside, passed) ← g.leaving fuel source n.sub passed
        pure (behind ++ inside, passed)
    | .iter =>
      if g.deletableWithin n.sub then
        some ([.fault (.errorOn n.line .deletableLoop)], passed)
      else do
        let (behind, passed) ←
          if n.next.all passed.contains then some ([], passed)
          else g.leaving fuel source n.next passed
        let (inside, passed) ← g.leaving fuel source n.sub passed
        match n.state with
        | none => pure (behind ++ inside, passed)
        | some s =>
          if s = source then pure (behind ++ inside, passed)
          else do
            let (own, _) ← g.leaving fuel s (some p) ∅
            pure (behind ++ inside ++ own, passed)
    | _ => some ([], passed)

/-- The moves of all states that begin at `p` or behind it.  `own` says whether the state of `p`
begins here; a node already marked adds nothing. -/
def moves (g : Grammar) (depth : Nat) :
    Nat → Option NodeId → Bool → BitSet → Option (List Demand × BitSet)
  | _, none, _, marked => some ([], marked)
  | 0, some p, _, marked => if marked.contains p then some ([], marked) else none
  | fuel + 1, some p, own, marked =>
    if marked.contains p then some ([], marked)
    else do
      let n := g.node p
      let marked := marked.insert p
      let here ← match own, n.state with
        | true, some s => (g.leaving depth s (some p) ∅).map Prod.fst
        | _, _ => some []
      match n.kind with
      | .cls _ _ | .char _ _ =>
        let (behind, marked) ← g.moves depth fuel n.next true marked
        pure (here ++ behind, marked)
      | .opt =>
        let (behind, marked) ← g.moves depth fuel n.next true marked
        let (inside, marked) ← g.moves depth fuel n.sub false marked
        pure (here ++ behind ++ inside, marked)
      | .iter =>
        let (behind, marked) ← g.moves depth fuel n.next false marked
        let (inside, marked) ← g.moves depth fuel n.sub false marked
        pure (here ++ behind ++ inside, marked)
      | .alt =>
        let (inside, marked) ← g.moves depth fuel n.sub false marked
        let (others, marked) ← g.moves depth fuel n.down false marked
        pure (here ++ inside ++ others, marked)
      | _ => pure (here, marked)

/-- All moves of the token structure at `p`.  If it begins with an iteration, the moves that leave
this iteration also leave the start state. -/
def tokenMoves (g : Grammar) (depth fuel : Nat) (p : NodeId) : Option (List Demand) := do
  let (own, _) ← g.moves depth fuel (some p) true ∅
  if (g.node p).kind = .iter then
    let (fromStart, _) ← g.leaving depth Machine.start (some p) ∅
    pure (own ++ fromStart)
  else pure own

end Grammar

/-! ## The whole token -/

namespace Draft

/-- Does what a token structure asks for. -/
def meet (tok : SymbolId) (d : Draft) : Demand → Draft
  | .fault diag => d.report diag
  | .edge source on part (some target) => d.connect tok source on part target
  | .edge source on part none =>
    let (target, d) := d.addFinal tok
    d.connect tok source on part target

/-- Adds the token structure at `p`, with bounds on the depth of the recursion. -/
def addTokenWithin (d : Draft) (depth fuel : Nat) (p : NodeId) (tok : SymbolId) : Option Draft := do
  let d ← assignStates tok fuel (some p) (some Machine.start) true d
  let demands ← d.grammar.tokenMoves depth fuel p
  pure (demands.foldl (meet tok) d)

/-- Adds the token structure at `p`.  A token that may be empty is refused.  No path of the passes
meets more nodes than there are, and an iteration restarts at most once below each other one. -/
def addToken (d : Draft) (p : NodeId) (tok : SymbolId) : Draft :=
  if d.grammar.deletableChain (some p) then
    d.report (.errorOn (d.grammar.sym tok).line .tokenMightBeEmpty)
  else
    let size := d.grammar.nodes.size + 1
    (d.addTokenWithin (size * size * size) size p tok).getD d

end Draft

end Ebnf
