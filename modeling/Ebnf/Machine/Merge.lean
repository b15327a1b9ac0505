import Ebnf.Machine.Split

/-!
# Merging states

A move to several states is redirected to one new state that does what any of
them does.  Such a merged state stands for a set of *declared* states, those
that the declarations of tokens made.  Two moves to the same set share it, so
there are never more states than sets of declared ones.
-/

namespace Ebnf

/-- A machine in which some states are merged from others. -/
structure Merging where
  draft : Draft
  /-- number of declared states -/
  declared : Nat
  /-- sets of declared states behind the states that follow the declared ones, in order -/
  merged : Array BitSet := #[]
  deriving Inhabited

namespace Merging

/-- The state with an index. -/
def state (m : Merging) (s : StateId) : MachineState :=
  m.draft.machine.state s

/-- The declared states that a state stands for. -/
def behind (m : Merging) (s : StateId) : BitSet :=
  if s < m.declared then .singleton s else m.merged.getD (s - m.declared) ∅

/-- The state merged from a set of declared states. -/
def merged? (m : Merging) (set : BitSet) : Option StateId :=
  (m.merged.findIdx? fun other => other == set).map fun i => m.declared + i

/-- The token recognised in any of several states, and a complaint for each state that recognises
another one. -/
def commonToken (m : Merging) : Option SymbolId → List StateId →
    Option SymbolId × List Diagnostic
  | tok, [] => (tok, [])
  | tok, s :: ss =>
    match tok, (m.state s).endOf with
    | tok, none => m.commonToken tok ss
    | none, some found => m.commonToken (some found) ss
    | some tok, some found =>
      let (rest, diags) := m.commonToken (some tok) ss
      if found = tok then (rest, diags)
      else
        let name := fun s => (m.draft.grammar.sym s).name
        (rest, .error (.indistinguishable (name tok) (name found)) :: diags)

/-- Adds the state merged from the states `targets`, which stand for the declared states `set`. -/
def addMerged (m : Merging) (set : BitSet) (targets : List StateId) (tok : Option SymbolId) :
    StateId × Merging :=
  let moves := (targets.flatMap fun t => (m.state t).moves).foldl addMove []
  let context := targets.any fun t => (m.state t).context
  let (s, machine) := m.draft.machine.addState { moves, endOf := tok, context }
  (s, { m with
    draft := { m.draft with machine }.separate s
    merged := m.merged.push set })

/-- Redirects the `i`-th move of the state `s` to a single state. -/
def redirect (m : Merging) (s : StateId) (i : Nat) : Merging :=
  let targets := (((m.state s).moves[i]?).map fun move => move.targets.toList).getD []
  if targets.length < 2 then m
  else
    let set := targets.foldl (fun set t => set.union (m.behind t)) ∅
    let (tok, diags) := m.commonToken none targets
    let m := { m with draft.grammar := m.draft.grammar.reportAll diags }
    let (t, m) := match m.merged? set with
      | some t => (t, m)
      | none => m.addMerged set targets tok
    { m with draft.machine := m.draft.machine.modifyState s fun st =>
        { st with moves := st.moves.modify i fun move => { move with targets := .singleton t } } }

/-- Redirects all moves of a state. -/
def redirectAll (m : Merging) (s : StateId) : Merging :=
  (List.range (m.state s).moves.length).foldl (fun m i => m.redirect s i) m

/-- Redirects the moves of the states from `s` on, at most `fuel` of them.  Merged states are
appended on the way and treated in turn. -/
def redirectFrom : Nat → StateId → Merging → Merging
  | 0, _, m => m
  | fuel + 1, s, m =>
    if s < m.draft.machine.states.size then redirectFrom fuel (s + 1) (m.redirectAll s) else m

end Merging

namespace Draft

/-- Marks the states that a context move leads to. -/
def markContextStates (d : Draft) : Draft :=
  let entered := d.machine.states.foldl (fun set st =>
    st.moves.foldl (fun set move =>
      if move.part = .context then set.union move.targets else set) set) (∅ : BitSet)
  { d with machine := entered.toList.foldl (fun m s =>
      m.modifyState s fun st => { st with context := true }) d.machine }

/-- Makes the moves of every state disjoint. -/
def separateAll (d : Draft) : Draft :=
  (List.range d.machine.states.size).foldl separate d

/-- Makes every move lead to a single state, and the moves of every state disjoint.  There are at
most as many states as sets of declared ones. -/
def mergeStates (d : Draft) : Draft :=
  let n := d.machine.states.size
  let d := d.markContextStates.separateAll
  (Merging.redirectFrom (1 <<< n) 0 { draft := d, declared := n }).draft

end Draft

end Ebnf
