import Ebnf.Machine

/-!
# Splitting overlapping moves

The moves of a state are made disjoint: as long as two of them share a
character, they are replaced by moves for what only the first, only the second
and both stand for.  Each replacement makes the sum of the sizes of the
character sets smaller, which bounds their number.
-/

namespace Ebnf

/-- Two moves of a state that share a character, and the moves around them. -/
structure Overlap where
  before : List Move
  first : Move
  between : List Move
  second : Move
  after : List Move

namespace Overlap

/-- The moves of the state with other moves in the two places. -/
def replace (o : Overlap) (first second : Move) : List Move :=
  o.before ++ first :: o.between ++ second :: o.after

/-- The moves of the state without the second one. -/
def merge (o : Overlap) (first : Move) : List Move :=
  o.before ++ first :: o.between ++ o.after

end Overlap

/-- The first element with a property, and the elements before and behind it. -/
def splitFirst {α : Type} (p : α → Bool) : List α → Option (List α × α × List α)
  | [] => none
  | x :: xs =>
    if p x then some ([], x, xs)
    else (splitFirst p xs).map fun r => (x :: r.1, r.2)

namespace Grammar

/-- The first two moves of a list that share a character. -/
def findOverlap (g : Grammar) : List Move → Option Overlap
  | [] => none
  | m :: ms =>
    match splitFirst (fun other => g.overlap m.on other.on) ms with
    | some (between, second, after) => some ⟨[], m, between, second, after⟩
    | none => (g.findOverlap ms).map fun o => { o with before := m :: o.before }

/-- Replaces two moves that share a character by disjoint ones. -/
def resolve (g : Grammar) (o : Overlap) : List Move × Grammar :=
  let a := g.triggerSet o.first.on
  let b := g.triggerSet o.second.on
  if a = b then (o.merge (o.first.absorb o.second), g)
  else if a.includes b then
    let (on, g) := g.triggerFor (a.diff b)
    (o.replace { o.first with on } (o.second.absorb o.first), g)
  else if b.includes a then
    let (on, g) := g.triggerFor (b.diff a)
    (o.replace (o.first.absorb o.second) { o.second with on }, g)
  else
    let c := a.inter b
    let (onA, g) := g.triggerFor (a.diff c)
    let (onB, g) := g.triggerFor (b.diff c)
    let (onC, g) := g.triggerFor c
    let both := ((⟨onC, .main, ∅⟩ : Move).absorb o.first).absorb o.second
    (addMove (o.replace { o.first with on := onA } { o.second with on := onB }) both, g)

/-- Replaces moves that share a character, at most `fuel` times. -/
def separateWithin (g : Grammar) : Nat → List Move → List Move × Grammar
  | 0, ms => (ms, g)
  | fuel + 1, ms =>
    match g.findOverlap ms with
    | none => (ms, g)
    | some o =>
      let (ms, g) := g.resolve o
      g.separateWithin fuel ms

/-- Makes the moves of a state disjoint. -/
def separate (g : Grammar) (ms : List Move) : List Move × Grammar :=
  g.separateWithin (ms.foldr (fun m n => (g.triggerSet m.on).size + n) 0) ms

end Grammar

/-- Makes the moves of the state `s` disjoint. -/
def Draft.separate (d : Draft) (s : StateId) : Draft :=
  let (moves, grammar) := d.grammar.separate (d.machine.state s).moves
  { machine := d.machine.modifyState s fun st => { st with moves }, grammar }

end Ebnf
