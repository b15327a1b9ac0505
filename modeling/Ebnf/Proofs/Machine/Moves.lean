import Ebnf.Proofs.Machine.Silent

/-!
# Where the moves of a token structure begin

The second pass over a token structure visits every node once.  A node at which
a state begins gets the moves that leave this state; then the pass goes on to the
nodes around.

Main results:

- Theorem `Grammar.moves_succ`: what one visit does.
- Theorems `Grammar.moves_sound` and `Grammar.tokenMoves_sound`: every move was
  collected for a node with a state.
-/

namespace Ebnf

/-- The visits that follow the visit of a node, in order, and whether a state begins there. -/
def Node.onward (n : Node) : List (Option NodeId × Bool) :=
  match n.kind with
  | .cls _ _ | .char _ _ => [(n.next, true)]
  | .opt => [(n.next, true), (n.sub, false)]
  | .iter => [(n.next, false), (n.sub, false)]
  | .alt => [(n.sub, false), (n.down, false)]
  | _ => []

namespace Grammar

variable {g : Grammar} {depth fuel : Nat} {p : NodeId} {own : Bool} {marked marked' : BitSet}
  {demands : List Demand}

/-- Several visits, one after the other. -/
inductive Visits (g : Grammar) (depth fuel : Nat) :
    List (Option NodeId × Bool) → BitSet → List Demand → BitSet → Prop
  | nil (marked : BitSet) : Visits g depth fuel [] marked [] marked
  | cons {p : Option NodeId} {own : Bool} {rest : List (Option NodeId × Bool)}
      {marked marked₁ marked₂ : BitSet} {demands₁ demands₂ : List Demand}
      (hfirst : g.moves depth fuel p own marked = some (demands₁, marked₁))
      (hrest : Visits g depth fuel rest marked₁ demands₂ marked₂) :
      Visits g depth fuel ((p, own) :: rest) marked (demands₁ ++ demands₂) marked₂

/-- The moves that a visit collects at its own node. -/
inductive Begins (g : Grammar) (depth : Nat) (p : NodeId) : Bool → List Demand → Prop
  | state {s : StateId} {demands : List Demand} {passed : BitSet} (hstate : (g.node p).state = some s)
      (hrun : g.leaving depth s (some p) ∅ = some (demands, passed)) :
      Begins g depth p true demands
  | nothing {own : Bool} (h : own = false ∨ (g.node p).state = none) : Begins g depth p own []

theorem moves_none (h : g.moves depth fuel none own marked = some (demands, marked')) :
    demands = [] ∧ marked' = marked := by
  cases fuel <;>
  · simp only [moves, Option.some.injEq, Prod.mk.injEq] at h
    exact ⟨h.1.symm, h.2.symm⟩

theorem moves_of_mem (hp : p ∈ marked)
    (h : g.moves depth fuel (some p) own marked = some (demands, marked')) :
    demands = [] ∧ marked' = marked := by
  have hp' : marked.contains p = true := hp
  cases fuel <;>
  · simp only [moves, hp', if_true, Option.some.injEq, Prod.mk.injEq] at h
    exact ⟨h.1.symm, h.2.symm⟩

/-! ## One visit -/

/-- What is collected at the node itself. -/
def movesHere (g : Grammar) (depth : Nat) (p : NodeId) (own : Bool) : Option (List Demand) :=
  match own, (g.node p).state with
  | true, some s => (g.leaving depth s (some p) ∅).map Prod.fst
  | _, _ => some []

/-- What is collected by several visits. -/
def movesAll (g : Grammar) (depth fuel : Nat) :
    List (Option NodeId × Bool) → BitSet → Option (List Demand × BitSet)
  | [], marked => some ([], marked)
  | (p, own) :: rest, marked => do
    let (first, marked) ← g.moves depth fuel p own marked
    let (others, marked) ← g.movesAll depth fuel rest marked
    pure (first ++ others, marked)

theorem begins_iff {here : List Demand} :
    g.Begins depth p own here ↔ g.movesHere depth p own = some here := by
  constructor
  · rintro (⟨hstate, hrun⟩ | ⟨rfl | hstate⟩)
    · simp [movesHere, hstate, hrun]
    · rfl
    · cases own <;> simp [movesHere, hstate]
  · intro h
    unfold movesHere at h
    split at h
    next s hstate =>
      obtain ⟨⟨ds, passed⟩, hrun, rfl⟩ := Option.map_eq_some_iff.1 h
      exact .state hstate hrun
    next hnone =>
      obtain rfl := Option.some.inj h
      refine .nothing (Decidable.or_iff_not_imp_left.2 fun hown => ?_)
      exact Option.eq_none_iff_forall_ne_some.2 fun s => hnone s (eq_true_of_ne_false hown)

theorem visits_iff {calls : List (Option NodeId × Bool)} :
    g.Visits depth fuel calls marked demands marked' ↔
      g.movesAll depth fuel calls marked = some (demands, marked') := by
  constructor
  · intro h
    induction h with
    | nil => rfl
    | cons hfirst _ ih => simp [movesAll, hfirst, ih]
  · intro h
    induction calls generalizing marked demands with
    | nil =>
      obtain ⟨rfl, rfl⟩ := Prod.mk.inj (Option.some.inj h)
      exact .nil marked
    | cons call calls ih =>
      obtain ⟨⟨first, marked₁⟩, hfirst, h⟩ := Option.bind_eq_some_iff.1 h
      obtain ⟨⟨others, marked₂⟩, hothers, h⟩ := Option.bind_eq_some_iff.1 h
      obtain ⟨rfl, rfl⟩ := Prod.mk.inj (Option.some.inj h)
      exact .cons hfirst (ih hothers)

/-- A visit of a node that is not marked collects at the node and then from the visits that follow. -/
theorem moves_succ (hp : p ∉ marked) : g.moves depth (fuel + 1) (some p) own marked =
    (g.movesHere depth p own).bind fun here =>
      (g.movesAll depth fuel (g.node p).onward (marked.insert p)).bind fun r =>
        some (here ++ r.1, r.2) := by
  have hp' : ¬ marked.contains p = true := hp
  rw [moves, if_neg hp']
  dsimp only [movesHere, Node.onward]
  generalize (g.node p).state = state, (g.node p).kind = kind
  cases kind <;> cases own <;> cases state <;> simp [movesAll, Option.bind_assoc]

theorem gathers_of_moves (hp : p ∉ marked)
    (h : g.moves depth fuel (some p) own marked = some (demands, marked')) :
    ∃ n here rest, fuel = n + 1 ∧ demands = here ++ rest ∧ g.Begins depth p own here ∧
      g.Visits depth n (g.node p).onward (marked.insert p) rest marked' := by
  cases fuel with
  | zero =>
    have hp' : ¬ marked.contains p = true := hp
    simp [moves, hp'] at h
  | succ n =>
    rw [moves_succ hp] at h
    obtain ⟨here, hhere, h⟩ := Option.bind_eq_some_iff.1 h
    obtain ⟨⟨rest, marked₁⟩, hrest, h⟩ := Option.bind_eq_some_iff.1 h
    obtain ⟨rfl, rfl⟩ := Prod.mk.inj (Option.some.inj h)
    exact ⟨n, here, rest, rfl, rfl, begins_iff.2 hhere, visits_iff.2 hrest⟩

theorem moves_of_visits {here rest : List Demand} (hp : p ∉ marked)
    (hbegins : g.Begins depth p own here)
    (hvisits : g.Visits depth fuel (g.node p).onward (marked.insert p) rest marked') :
    g.moves depth (fuel + 1) (some p) own marked = some (here ++ rest, marked') := by
  rw [moves_succ hp, begins_iff.1 hbegins, visits_iff.1 hvisits]
  rfl

theorem Visits.exists_of_mem {calls : List (Option NodeId × Bool)} {demand : Demand}
    (h : g.Visits depth fuel calls marked demands marked') (hmem : demand ∈ demands) :
    ∃ call ∈ calls, ∃ marked₁ marked₂ ds,
      g.moves depth fuel call.1 call.2 marked₁ = some (ds, marked₂) ∧ demand ∈ ds := by
  induction h with
  | nil => cases hmem
  | @cons p own rest _ _ _ _ _ hfirst _ ih =>
    rcases List.mem_append.1 hmem with hmem | hmem
    · exact ⟨(p, own), List.mem_cons_self, _, _, _, hfirst, hmem⟩
    · obtain ⟨call, hcall, hrun⟩ := ih hmem
      exact ⟨call, List.mem_cons_of_mem _ hcall, hrun⟩

/-- Every move was collected for a node with a state.  The pass stays among nodes with a property `P`
that visits keep. -/
theorem moves_sound {P : NodeId → Prop} {p : Option NodeId} {demand : Demand}
    (hP : ∀ x, P x → ∀ call ∈ (g.node x).onward, ∀ y ∈ call.1, P y) (hp : ∀ x ∈ p, P x)
    (h : g.moves depth fuel p own marked = some (demands, marked')) (hmem : demand ∈ demands) :
    ∃ x s ds passed, P x ∧ (g.node x).state = some s ∧ demand ∈ ds ∧
      g.leaving depth s (some x) ∅ = some (ds, passed) := by
  induction fuel generalizing p own marked marked' demands with
  | zero =>
    cases p with
    | none => simp [(moves_none h).1] at hmem
    | some p =>
      by_cases hmarked : p ∈ marked
      · simp [(moves_of_mem hmarked h).1] at hmem
      · obtain ⟨n, _, _, hn, _⟩ := gathers_of_moves hmarked h
        cases hn
  | succ fuel ih =>
    cases p with
    | none => simp [(moves_none h).1] at hmem
    | some p =>
      by_cases hmarked : p ∈ marked
      · simp [(moves_of_mem hmarked h).1] at hmem
      · obtain ⟨n, here, rest, hn, rfl, hbegins, hvisits⟩ := gathers_of_moves hmarked h
        obtain rfl : fuel = n := Nat.succ.inj hn
        rcases List.mem_append.1 hmem with hmem | hmem
        · cases hbegins with
          | @state s _ passed hstate hrun => exact ⟨p, s, here, passed, hp p rfl, hstate, hmem, hrun⟩
          | nothing => cases hmem
        · obtain ⟨call, hcall, _, _, _, hrun, hmem⟩ := hvisits.exists_of_mem hmem
          exact ih (hP p (hp p rfl) call hcall) hrun hmem

/-- Every move of a token structure reads a leaf to which one gets from a node with a state, or from
the first node in the start state. -/
theorem tokenMoves_sound {P : NodeId → Prop} {demand : Demand}
    (hP : ∀ x, P x → ∀ call ∈ (g.node x).onward, ∀ y ∈ call.1, P y) (hp : P p)
    (h : g.tokenMoves depth fuel p = some demands) (hmem : demand ∈ demands) :
    (∃ diag, demand = .fault diag) ∨ ∃ x s t q, P x ∧
      ((g.node x).state = some s ∨ s = Machine.start ∧ x = p) ∧ g.LeavesAt s x t q ∧
      g.edgeAt t q = some demand := by
  obtain ⟨x, s, ds, passed, hx, hs, hmem, hrun⟩ : ∃ x s ds passed, P x ∧
      ((g.node x).state = some s ∨ s = Machine.start ∧ x = p) ∧ demand ∈ ds ∧
      g.leaving depth s (some x) ∅ = some (ds, passed) := by
    obtain ⟨⟨own, marked⟩, hmoves, h⟩ := Option.bind_eq_some_iff.1 h
    by_cases hown : demand ∈ own
    · obtain ⟨x, s, ds, passed, hx, hstate, hrest⟩ :=
        moves_sound hP (fun x hx => Option.some.inj hx ▸ hp) hmoves hown
      exact ⟨x, s, ds, passed, hx, .inl hstate, hrest⟩
    · dsimp only at h
      split at h
      · obtain ⟨⟨fromStart, passed⟩, hleaving, h⟩ := Option.bind_eq_some_iff.1 h
        rw [← Option.some.inj h] at hmem
        exact ⟨p, _, fromStart, passed, hp, .inr ⟨rfl, rfl⟩, (List.mem_append.1 hmem).resolve_left hown,
          hleaving⟩
      · exact absurd (Option.some.inj h ▸ hmem) hown
  refine (leaving_sound hrun hmem).imp_right ?_
  rintro ⟨y, hy, t, q, hedge, hleaves⟩
  obtain rfl := Option.some.inj hy
  exact ⟨x, s, t, q, hx, hs, hleaves, hedge⟩

end Grammar

end Ebnf
