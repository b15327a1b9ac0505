import Mathlib.Logic.Relation
import Ebnf.Machine.Token

/-!
# What leaves a state of a token structure

From a node of a token structure one gets without reading to the contents of
alternatives, options and iterations, and behind options and iterations.  The
moves that leave a state at a node read the leaves to which one gets so.  An option
or iteration whose body may be empty is reported instead, and the search ends there.

Main results:

- Theorem `Grammar.leaving_origin`: every move that is collected reads such a leaf, and
  every report is about such an option or iteration.
- Theorem `Grammar.covered_of_clean`: a search without a report covers all nodes to which
  one gets.
- Theorem `Grammar.leaving_complete`: each such leaf gives a move, and each
  iteration on the way gets the moves of its own state.
-/

namespace Ebnf

/-- What a leaf of a token structure reads. -/
def NodeKind.reads? : NodeKind → Option (Trigger × Part)
  | .cls id part => some (.cls id, part)
  | .char c part => some (.char c, part)
  | _ => none

/-- The nodes to which one gets from a node without reading. -/
def Node.silent (n : Node) : List NodeId :=
  match n.kind with
  | .alt => n.sub.toList ++ n.down.toList
  | .opt | .iter => n.next.toList ++ n.sub.toList
  | _ => []

theorem Node.mem_silent_alt {n : Node} {q : NodeId} (hkind : n.kind = .alt) :
    q ∈ n.silent ↔ n.sub = some q ∨ n.down = some q := by
  simp [Node.silent, hkind]

theorem Node.mem_silent_group {n : Node} {q : NodeId} (hkind : n.kind = .opt ∨ n.kind = .iter) :
    q ∈ n.silent ↔ n.next = some q ∨ n.sub = some q := by
  rcases hkind with hkind | hkind <;> simp [Node.silent, hkind]

namespace Grammar

variable {g : Grammar} {fuel : Nat} {s : StateId} {p q : NodeId} {passed passed' : BitSet}
  {demands : List Demand}

/-- One gets from `p` to `q` without reading. -/
def Passes (g : Grammar) : NodeId → NodeId → Prop :=
  Relation.ReflTransGen fun p q => q ∈ (g.node p).silent

theorem Passes.refl (p : NodeId) : g.Passes p p :=
  Relation.ReflTransGen.refl

theorem Passes.cons {r : NodeId} (h : q ∈ (g.node p).silent) (h' : g.Passes q r) : g.Passes p r :=
  Relation.ReflTransGen.head h h'

theorem Passes.trans {r : NodeId} (h : g.Passes p q) (h' : g.Passes q r) : g.Passes p r :=
  Relation.ReflTransGen.trans h h'

/-- The move that reads the leaf `q` in the state `s`. -/
def edgeAt (g : Grammar) (s : StateId) (q : NodeId) : Option Demand :=
  (g.node q).kind.reads?.map fun r => .edge s r.1 r.2 (g.stateAt (g.node q).next)

/-- The node `q` is an option or iteration whose body may be empty. -/
def Hollow (g : Grammar) (q : NodeId) : Prop :=
  ((g.node q).kind = .opt ∨ (g.node q).kind = .iter) ∧ g.deletableWithin (g.node q).sub = true

theorem silent_eq_nil (halt : ¬ (g.node p).kind = .alt)
    (hgroup : ¬ ((g.node p).kind = .opt ∨ (g.node p).kind = .iter)) : (g.node p).silent = [] := by
  unfold Node.silent
  split <;> simp_all

/-! ## One call -/

/-- What stands behind an option or iteration is searched unless it was passed before. -/
def leavingBehind (g : Grammar) (fuel : Nat) (s : StateId) (next : Option NodeId)
    (passed : BitSet) : Option (List Demand × BitSet) :=
  if next.all passed.contains then some ([], passed) else g.leaving fuel s next passed

/-- The moves that leave the state of an iteration, if it has one of its own. -/
def leavingOwn (g : Grammar) (fuel : Nat) (s : StateId) (p : NodeId) : Option (List Demand) :=
  match (g.node p).kind, (g.node p).state with
  | .iter, some t => if t = s then some [] else (g.leaving fuel t (some p) ∅).map Prod.fst
  | _, _ => some []

theorem leaving_edge {demand : Demand} (hedge : g.edgeAt s p = some demand) :
    g.leaving (fuel + 1) s (some p) passed = some ([demand], passed.insert p) := by
  obtain ⟨⟨on, part⟩, hreads, rfl⟩ := Option.map_eq_some_iff.1 hedge
  rw [leaving]
  cases hkind : (g.node p).kind <;> simp_all [NodeKind.reads?]

theorem leaving_alt (hkind : (g.node p).kind = .alt) :
    g.leaving (fuel + 1) s (some p) passed =
      (g.leaving fuel s (g.node p).sub (passed.insert p)).bind fun here =>
        (g.leaving fuel s (g.node p).down here.2).bind fun others =>
          some (here.1 ++ others.1, others.2) := by
  rw [leaving]
  simp [hkind]

theorem leaving_hollow (h : g.Hollow p) : ∃ diag : Diagnostic, diag.severity = .error ∧
    ∀ fuel s passed, g.leaving (fuel + 1) s (some p) passed =
      some ([.fault diag], passed.insert p) := by
  obtain ⟨hkind | hkind, hdel⟩ := h
  · refine ⟨.errorOn (g.node p).line .deletableOption, rfl, fun fuel s passed => ?_⟩
    rw [leaving]
    simp [hkind, hdel]
  · refine ⟨.errorOn (g.node p).line .deletableLoop, rfl, fun fuel s passed => ?_⟩
    rw [leaving]
    simp [hkind, hdel]

theorem leaving_group (hkind : (g.node p).kind = .opt ∨ (g.node p).kind = .iter)
    (hdel : g.deletableWithin (g.node p).sub = false) :
    g.leaving (fuel + 1) s (some p) passed =
      (g.leavingBehind fuel s (g.node p).next (passed.insert p)).bind fun behind =>
        (g.leaving fuel s (g.node p).sub behind.2).bind fun inside =>
          (g.leavingOwn fuel s p).bind fun own =>
            some (behind.1 ++ inside.1 ++ own, inside.2) := by
  have hbehind : ∀ {go : List Demand × BitSet → Option (List Demand × BitSet)},
      (g.leavingBehind fuel s (g.node p).next (passed.insert p)).bind go =
        if (g.node p).next.all (passed.insert p).contains = true then
          (some ([], passed.insert p)).bind go
        else (g.leaving fuel s (g.node p).next (passed.insert p)).bind go := by
    intro go
    rw [leavingBehind]
    split <;> rfl
  rw [leaving, hbehind]
  rcases hkind with hkind | hkind
  · simp [hkind, hdel, leavingOwn]
  · cases hstate : (g.node p).state with
    | none => simp [hkind, hdel, leavingOwn, hstate]
    | some t =>
      by_cases hts : t = s
      · simp [hkind, hdel, leavingOwn, hstate, hts]
      · cases hown : g.leaving fuel t (some p) ∅ <;>
          simp [hkind, hdel, leavingOwn, hstate, hts, hown]

theorem leaving_nothing (hedge : g.edgeAt s p = none) (halt : ¬ (g.node p).kind = .alt)
    (hgroup : ¬ ((g.node p).kind = .opt ∨ (g.node p).kind = .iter)) :
    g.leaving (fuel + 1) s (some p) passed = some ([], passed.insert p) := by
  rw [edgeAt, Option.map_eq_none_iff] at hedge
  rw [leaving]
  cases hkind : (g.node p).kind <;> simp_all [NodeKind.reads?]

/-- A node is a leaf with a move, an alternative, an option or iteration that may be empty inside or
may not, or nothing of this. -/
theorem search_cases (g : Grammar) (s : StateId) (p : NodeId) :
    (∃ demand, g.edgeAt s p = some demand) ∨ (g.node p).kind = .alt ∨ g.Hollow p ∨
      ((g.node p).kind = .opt ∨ (g.node p).kind = .iter) ∧
        g.deletableWithin (g.node p).sub = false ∨
      g.edgeAt s p = none ∧ ¬ (g.node p).kind = .alt ∧
        ¬ ((g.node p).kind = .opt ∨ (g.node p).kind = .iter) := by
  cases hedge : g.edgeAt s p with
  | some demand => exact .inl ⟨demand, rfl⟩
  | none =>
    by_cases halt : (g.node p).kind = .alt
    · exact .inr (.inl halt)
    · by_cases hgroup : (g.node p).kind = .opt ∨ (g.node p).kind = .iter
      · cases hdel : g.deletableWithin (g.node p).sub with
        | true => exact .inr (.inr (.inl ⟨hgroup, hdel⟩))
        | false => exact .inr (.inr (.inr (.inl ⟨hgroup, rfl⟩)))
      · exact .inr (.inr (.inr (.inr ⟨rfl, halt, hgroup⟩)))

/-- How the moves that leave a state are collected at a node: at a leaf, at an alternative, at an
option or iteration that may be empty inside, at any other, or not at all. -/
inductive Collects (g : Grammar) (fuel : Nat) (s : StateId) (p : NodeId) (passed : BitSet) :
    List Demand → BitSet → Prop
  | leaf {demand : Demand} (hedge : g.edgeAt s p = some demand) :
      Collects g fuel s p passed [demand] (passed.insert p)
  | alt {here others : List Demand} {passed₁ passed₂ : BitSet} (hkind : (g.node p).kind = .alt)
      (hsub : g.leaving fuel s (g.node p).sub (passed.insert p) = some (here, passed₁))
      (hdown : g.leaving fuel s (g.node p).down passed₁ = some (others, passed₂)) :
      Collects g fuel s p passed (here ++ others) passed₂
  | fault {diag : Diagnostic} (hhollow : g.Hollow p) (hseverity : diag.severity = .error) :
      Collects g fuel s p passed [.fault diag] (passed.insert p)
  | group {behind inside own : List Demand} {passed₁ passed₂ : BitSet}
      (hkind : (g.node p).kind = .opt ∨ (g.node p).kind = .iter)
      (hdel : g.deletableWithin (g.node p).sub = false)
      (hbehind : behind = [] ∧ passed₁ = passed.insert p ∧
          (∀ q ∈ (g.node p).next, q ∈ passed.insert p) ∨
        g.leaving fuel s (g.node p).next (passed.insert p) = some (behind, passed₁))
      (hinside : g.leaving fuel s (g.node p).sub passed₁ = some (inside, passed₂))
      (hown : own = [] ∧ ((g.node p).kind = .iter → ∀ t ∈ (g.node p).state, t = s) ∨
        (g.node p).kind = .iter ∧ ∃ t passed₃, (g.node p).state = some t ∧
          g.leaving fuel t (some p) ∅ = some (own, passed₃)) :
      Collects g fuel s p passed (behind ++ inside ++ own) passed₂
  | nothing (hsilent : (g.node p).silent = []) (hedge : g.edgeAt s p = none)
      (hgroup : ¬ ((g.node p).kind = .opt ∨ (g.node p).kind = .iter)) :
      Collects g fuel s p passed [] (passed.insert p)

theorem leaving_none (h : g.leaving fuel s none passed = some (demands, passed')) :
    demands = [] ∧ passed' = passed := by
  cases fuel <;>
  · simp only [leaving, Option.some.injEq, Prod.mk.injEq] at h
    exact ⟨h.1.symm, h.2.symm⟩

theorem leavingBehind_eq_some {next : Option NodeId} {behind : List Demand} {passed₁ : BitSet}
    (h : g.leavingBehind fuel s next passed = some (behind, passed₁)) :
    behind = [] ∧ passed₁ = passed ∧ (∀ q ∈ next, q ∈ passed) ∨
      g.leaving fuel s next passed = some (behind, passed₁) := by
  unfold leavingBehind at h
  split at h
  next hall =>
    obtain ⟨rfl, rfl⟩ := Prod.mk.inj (Option.some.inj h)
    refine .inl ⟨rfl, rfl, fun q hq => ?_⟩
    simpa [Option.mem_def.1 hq] using hall
  next => exact .inr h

theorem leavingOwn_eq_some {own : List Demand} (h : g.leavingOwn fuel s p = some own) :
    own = [] ∧ ((g.node p).kind = .iter → ∀ t ∈ (g.node p).state, t = s) ∨
      (g.node p).kind = .iter ∧ ∃ t passed', (g.node p).state = some t ∧
        g.leaving fuel t (some p) ∅ = some (own, passed') := by
  unfold leavingOwn at h
  split at h
  next t hkind hstate =>
    split at h
    next hts =>
      refine .inl ⟨(Option.some.inj h).symm, fun _ u hu => ?_⟩
      rw [hstate] at hu
      rw [← Option.some.inj hu, hts]
    next =>
      obtain ⟨⟨demands, passed'⟩, hrun, rfl⟩ := Option.map_eq_some_iff.1 h
      exact .inr ⟨hkind, t, passed', hstate, hrun⟩
  next hnone => exact .inl ⟨(Option.some.inj h).symm, fun hkind t ht => (hnone t hkind ht).elim⟩

theorem collects_of_leaving
    (h : g.leaving (fuel + 1) s (some p) passed = some (demands, passed')) :
    g.Collects fuel s p passed demands passed' := by
  rcases g.search_cases s p with ⟨demand, hedge⟩ | hkind | hhollow | ⟨hkind, hdel⟩ |
    ⟨hedge, halt, hgroup⟩
  · rw [leaving_edge hedge] at h
    obtain ⟨rfl, rfl⟩ := Prod.mk.inj (Option.some.inj h)
    exact .leaf hedge
  · rw [leaving_alt hkind] at h
    obtain ⟨⟨here, passed₁⟩, hhere, h⟩ := Option.bind_eq_some_iff.1 h
    obtain ⟨⟨others, passed₂⟩, hothers, h⟩ := Option.bind_eq_some_iff.1 h
    obtain ⟨rfl, rfl⟩ := Prod.mk.inj (Option.some.inj h)
    exact .alt hkind hhere hothers
  · obtain ⟨diag, hseverity, hrun⟩ := leaving_hollow hhollow
    rw [hrun] at h
    obtain ⟨rfl, rfl⟩ := Prod.mk.inj (Option.some.inj h)
    exact .fault hhollow hseverity
  · rw [leaving_group hkind hdel] at h
    obtain ⟨⟨behind, passed₁⟩, hbehind, h⟩ := Option.bind_eq_some_iff.1 h
    obtain ⟨⟨inside, passed₂⟩, hinside, h⟩ := Option.bind_eq_some_iff.1 h
    obtain ⟨own, hown, h⟩ := Option.bind_eq_some_iff.1 h
    obtain ⟨rfl, rfl⟩ := Prod.mk.inj (Option.some.inj h)
    exact .group hkind hdel (leavingBehind_eq_some hbehind) hinside (leavingOwn_eq_some hown)
  · rw [leaving_nothing hedge halt hgroup] at h
    obtain ⟨rfl, rfl⟩ := Prod.mk.inj (Option.some.inj h)
    exact .nothing (silent_eq_nil halt hgroup) hedge hgroup

/-- A call has a result if the calls for the nodes behind have. -/
theorem leaving_isSome
    (hnext : ∀ q ∈ (g.node p).silent, ∀ s passed, (g.leaving fuel s (some q) passed).isSome)
    (hown : (g.node p).kind = .iter → ∀ t ∈ (g.node p).state,
      t = s ∨ (g.leaving fuel t (some p) ∅).isSome) :
    (g.leaving (fuel + 1) s (some p) passed).isSome := by
  have hcall : ∀ {next : Option NodeId}, (∀ q, next = some q → q ∈ (g.node p).silent) → ∀ s passed,
      ∃ r, g.leaving fuel s next passed = some r := by
    intro next hmem s passed
    cases next with
    | none => cases fuel <;> exact ⟨_, rfl⟩
    | some q => exact Option.isSome_iff_exists.1 (hnext q (hmem q rfl) s passed)
  rcases g.search_cases s p with ⟨demand, hedge⟩ | hkind | hhollow | ⟨hkind, hdel⟩ |
    ⟨hedge, halt, hgroup⟩
  · rw [leaving_edge hedge]
    rfl
  · have hsilent := fun q => Node.mem_silent_alt (q := q) hkind
    obtain ⟨here, hhere⟩ := hcall (fun q hq => (hsilent q).2 (.inl hq)) s (passed.insert p)
    obtain ⟨others, hothers⟩ := hcall (fun q hq => (hsilent q).2 (.inr hq)) s here.2
    simp [leaving_alt hkind, hhere, hothers]
  · obtain ⟨diag, _, hrun⟩ := leaving_hollow hhollow
    rw [hrun]
    rfl
  · have hsilent := fun q => Node.mem_silent_group (q := q) hkind
    obtain ⟨behind, hbehind⟩ : ∃ r, g.leavingBehind fuel s (g.node p).next (passed.insert p) = some r := by
      unfold leavingBehind
      split
      · exact ⟨_, rfl⟩
      · exact hcall (fun q hq => (hsilent q).2 (.inl hq)) s _
    obtain ⟨inside, hinside⟩ := hcall (fun q hq => (hsilent q).2 (.inr hq)) s behind.2
    obtain ⟨own, hown⟩ : ∃ own, g.leavingOwn fuel s p = some own := by
      unfold leavingOwn
      split
      next t hiter hstate =>
        split
        next => exact ⟨_, rfl⟩
        next hts =>
          obtain ⟨r, hrun⟩ := Option.isSome_iff_exists.1 ((hown hiter t hstate).resolve_left hts)
          exact ⟨r.1, by rw [hrun]; rfl⟩
      next => exact ⟨_, rfl⟩
    simp [leaving_group hkind hdel, hbehind, hinside, hown]
  · rw [leaving_nothing hedge halt hgroup]
    rfl

/-- At a fault the search ends. -/
theorem leaving_isSome_of_hollow (h : g.Hollow p) :
    (g.leaving (fuel + 1) s (some p) passed).isSome := by
  obtain ⟨diag, _, hrun⟩ := leaving_hollow h
  rw [hrun]
  rfl

/-! ## Soundness -/

/-- The move that reads the leaf `q` in the state `t` is among those that leave the state `s` at the
node `p`: one gets to `q` from there, or from an iteration with the state `t` on the way. -/
def LeavesAt (g : Grammar) (s : StateId) (p : NodeId) (t : StateId) (q : NodeId) : Prop :=
  t = s ∧ g.Passes p q ∨
    ∃ i, g.Passes p i ∧ (g.node i).kind = .iter ∧ (g.node i).state = some t ∧ g.Passes i q

theorem LeavesAt.cons {t : StateId} {r : NodeId} (hq : q ∈ (g.node p).silent)
    (h : g.LeavesAt s q t r) : g.LeavesAt s p t r := by
  rcases h with ⟨rfl, h⟩ | ⟨i, hi, hkind, hstate, h⟩
  · exact .inl ⟨rfl, .cons hq h⟩
  · exact .inr ⟨i, .cons hq hi, hkind, hstate, h⟩

theorem LeavesAt.passes {t : StateId} (h : g.LeavesAt s p t q) : g.Passes p q := by
  rcases h with ⟨_, h⟩ | ⟨i, hi, _, _, h⟩
  · exact h
  · exact hi.trans h

/-- What is collected is the move of a leaf to which one gets, or reports an option or iteration to
which one gets. -/
theorem leaving_origin {p : Option NodeId} {demand : Demand}
    (h : g.leaving fuel s p passed = some (demands, passed')) (hmem : demand ∈ demands) :
    ∃ x ∈ p, ∃ t q, g.LeavesAt s x t q ∧ (g.edgeAt t q = some demand ∨
      g.Hollow q ∧ ∃ diag, demand = .fault diag ∧ diag.severity = .error) := by
  induction fuel generalizing s p passed passed' demands with
  | zero =>
    cases p with
    | none =>
      rw [(leaving_none h).1] at hmem
      cases hmem
    | some p => cases h
  | succ fuel ih =>
    cases p with
    | none =>
      rw [(leaving_none h).1] at hmem
      cases hmem
    | some p =>
      -- a call for a node behind
      have hbehind : ∀ {next : Option NodeId} {passed passed' : BitSet} {demands : List Demand},
          (∀ q ∈ next, q ∈ (g.node p).silent) →
          g.leaving fuel s next passed = some (demands, passed') → demand ∈ demands →
          ∃ x ∈ some p, ∃ t q, g.LeavesAt s x t q ∧ (g.edgeAt t q = some demand ∨
            g.Hollow q ∧ ∃ diag, demand = .fault diag ∧ diag.severity = .error) := by
        intro next passed passed' demands hnext hrun hmem
        obtain ⟨x, hx, t, q, hleaves, horigin⟩ := ih hrun hmem
        exact ⟨p, rfl, t, q, hleaves.cons (hnext x hx), horigin⟩
      cases collects_of_leaving h with
      | leaf hedge =>
        rw [List.mem_singleton.1 hmem]
        exact ⟨p, rfl, s, p, .inl ⟨rfl, .refl p⟩, .inl hedge⟩
      | alt hkind hsub hdown =>
        rcases List.mem_append.1 hmem with hmem | hmem
        · exact hbehind (fun q hq => (Node.mem_silent_alt hkind).2 (.inl hq)) hsub hmem
        · exact hbehind (fun q hq => (Node.mem_silent_alt hkind).2 (.inr hq)) hdown hmem
      | @fault diag hhollow hseverity =>
        exact ⟨p, rfl, s, p, .inl ⟨rfl, .refl p⟩,
          .inr ⟨hhollow, diag, List.mem_singleton.1 hmem, hseverity⟩⟩
      | group hkind hdel hbeh hinside hown =>
        rcases List.mem_append.1 hmem with hmem | hmem
        · rcases List.mem_append.1 hmem with hmem | hmem
          · rcases hbeh with ⟨rfl, _⟩ | hbeh
            · cases hmem
            · exact hbehind (fun q hq => (Node.mem_silent_group hkind).2 (.inl hq)) hbeh hmem
          · exact hbehind (fun q hq => (Node.mem_silent_group hkind).2 (.inr hq)) hinside hmem
        · rcases hown with ⟨rfl, _⟩ | ⟨hiter, t, passed₃, hstate, hown⟩
          · cases hmem
          · obtain ⟨x, hx, u, q, hleaves, horigin⟩ := ih hown hmem
            obtain rfl := Option.some.inj hx
            refine ⟨p, rfl, u, q, .inr ?_, horigin⟩
            rcases hleaves with ⟨rfl, hpass⟩ | hloop
            · exact ⟨p, .refl p, hiter, hstate, hpass⟩
            · exact hloop
      | nothing => cases hmem

theorem leaving_sound {p : Option NodeId} {demand : Demand}
    (h : g.leaving fuel s p passed = some (demands, passed')) (hmem : demand ∈ demands) :
    (∃ diag, demand = .fault diag) ∨
      ∃ x ∈ p, ∃ t q, g.edgeAt t q = some demand ∧ g.LeavesAt s x t q := by
  obtain ⟨x, hx, t, q, hleaves, hedge | ⟨_, diag, hfault, _⟩⟩ := leaving_origin h hmem
  · exact .inr ⟨x, hx, t, q, hedge, hleaves⟩
  · exact .inl ⟨diag, hfault⟩

/-! ## Completeness -/

/-- All that leaves at the node `x` is collected or among the nodes passed. -/
structure Covered (g : Grammar) (s : StateId) (demands : List Demand) (passed : BitSet)
    (x : NodeId) : Prop where
  filled : ¬ g.Hollow x
  edge : ∀ demand, g.edgeAt s x = some demand → demand ∈ demands
  silent : ∀ y ∈ (g.node x).silent, y ∈ passed
  own : (g.node x).kind = .iter → ∀ t ∈ (g.node x).state, t = s ∨
    ∃ fuel demands' passed', g.leaving fuel t (some x) ∅ = some (demands', passed') ∧
      ∀ demand ∈ demands', demand ∈ demands

theorem Covered.mono {demands' : List Demand} {x : NodeId} (h : g.Covered s demands passed x)
    (hdemands : ∀ demand ∈ demands, demand ∈ demands') (hpassed : ∀ y ∈ passed, y ∈ passed') :
    g.Covered s demands' passed' x where
  filled := h.filled
  edge demand hedge := hdemands demand (h.edge demand hedge)
  silent y hy := hpassed y (h.silent y hy)
  own hkind t ht := by
    refine (h.own hkind t ht).imp_right ?_
    rintro ⟨fuel, demands'', passed'', hrun, hsub⟩
    exact ⟨fuel, demands'', passed'', hrun, fun demand hmem => hdemands demand (hsub demand hmem)⟩

/-- What a call adds to the nodes passed: its own node, and only nodes that are covered. -/
structure Covers (g : Grammar) (s : StateId) (p : Option NodeId) (passed : BitSet)
    (demands : List Demand) (passed' : BitSet) : Prop where
  mono : ∀ x ∈ passed, x ∈ passed'
  mem : ∀ x ∈ p, x ∈ passed'
  covered : ∀ x ∈ passed', x ∈ passed ∨ g.Covered s demands passed' x

theorem Covers.of_mem {p : Option NodeId} (h : ∀ x ∈ p, x ∈ passed) :
    g.Covers s p passed demands passed :=
  ⟨fun _ hx => hx, h, fun _ hx => .inl hx⟩

/-- A node is covered when the nodes behind are passed by at most two calls. -/
theorem Covers.node {a b : Option NodeId} {demands₁ demands₂ : List Demand}
    {passed₁ passed₂ : BitSet} (ha : g.Covers s a (passed.insert p) demands₁ passed₁)
    (hb : g.Covers s b passed₁ demands₂ passed₂)
    (hsilent : ∀ y ∈ (g.node p).silent, y ∈ a ∨ y ∈ b)
    (hdemands₁ : ∀ demand ∈ demands₁, demand ∈ demands)
    (hdemands₂ : ∀ demand ∈ demands₂, demand ∈ demands) (hfilled : ¬ g.Hollow p)
    (hedge : ∀ demand, g.edgeAt s p = some demand → demand ∈ demands)
    (hown : (g.node p).kind = .iter → ∀ t ∈ (g.node p).state, t = s ∨
      ∃ fuel demands' passed', g.leaving fuel t (some p) ∅ = some (demands', passed') ∧
        ∀ demand ∈ demands', demand ∈ demands) :
    g.Covers s (some p) passed demands passed₂ := by
  have hp : p ∈ passed₂ := hb.mono p (ha.mono p (BitSet.mem_insert.2 (.inl rfl)))
  refine ⟨fun x hx => hb.mono x (ha.mono x (BitSet.mem_insert.2 (.inr hx))), fun x hx => ?_,
    fun x hx => ?_⟩
  · rwa [← Option.some.inj hx]
  · rcases hb.covered x hx with hx | hcov
    · rcases ha.covered x hx with hx | hcov
      · rcases BitSet.mem_insert.1 hx with rfl | hx
        · refine .inr ⟨hfilled, hedge, fun y hy => ?_, hown⟩
          rcases hsilent y hy with hy | hy
          · exact hb.mono y (ha.mem y hy)
          · exact hb.mem y hy
        · exact .inl hx
      · exact .inr (hcov.mono hdemands₁ hb.mono)
    · exact .inr (hcov.mono hdemands₂ fun _ hy => hy)

/-- The options and iterations to which one gets from a node are not empty inside. -/
def Solid (g : Grammar) (p : NodeId) : Prop :=
  ∀ x, g.Passes p x → (g.node x).kind = .opt ∨ (g.node x).kind = .iter →
    g.deletableWithin (g.node x).sub = false

theorem solid_iff : g.Solid p ↔ ∀ x, g.Passes p x → ¬ g.Hollow x := by
  refine forall₂_congr fun x _ => ?_
  rw [Hollow, not_and, Bool.not_eq_true]

/-- Without faults nothing is reported. -/
theorem Solid.ne_fault {demand : Demand} (hsolid : g.Solid p)
    (h : g.leaving fuel s (some p) passed = some (demands, passed')) (hmem : demand ∈ demands)
    (diag : Diagnostic) : demand ≠ .fault diag := by
  obtain ⟨x, hx, t, q, hleaves, hedge | ⟨hhollow, _⟩⟩ := leaving_origin h hmem
  · rintro rfl
    obtain ⟨_, _, heq⟩ := Option.map_eq_some_iff.1 hedge
    cases heq
  · obtain rfl := Option.some.inj hx
    exact absurd hhollow (solid_iff.1 hsolid q hleaves.passes)

theorem silent_of_edgeAt {demand : Demand} (hedge : g.edgeAt s p = some demand) :
    (g.node p).silent = [] ∧ ¬ ((g.node p).kind = .opt ∨ (g.node p).kind = .iter) := by
  unfold edgeAt NodeKind.reads? at hedge
  unfold Node.silent
  split at hedge <;> simp_all

/-- Where nothing is reported, all nodes that a call passes are covered. -/
theorem leaving_covers {p : Option NodeId} (hclean : ∀ diag, .fault diag ∉ demands)
    (h : g.leaving fuel s p passed = some (demands, passed')) :
    g.Covers s p passed demands passed' := by
  induction fuel generalizing s p passed passed' demands with
  | zero =>
    cases p with
    | none =>
      obtain ⟨rfl, rfl⟩ := leaving_none h
      exact .of_mem (by simp)
    | some p => cases h
  | succ fuel ih =>
    cases p with
    | none =>
      obtain ⟨rfl, rfl⟩ := leaving_none h
      exact .of_mem (by simp)
    | some p =>
      cases collects_of_leaving h with
      | leaf hedge =>
        obtain ⟨hsilent, hgroup⟩ := silent_of_edgeAt hedge
        refine .node (a := none) (b := none) (.of_mem (by simp)) (.of_mem (by simp))
          (by simp [hsilent]) (fun _ hd => hd) (fun _ hd => hd)
          (fun hhollow => hgroup hhollow.1) (fun demand hd => ?_)
          (fun hkind => absurd (.inr hkind) hgroup)
        rw [hedge] at hd
        exact List.mem_singleton.2 (Option.some.inj hd).symm
      | alt hkind hsub hdown =>
        have hsilent := fun q => Node.mem_silent_alt (q := q) hkind
        refine .node (ih (fun diag hd => hclean diag (List.mem_append_left _ hd)) hsub)
          (ih (fun diag hd => hclean diag (List.mem_append_right _ hd)) hdown)
          (fun y hy => (hsilent y).1 hy) (fun _ => List.mem_append_left _)
          (fun _ => List.mem_append_right _) (fun hhollow => ?_) (fun demand hd => ?_)
          (fun hiter => ?_)
        · simp [Hollow, hkind] at hhollow
        · simp [edgeAt, hkind, NodeKind.reads?] at hd
        · simp [hkind] at hiter
      | @fault diag => exact absurd List.mem_cons_self (hclean diag)
      | @group behind _ _ passed₁ _ hkind hdel hbehind hinside hown =>
        have hsilent := fun q => Node.mem_silent_group (q := q) hkind
        have hbeh : g.Covers s (g.node p).next (passed.insert p) behind passed₁ := by
          rcases hbehind with ⟨rfl, rfl, hmem⟩ | hrun
          · exact .of_mem hmem
          · exact ih (fun diag hd => hclean diag (by simp [hd])) hrun
        refine .node hbeh (ih (fun diag hd => hclean diag (by simp [hd])) hinside)
          (fun y hy => (hsilent y).1 hy) (fun _ hd => by simp [hd]) (fun _ hd => by simp [hd])
          (fun hhollow => absurd (hdel.symm.trans hhollow.2) Bool.false_ne_true)
          (fun demand hd => ?_) (fun hiter t ht => ?_)
        · rcases hkind with hkind | hkind <;> simp [edgeAt, hkind, NodeKind.reads?] at hd
        · rcases hown with ⟨_, hsame⟩ | ⟨_, u, passed₃, hstate, hrun⟩
          · exact .inl (hsame hiter t ht)
          · rw [Option.mem_def.1 ht] at hstate
            refine .inr ⟨fuel, _, passed₃, ?_, fun _ => List.mem_append_right _⟩
            rw [Option.some.inj hstate]
            exact hrun
      | nothing hsilent hedge hgroup =>
        exact .node (a := none) (b := none) (.of_mem (by simp)) (.of_mem (by simp))
          (by simp [hsilent]) (fun _ hd => hd) (fun _ hd => hd)
          (fun hhollow => hgroup hhollow.1) (by simp [hedge])
          (fun hkind => absurd (.inr hkind) hgroup)

/-- Where nothing is reported, all nodes to which one gets are covered. -/
theorem covered_of_clean (hclean : ∀ diag, .fault diag ∉ demands)
    (h : g.leaving fuel s (some p) ∅ = some (demands, passed)) (hpass : g.Passes p q) :
    g.Covered s demands passed q := by
  have hcovers := leaving_covers hclean h
  have hcovered : ∀ x ∈ passed, g.Covered s demands passed x := fun x hx =>
    (hcovers.covered x hx).resolve_left (BitSet.not_mem_empty x)
  refine hcovered q ?_
  induction hpass with
  | refl => exact hcovers.mem p rfl
  | tail _ hstep ih => exact (hcovered _ ih).silent _ hstep

/-- A search that reports nothing has met no fault. -/
theorem solid_of_clean (hclean : ∀ diag, .fault diag ∉ demands)
    (h : g.leaving fuel s (some p) ∅ = some (demands, passed)) : g.Solid p :=
  solid_iff.2 fun _ hpass => (covered_of_clean hclean h hpass).filled

theorem covered_of_leaving (hsolid : g.Solid p)
    (h : g.leaving fuel s (some p) ∅ = some (demands, passed)) (hpass : g.Passes p q) :
    g.Covered s demands passed q :=
  covered_of_clean (fun diag hmem => hsolid.ne_fault h hmem diag rfl) h hpass

/-- Every leaf to which one gets gives a move, and so it does for iterations on the way. -/
theorem leaving_complete {t : StateId} {demand : Demand} (hsolid : g.Solid p)
    (h : g.leaving fuel s (some p) ∅ = some (demands, passed)) (hleaves : g.LeavesAt s p t q)
    (hedge : g.edgeAt t q = some demand) : demand ∈ demands := by
  rcases hleaves with ⟨rfl, hpass⟩ | ⟨i, hi, hkind, hstate, hpass⟩
  · exact (covered_of_leaving hsolid h hpass).edge demand hedge
  · rcases (covered_of_leaving hsolid h hi).own hkind t hstate with rfl | ⟨n, own, passed', hrun, hsub⟩
    · exact (covered_of_leaving hsolid h (hi.trans hpass)).edge demand hedge
    · have hsolid' : g.Solid i := fun x hx => hsolid x (hi.trans hx)
      exact hsub demand ((covered_of_leaving hsolid' hrun hpass).edge demand hedge)

end Grammar

end Ebnf
