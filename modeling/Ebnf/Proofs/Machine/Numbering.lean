import Ebnf.Proofs.Machine.Build
import Ebnf.Proofs.Phrase.Chain

/-!
# The states of a token structure

The first pass gives a state to every node.  Some nodes are the head of a new
state; every other node shares the state of a node from which one gets to it
without reading.  So what leaves a state is what leaves it at its head.

Main results:

- Theorem `Draft.numbersChains`: the pass over a chain of phrases succeeds.  Each of
  its nodes gets the state that was offered or the state of a head, and iterations
  and what stands behind leaves and options are heads.
-/

namespace Ebnf

namespace Draft

variable {d d' d₁ d₂ : Draft} {tok : SymbolId} {st st' : Option StateId} {r r' k : Option NodeId}
  {xs ys heads heads' : List NodeId} {p : NodeId}

/-! ## What the pass does -/

/-- From `d` to `d'` the nodes `xs` get states: those in `heads` each a new one, every other one the
state of a head from which one gets to it, or the state `st` that was offered at the node `r`.  The
token ends in the states of deletable nodes. -/
structure Numbers (d : Draft) (tok : SymbolId) (st : Option StateId) (r : Option NodeId)
    (xs heads : List NodeId) (d' : Draft) : Prop where
  alike : d.grammar.Alike d'.grammar
  size_le : d.machine.states.size ≤ d'.machine.states.size
  moves_eq : ∀ s, (d'.machine.state s).moves = (d.machine.state s).moves
  state_other : ∀ x, x ∉ xs → (d'.grammar.node x).state = (d.grammar.node x).state
  state_mem : ∀ x ∈ xs, ∃ s, (d'.grammar.node x).state = some s ∧
    (st = some s ∧ (∃ y ∈ r, d.grammar.Passes y x) ∨
      ∃ z ∈ heads, (d'.grammar.node z).state = some s ∧ d.grammar.Passes z x)
  head_mem : ∀ z ∈ heads, z ∈ xs
  head_state : ∀ z ∈ heads, ∃ s, (d'.grammar.node z).state = some s ∧
    d.machine.states.size ≤ s ∧ s < d'.machine.states.size
  head_inj : ∀ z ∈ heads, ∀ z' ∈ heads,
    (d'.grammar.node z).state = (d'.grammar.node z').state → z = z'
  endOf_iff : ∀ s, (d'.machine.state s).endOf = some tok ↔
    (d.machine.state s).endOf = some tok ∨
      ∃ x ∈ xs, (d'.grammar.node x).state = some s ∧ d.grammar.deletableChain (some x) = true

/-- At the node `x` the heads are where they have to be: an iteration is one, and what stands behind a
leaf or an option, unless it is `k`. -/
structure Leading (g : Grammar) (k : Option NodeId) (heads : List NodeId) (x : NodeId) : Prop where
  iter : (g.node x).kind = .iter → x ∈ heads
  behind : (g.node x).kind.reads?.isSome = true ∨ (g.node x).kind = .opt →
    ∀ y, (g.node x).next = some y → y ∈ heads ∨ k = some y

theorem Leading.mono {g : Grammar} {x : NodeId} (h : Leading g r heads x)
    (hheads : ∀ z ∈ heads, z ∈ heads') (hk : ∀ y, r = some y → y ∈ heads' ∨ k = some y) :
    Leading g k heads' x where
  iter hkind := hheads x (h.iter hkind)
  behind hkind y hy := (h.behind hkind y hy).elim (fun hmem => .inl (hheads y hmem)) (hk y)

/-- The first node is a head if no state is offered or if it is an iteration; otherwise it takes the
state that is offered. -/
structure Enters (d : Draft) (st : Option StateId) (heads : List NodeId) (p : NodeId) (d' : Draft) :
    Prop where
  head : st = none ∨ (d.grammar.node p).kind = .iter → p ∈ heads
  shared : st ≠ none → (d.grammar.node p).kind ≠ .iter → (d'.grammar.node p).state = st

namespace Numbers

theorem refl (d : Draft) (tok : SymbolId) (st : Option StateId) (r : Option NodeId) :
    d.Numbers tok st r [] [] d where
  alike := .refl _
  size_le := Nat.le_refl _
  moves_eq _ := rfl
  state_other _ _ := rfl
  state_mem := by simp
  head_mem := by simp
  head_state := by simp
  head_inj := by simp
  endOf_iff := by simp

/-- The order of the nodes does not matter. -/
theorem congr (h : d.Numbers tok st r xs heads d') (hxs : ∀ x, x ∈ xs ↔ x ∈ ys) :
    d.Numbers tok st r ys heads d' where
  alike := h.alike
  size_le := h.size_le
  moves_eq := h.moves_eq
  state_other x hx := h.state_other x fun hmem => hx ((hxs x).1 hmem)
  state_mem x hx := h.state_mem x ((hxs x).2 hx)
  head_mem z hz := (hxs z).1 (h.head_mem z hz)
  head_state := h.head_state
  head_inj := h.head_inj
  endOf_iff s := by simp only [h.endOf_iff s, hxs]

section Further

variable (h : d.Numbers tok st r xs heads d₁) (h' : d₁.Numbers tok st' r' ys heads' d₂)
  (hdisjoint : xs.Disjoint ys)

include h' hdisjoint

theorem state_kept {x : NodeId} (hx : x ∈ xs) :
    (d₂.grammar.node x).state = (d₁.grammar.node x).state :=
  h'.state_other x fun hmem => hdisjoint hx hmem

include h

/-- The nodes that had states before have them for the same reason. -/
theorem state_mem_kept {x : NodeId} (hx : x ∈ xs) :
    ∃ s, (d₂.grammar.node x).state = some s ∧ (st = some s ∧ (∃ y ∈ r, d.grammar.Passes y x) ∨
      ∃ z ∈ heads, (d₂.grammar.node z).state = some s ∧ d.grammar.Passes z x) := by
  obtain ⟨s, hs, horigin⟩ := h.state_mem x hx
  refine ⟨s, (state_kept h' hdisjoint hx).trans hs, horigin.imp_right ?_⟩
  rintro ⟨z, hz, hzs, hzx⟩
  exact ⟨z, hz, (state_kept h' hdisjoint (h.head_mem z hz)).trans hzs, hzx⟩

/-- A further node has the state of a further head, or the state offered to it, which a node has from
which one gets to it. -/
theorem state_mem_further (hst : ∀ s ∈ st', ∃ w ∈ xs, (d₁.grammar.node w).state = some s ∧
      ∀ y ∈ r', d.grammar.Passes w y) {x : NodeId} (hx : x ∈ ys) :
    ∃ s, (d₂.grammar.node x).state = some s ∧ (st = some s ∧ (∃ y ∈ r, d.grammar.Passes y x) ∨
      ∃ z ∈ heads ++ heads', (d₂.grammar.node z).state = some s ∧ d.grammar.Passes z x) := by
  -- the links are the same throughout
  have hpass : ∀ {y : NodeId}, d₁.grammar.Passes y x → d.grammar.Passes y x := h.alike.symm.passes
  obtain ⟨s, hs, ⟨hoffer, y, hy, hyx⟩ | ⟨z, hz, hzs, hzx⟩⟩ := h'.state_mem x hx
  · obtain ⟨w, hw, hws, hwr⟩ := hst s hoffer
    have hwx := (hwr y hy).trans (hpass hyx)
    obtain ⟨s', hs', horigin⟩ := state_mem_kept h h' hdisjoint hw
    obtain rfl : s = s' :=
      Option.some.inj (hws.symm.trans ((state_kept h' hdisjoint hw).symm.trans hs'))
    refine ⟨s, hs, ?_⟩
    rcases horigin with ⟨hst, y', hy', hyw⟩ | ⟨z, hz, hzs, hzw⟩
    · exact .inl ⟨hst, y', hy', hyw.trans hwx⟩
    · exact .inr ⟨z, List.mem_append_left _ hz, hzs, hzw.trans hwx⟩
  · exact ⟨s, hs, .inr ⟨z, List.mem_append_right _ hz, hzs, hpass hzx⟩⟩

/-- Further heads have further states. -/
theorem state_head_ne {z z' : NodeId} (hz : z ∈ heads) (hz' : z' ∈ heads') :
    (d₂.grammar.node z).state ≠ (d₂.grammar.node z').state := by
  intro heq
  obtain ⟨s, hs, _, hlt⟩ := h.head_state z hz
  obtain ⟨s', hs', hle, _⟩ := h'.head_state z' hz'
  rw [state_kept h' hdisjoint (h.head_mem z hz), hs, hs'] at heq
  exact Nat.lt_irrefl _ (Nat.lt_of_lt_of_le (Option.some.inj heq ▸ hlt) hle)

/-- Further nodes get states.  The state offered to them is that of a node from which one gets
there. -/
theorem trans (hst : ∀ s ∈ st', ∃ w ∈ xs, (d₁.grammar.node w).state = some s ∧
      ∀ y ∈ r', d.grammar.Passes w y) :
    d.Numbers tok st r (xs ++ ys) (heads ++ heads') d₂ := by
  have hkeep : ∀ {x : NodeId}, x ∈ xs → (d₂.grammar.node x).state = (d₁.grammar.node x).state :=
    state_kept h' hdisjoint
  constructor
  · exact h.alike.trans h'.alike
  · exact Nat.le_trans h.size_le h'.size_le
  · exact fun s => (h'.moves_eq s).trans (h.moves_eq s)
  · intro x hx
    rw [List.mem_append, not_or] at hx
    exact (h'.state_other x hx.2).trans (h.state_other x hx.1)
  · intro x hx
    rcases List.mem_append.1 hx with hx | hx
    · obtain ⟨s, hs, horigin⟩ := state_mem_kept h h' hdisjoint hx
      exact ⟨s, hs, horigin.imp_right fun ⟨z, hz, hzx⟩ => ⟨z, List.mem_append_left _ hz, hzx⟩⟩
    · exact state_mem_further h h' hdisjoint hst hx
  · intro z hz
    rcases List.mem_append.1 hz with hz | hz
    · exact List.mem_append_left _ (h.head_mem z hz)
    · exact List.mem_append_right _ (h'.head_mem z hz)
  · intro z hz
    rcases List.mem_append.1 hz with hz | hz
    · obtain ⟨s, hs, hle, hlt⟩ := h.head_state z hz
      exact ⟨s, (hkeep (h.head_mem z hz)).trans hs, hle, Nat.lt_of_lt_of_le hlt h'.size_le⟩
    · obtain ⟨s, hs, hle, hlt⟩ := h'.head_state z hz
      exact ⟨s, hs, Nat.le_trans h.size_le hle, hlt⟩
  · intro z hz z' hz' heq
    rcases List.mem_append.1 hz with hz | hz <;> rcases List.mem_append.1 hz' with hz' | hz'
    · refine h.head_inj z hz z' hz' ?_
      rwa [hkeep (h.head_mem z hz), hkeep (h.head_mem z' hz')] at heq
    · exact absurd heq (state_head_ne h h' hdisjoint hz hz')
    · exact absurd heq.symm (state_head_ne h h' hdisjoint hz' hz)
    · exact h'.head_inj z hz z' hz' heq
  · intro s
    simp only [h'.endOf_iff, h.endOf_iff, h.alike.agrees.deletableChain_eq, List.mem_append, or_and_right,
      exists_or, or_assoc]
    refine or_congr_right (or_congr_left (exists_congr fun x => and_congr_right fun hx => ?_))
    rw [hkeep hx]

end Further

end Numbers

/-! ## One node -/

theorem state_settle {s : StateId} (hp : p < d.grammar.nodes.size) :
    ((d.settle tok p s).grammar.node p).state = some s := by
  rw [Draft.settle, Grammar.node_modifyNode_self hp]

/-- A node gets a state that there is. -/
theorem Numbers.settle {s : StateId} (hp : p < d.grammar.nodes.size) (hs : s < d.machine.states.size) :
    d.Numbers tok (some s) (some p) [p] [] (d.settle tok p s) := by
  have hstate : ((d.settle tok p s).grammar.node p).state = some s := state_settle hp
  have hmachine : (d.settle tok p s).machine.states.size = d.machine.states.size := by
    unfold Draft.settle
    dsimp only
    split
    · exact Machine.size_modifyState
    · rfl
  constructor
  · exact .modifyNode p (some s)
  · exact Nat.le_of_eq hmachine.symm
  · intro t
    unfold Draft.settle
    dsimp only
    split
    · rw [Machine.state_modifyState]
      split <;> rfl
    · rfl
  · intro x hx
    rw [Draft.settle, Grammar.node_modifyNode_of_ne fun heq => hx (List.mem_singleton.2 heq)]
  · intro x hx
    rw [List.mem_singleton.1 hx]
    exact ⟨s, hstate, .inl ⟨rfl, p, rfl, .refl p⟩⟩
  · simp
  · simp
  · simp
  · intro t
    simp only [List.mem_singleton, exists_eq_left, hstate, Option.some.injEq]
    unfold Draft.settle
    dsimp only
    split
    next hdel =>
      rw [Machine.state_modifyState]
      by_cases hts : t = s
      · simp [hts, hs, hdel]
      · simp [hts, Ne.symm hts]
    next hdel => simp [hdel]

/-- A node gets a new state. -/
theorem Numbers.settle_fresh (hp : p < d.grammar.nodes.size) :
    d.Numbers tok st r [p] [p] (d.withState.settle tok p d.machine.states.size) := by
  have hsize : d.withState.machine.states.size = d.machine.states.size + 1 := Machine.size_addState
  have hlt : d.machine.states.size < d.withState.machine.states.size :=
    Nat.lt_of_lt_of_eq (Nat.lt_succ_self _) hsize.symm
  have h : d.withState.Numbers tok _ _ [p] [] _ := .settle (d := d.withState) hp hlt
  obtain ⟨t, hstate, hnew⟩ := h.state_mem p (List.mem_singleton.2 rfl)
  obtain rfl : d.machine.states.size = t := by
    rcases hnew with ⟨heq, _⟩ | ⟨z, hz, _⟩
    · exact Option.some.inj heq
    · cases hz
  -- the new state has no moves, and no token ends in it yet
  have hempty : ∀ s, d.withState.machine.state s = d.machine.state s := by
    intro s
    unfold withState
    rw [Machine.state_addState]
    split
    next heq => simp [Machine.state, heq]; rfl
    next => rfl
  refine ⟨h.alike, Nat.le_trans (Nat.le_of_lt hlt) h.size_le, fun s => ?_, h.state_other,
    fun x hx => ?_, by simp, fun z hz => ?_, by simp, fun s => ?_⟩
  · rw [h.moves_eq, hempty]
  · rw [List.mem_singleton.1 hx]
    exact ⟨_, hstate, .inr ⟨p, List.mem_singleton.2 rfl, hstate, .refl p⟩⟩
  · rw [List.mem_singleton.1 hz]
    exact ⟨_, hstate, Nat.le_refl _, Nat.lt_of_lt_of_le hlt h.size_le⟩
  · rw [h.endOf_iff, hempty]
    rfl

/-- What `claimState` does, in both cases. -/
theorem numbers_claimState {renumber : Bool} (hp : p < d.grammar.nodes.size)
    (hst : ∀ s ∈ st, s < d.machine.states.size)
    (hrn : st = none ∨ renumber = true ∨ (d.grammar.node p).kind ≠ .iter) :
    ∃ heads, d.Numbers tok st (some p) [p] heads (d.claimState tok p st renumber).2 ∧
      ((d.claimState tok p st renumber).2.grammar.node p).state =
        some (d.claimState tok p st renumber).1 ∧
      (d.claimState tok p st renumber).1 < (d.claimState tok p st renumber).2.machine.states.size ∧
      d.Enters st heads p (d.claimState tok p st renumber).2 := by
  by_cases hfresh : st = none ∨ d.refuses p renumber
  · rw [claimState_fresh hfresh]
    have h : d.Numbers tok st (some p) [p] [p] _ := .settle_fresh hp
    have hstate : ((d.withState.settle tok p d.machine.states.size).grammar.node p).state = _ :=
      state_settle (d := d.withState) hp
    refine ⟨[p], h, hstate, ?_, fun _ => List.mem_singleton.2 rfl, fun hsome hkind => ?_⟩
    · obtain ⟨s, hs, _, hlt⟩ := h.head_state p (List.mem_singleton.2 rfl)
      exact Option.some.inj (hs.symm.trans hstate) ▸ hlt
    · exact absurd (hfresh.resolve_left hsome).1 hkind
  · rw [not_or] at hfresh
    obtain ⟨s, rfl⟩ := Option.ne_none_iff_exists'.1 hfresh.1
    rw [claimState_shared hfresh.2]
    have h : d.Numbers tok (some s) (some p) [p] [] _ := .settle hp (hst s rfl)
    refine ⟨[], h, state_settle hp, Nat.lt_of_lt_of_le (hst s rfl) h.size_le, fun hhead => ?_,
      fun _ _ => state_settle hp⟩
    have hkind := hhead.resolve_left hfresh.1
    have hrenumber := (hrn.resolve_left hfresh.1).resolve_right (absurd hkind)
    exact absurd ⟨hkind, hrenumber⟩ hfresh.2

/-! ## One call -/

section Calls

variable {fuel : Nat} {renumber : Bool} (hstate : (d.grammar.node p).state = none)
include hstate

theorem assignStates_leaf (hkind : (d.grammar.node p).kind.reads?.isSome = true) :
    assignStates tok (fuel + 1) (some p) st renumber d =
      assignStates tok fuel (d.grammar.node p).next none false (d.claimState tok p st renumber).2 := by
  rw [assignStates]
  cases hk : (d.grammar.node p).kind <;> simp_all [NodeKind.reads?]

theorem assignStates_opt (hkind : (d.grammar.node p).kind = .opt) :
    assignStates tok (fuel + 1) (some p) st renumber d =
      (assignStates tok fuel (d.grammar.node p).next none false
        (d.claimState tok p st renumber).2).bind
      (assignStates tok fuel (d.grammar.node p).sub (some (d.claimState tok p st renumber).1) true) := by
  rw [assignStates]
  simp [hstate, hkind]

theorem assignStates_iter (hkind : (d.grammar.node p).kind = .iter) :
    assignStates tok (fuel + 1) (some p) st renumber d =
      (assignStates tok fuel (d.grammar.node p).next (some (d.claimState tok p st renumber).1) true
        (d.claimState tok p st renumber).2).bind
      (assignStates tok fuel (d.grammar.node p).sub (some (d.claimState tok p st renumber).1) true) := by
  rw [assignStates]
  simp [hstate, hkind]

theorem assignStates_alt (hkind : (d.grammar.node p).kind = .alt) :
    assignStates tok (fuel + 1) (some p) st renumber d =
      ((assignStates tok fuel (d.grammar.node p).next none false
        (d.claimState tok p st renumber).2).bind
      (assignStates tok fuel (d.grammar.node p).sub (some (d.claimState tok p st renumber).1) true)).bind
      (assignStates tok fuel (d.grammar.node p).down (some (d.claimState tok p st renumber).1)
        renumber) := by
  rw [assignStates]
  simp [hstate, hkind, Option.bind_assoc]

end Calls

/-! ## All calls -/

/-- A chain of phrases whose nodes have no states, while what follows has one. -/
structure Pending (d : Draft) (k : Option NodeId) (es : List Phrase) : Prop where
  shows_chain : d.grammar.ShowsChain k es
  reads : ∀ e ∈ es, e.ReadsAll d.grammar
  nodup : (Grammar.chainNodes es).Nodup
  state_eq : ∀ x ∈ Grammar.chainNodes es, (d.grammar.node x).state = none
  behind : ∀ y ∈ k, (d.grammar.node y).state.isSome = true

/-- A call numbers the nodes of a chain of phrases, with heads where they have to be. -/
def NumbersChain (d : Draft) (tok : SymbolId) (fuel : Nat) (k : Option NodeId) (es : List Phrase)
    (st : Option StateId) (renumber : Bool) : Prop :=
  ∃ d' heads, assignStates tok fuel (Grammar.chainEntry k es) st renumber d = some d' ∧
    d.Numbers tok st (Grammar.chainEntry k es) (Grammar.chainNodes es) heads d' ∧
    (∀ y, Grammar.chainEntry k es = some y → k = some y ∨ d.Enters st heads y d') ∧
    ∀ x ∈ Grammar.chainNodes es, Leading d.grammar k heads x

/-- Every call with a large enough bound does so.  The arms of an alternative are offered its state
as they are; any other state is offered with the demand that iterations refuse it. -/
def NumbersChains (tok : SymbolId) (fuel : Nat) : Prop :=
  ∀ ⦃d : Draft⦄ ⦃k : Option NodeId⦄ ⦃es : List Phrase⦄ ⦃st : Option StateId⦄ ⦃renumber : Bool⦄,
    d.Pending k es → (∀ s ∈ st, s < d.machine.states.size) →
    (st = none ∨ renumber = true ∨ ∀ e ∈ es.head?, e.isArms = true) →
    (Grammar.chainNodes es).length ≤ fuel → d.NumbersChain tok fuel k es st renumber

/-- The node `p` has got the state `s`, and with it the nodes `xs`; at all of them but `p` the heads
are where they have to be. -/
structure Opened (d : Draft) (tok : SymbolId) (st : Option StateId) (k : Option NodeId) (p : NodeId)
    (xs heads : List NodeId) (s : StateId) (d' : Draft) : Prop where
  numbers : d.Numbers tok st (some p) xs heads d'
  mem : p ∈ xs
  state_eq : (d'.grammar.node p).state = some s
  lt_size : s < d'.machine.states.size
  enters : d.Enters st heads p d'
  leading : ∀ x ∈ xs, x ≠ p → Leading d.grammar k heads x

theorem exists_opened {renumber : Bool} (k : Option NodeId) (hp : p < d.grammar.nodes.size)
    (hst : ∀ s ∈ st, s < d.machine.states.size)
    (hrn : st = none ∨ renumber = true ∨ (d.grammar.node p).kind ≠ .iter) :
    ∃ heads, d.Opened tok st k p [p] heads (d.claimState tok p st renumber).1
      (d.claimState tok p st renumber).2 := by
  obtain ⟨heads, hnumbers, hstate, hlt, henters⟩ := numbers_claimState hp hst hrn
  refine ⟨heads, hnumbers, List.mem_singleton.2 rfl, hstate, hlt, henters, fun x hx hne => ?_⟩
  exact absurd (List.mem_singleton.1 hx) hne

/-- What stands elsewhere is still without states, and what follows it has got one by now if it had
none. -/
theorem Numbers.pending {es : List Phrase} (h : d.Numbers tok st r' xs heads d₁)
    (hshows : d.grammar.ShowsChain r es) (hreads : ∀ e ∈ es, e.ReadsAll d.grammar)
    (hnodup : (Grammar.chainNodes es).Nodup) (hdisjoint : xs.Disjoint (Grammar.chainNodes es))
    (hstate : ∀ x ∈ Grammar.chainNodes es, (d.grammar.node x).state = none)
    (hnumbered : ∀ y ∈ r, y ∈ xs ∨ (d.grammar.node y).state.isSome = true) :
    d₁.Pending r es where
  shows_chain := h.alike.showsChain hshows
  reads e he := h.alike.readsAll (hreads e he)
  nodup := hnodup
  state_eq x hx := by
    rw [h.state_other x fun hmem => hdisjoint hmem hx]
    exact hstate x hx
  behind y hy := by
    by_cases hmem : y ∈ xs
    · obtain ⟨s, hs, _⟩ := h.state_mem y hmem
      rw [hs]
      rfl
    · rw [h.state_other y hmem]
      exact (hnumbered y hy).resolve_left hmem

/-- A call for what stands around a node, after the node got its state. -/
theorem Opened.call {fuel : Nat} {renumber : Bool} {es : List Phrase} {s : StateId}
    (h : d.Opened tok st k p xs heads s d₁) (ih : NumbersChains tok fuel)
    (hshows : d.grammar.ShowsChain r es) (hreads : ∀ e ∈ es, e.ReadsAll d.grammar)
    (hnodup : (Grammar.chainNodes es).Nodup) (hdisjoint : xs.Disjoint (Grammar.chainNodes es))
    (hstate : ∀ x ∈ Grammar.chainNodes es, (d.grammar.node x).state = none)
    (hnumbered : ∀ y ∈ r, y ∈ xs ∨ (d.grammar.node y).state.isSome = true)
    (hr : ∀ y, r = some y → y ∈ heads ∨ k = some y)
    (hst : st' = none ∨ st' = some s ∧
      ∀ y ∈ Grammar.chainEntry r es, y ∈ (d.grammar.node p).silent)
    (hrn : st' = none ∨ renumber = true ∨ ∀ e ∈ es.head?, e.isArms = true)
    (hfuel : (Grammar.chainNodes es).length ≤ fuel) :
    ∃ d₂ heads', assignStates tok fuel (Grammar.chainEntry r es) st' renumber d₁ = some d₂ ∧
      d.Opened tok st k p (xs ++ Grammar.chainNodes es) (heads ++ heads') s d₂ ∧
      (st' = none → ∀ y, Grammar.chainEntry r es = some y → y ∈ heads ++ heads' ∨ k = some y) := by
  have halike := h.numbers.alike
  have hpending : d₁.Pending r es :=
    h.numbers.pending hshows hreads hnodup hdisjoint hstate hnumbered
  have hoffer : ∀ t ∈ st', t = s ∧ ∀ y ∈ Grammar.chainEntry r es, d.grammar.Passes p y := by
    intro t ht
    rcases hst with rfl | ⟨rfl, hsilent⟩
    · cases ht
    · exact ⟨(Option.some.inj ht).symm, fun y hy => .cons (hsilent y hy) (.refl y)⟩
  obtain ⟨d₂, heads', hrun, hnumbers, hentry, hleading⟩ :=
    ih hpending (fun t ht => (hoffer t ht).1 ▸ h.lt_size) hrn hfuel
  have hp : p ∉ Grammar.chainNodes es := fun hmem => hdisjoint h.mem hmem
  have hleft : ∀ z ∈ heads, z ∈ heads ++ heads' := fun z hz => List.mem_append_left _ hz
  have hright : ∀ z ∈ heads', z ∈ heads ++ heads' := fun z hz => List.mem_append_right _ hz
  have hbehind : ∀ y, r = some y → y ∈ heads ++ heads' ∨ k = some y :=
    fun y hy => (hr y hy).imp_left (hleft y)
  refine ⟨d₂, heads', hrun, ⟨h.numbers.trans hnumbers hdisjoint fun t ht => ?_,
    List.mem_append_left _ h.mem, ?_, Nat.lt_of_lt_of_le h.lt_size hnumbers.size_le,
    ⟨fun hhead => hleft p (h.enters.head hhead), fun hsome hkind => ?_⟩, fun x hx hne => ?_⟩,
    fun hnone y hy => ?_⟩
  · obtain ⟨rfl, hpass⟩ := hoffer t ht
    exact ⟨p, h.mem, h.state_eq, hpass⟩
  · rw [hnumbers.state_other p hp]
    exact h.state_eq
  · rw [hnumbers.state_other p hp]
    exact h.enters.shared hsome hkind
  · rcases List.mem_append.1 hx with hx | hx
    · exact (h.leading x hx hne).mono hleft fun y hy => .inr hy
    · have hlead := (hleading x hx).mono hright hbehind
      exact ⟨halike.agrees.kind_eq x ▸ hlead.iter, halike.agrees.next_eq x ▸ halike.agrees.kind_eq x ▸ hlead.behind⟩
  · exact (hentry y hy).elim (hbehind y) fun henters => .inl (hright y (henters.head (.inl hnone)))

/-- Nothing is done for what has a state already. -/
theorem assignStates_of_isSome {fuel : Nat} {renumber : Bool}
    (hk : ∀ y ∈ k, (d.grammar.node y).state.isSome = true) :
    assignStates tok fuel k st renumber d = some d := by
  cases k with
  | none => cases fuel <;> rfl
  | some y => cases fuel <;> simp [assignStates, hk y rfl]

/-- The node of a phrase that is no sequence gets its state, then what follows gets its states. -/
theorem exists_opened_behind {fuel : Nat} {renumber : Bool} {e : Phrase} {es : List Phrase}
    (st' : Option StateId) (renumber' : Bool) (ih : NumbersChains tok fuel) (hpending : d.Pending k (e :: es))
    (hst : ∀ s ∈ st, s < d.machine.states.size)
    (hrn : st = none ∨ renumber = true ∨ ∀ f ∈ (e :: es).head?, f.isArms = true)
    (hfuel : (Grammar.chainNodes (e :: es)).length ≤ fuel + 1)
    (hst' : st' = none ∨ st' = some (d.claimState tok e.entry st renumber).1 ∧ renumber' = true ∧
      ∀ y ∈ Grammar.chainEntry k es, y ∈ (d.grammar.node e.entry).silent) :
    ∃ d₂ heads, assignStates tok fuel (Grammar.chainEntry k es) st' renumber'
        (d.claimState tok e.entry st renumber).2 = some d₂ ∧
      d.Opened tok st k e.entry (e.entry :: Grammar.chainNodes es) heads
        (d.claimState tok e.entry st renumber).1 d₂ ∧
      (st' = none → ∀ y, Grammar.chainEntry k es = some y → y ∈ heads ∨ k = some y) := by
  obtain ⟨⟨up, hshows⟩, hchain⟩ := hpending.shows_chain
  obtain ⟨_, hnodup, hdisjoint⟩ := List.nodup_append'.1 hpending.nodup
  have hpos : 0 < e.nodes.length := List.length_pos_of_mem e.entry_mem_nodes
  have hrn' : st = none ∨ renumber = true ∨ (d.grammar.node e.entry).kind ≠ .iter := by
    refine hrn.imp_right (Or.imp_right fun harms hiter => ?_)
    rw [hshows.kind_of_isArms (harms e rfl)] at hiter
    cases hiter
  obtain ⟨heads, hopened⟩ := exists_opened k (hshows.lt_size e.entry_mem_nodes) hst hrn'
  obtain ⟨d₂, heads', hrun, hopened', hentry⟩ := hopened.call ih hchain
    (fun f hf => hpending.reads f (List.mem_cons_of_mem e hf)) hnodup
    (fun x hx hmem => hdisjoint (List.mem_singleton.1 hx ▸ e.entry_mem_nodes) hmem)
    (fun x hx => hpending.state_eq x (List.mem_append_right _ hx))
    (fun y hy => .inr (hpending.behind y hy)) (fun y hy => .inr hy)
    (hst'.imp_right fun h => ⟨h.1, h.2.2⟩) (hst'.imp_right fun h => .inl h.2.1) (by
      rw [Grammar.chainNodes_cons, List.length_append] at hfuel
      omega)
  exact ⟨d₂, heads ++ heads', hrun, hopened', hentry⟩

/-- The contents of a node get their states, after the node and what follows it. -/
theorem Opened.call_body {fuel : Nat} {renumber : Bool} {e : Phrase} {s : StateId} {up : Bool}
    (h : d.Opened tok st k p xs heads s d₁) (ih : NumbersChains tok fuel)
    (hshows : d.grammar.Shows e r up) (hreads : e.ReadsAll d.grammar)
    (hnodup : e.nodes.Nodup) (hdisjoint : xs.Disjoint e.nodes)
    (hstate : ∀ x ∈ e.nodes, (d.grammar.node x).state = none)
    (hnumbered : ∀ y ∈ r, y ∈ xs ∨ (d.grammar.node y).state.isSome = true)
    (hr : ∀ y, r = some y → y ∈ heads ∨ k = some y)
    (hsilent : e.entry ∈ (d.grammar.node p).silent)
    (hrn : renumber = true ∨ e.isArms = true) (hfuel : e.nodes.length ≤ fuel) :
    ∃ d₂ heads', assignStates tok fuel (some e.entry) (some s) renumber d₁ = some d₂ ∧
      d.Opened tok st k p (xs ++ e.nodes) (heads ++ heads') s d₂ := by
  have heq : Grammar.chainNodes [e] = e.nodes := List.append_nil _
  have hchain : d.grammar.ShowsChain r [e] := .singleton hshows
  obtain ⟨d₂, heads', hrun, hopened, _⟩ := h.call ih hchain
    (fun f hf => List.mem_singleton.1 hf ▸ hreads) (heq ▸ hnodup) (heq ▸ hdisjoint) (heq ▸ hstate)
    hnumbered hr (.inr ⟨rfl, fun y hy => Option.some.inj hy ▸ hsilent⟩)
    (.inr (hrn.imp_right fun harms f hf => Option.some.inj hf ▸ harms)) (heq ▸ hfuel)
  exact ⟨d₂, heads', hrun, heq ▸ hopened⟩

theorem numbersChain_nil {fuel : Nat} {renumber : Bool} (h : d.Pending k []) :
    d.NumbersChain tok fuel k [] st renumber :=
  ⟨d, [], assignStates_of_isSome h.behind, .refl d tok st _, fun _ hy => .inl hy, by simp⟩

/-- All nodes of a chain have got their states when the head of the first phrase is done. -/
theorem Opened.finish {es : List Phrase} {e : Phrase} {s : StateId}
    (h : d.Opened tok st k e.entry xs heads s d')
    (hxs : ∀ x, x ∈ xs ↔ x ∈ Grammar.chainNodes (e :: es))
    (hbehind : (d.grammar.node e.entry).kind.reads?.isSome = true ∨
      (d.grammar.node e.entry).kind = .opt →
      ∀ y, (d.grammar.node e.entry).next = some y → y ∈ heads ∨ k = some y) :
    d.Numbers tok st (Grammar.chainEntry k (e :: es)) (Grammar.chainNodes (e :: es)) heads d' ∧
      (∀ y, Grammar.chainEntry k (e :: es) = some y → k = some y ∨ d.Enters st heads y d') ∧
      ∀ x ∈ Grammar.chainNodes (e :: es), Leading d.grammar k heads x := by
  refine ⟨h.numbers.congr hxs, fun y hy => ?_, fun x hx => ?_⟩
  · exact .inr (Option.some.inj hy ▸ h.enters)
  · by_cases hx' : x = e.entry
    · rw [hx']
      exact ⟨fun hkind => h.enters.head (.inr hkind), hbehind⟩
    · exact h.leading x ((hxs x).2 hx) hx'

section Cases

variable {fuel : Nat} {renumber : Bool} {e f : Phrase} {es : List Phrase}

/-- What is inside a node is apart from the node and from what follows it. -/
theorem disjoint_of_nodup {zs : List NodeId} (h : (p :: ys ++ zs).Nodup) :
    ys.Nodup ∧ (p :: zs).Disjoint ys := by
  obtain ⟨hfirst, _, hdisjoint⟩ := List.nodup_append'.1 h
  obtain ⟨hp, hys⟩ := List.nodup_cons.1 hfirst
  refine ⟨hys, fun x hx hmem => ?_⟩
  rcases List.mem_cons.1 hx with rfl | hx
  · exact hp hmem
  · exact hdisjoint (List.mem_cons_of_mem p hmem) hx

theorem Pending.numbered (h : d.Pending k (e :: es)) :
    ∀ y ∈ Grammar.chainEntry k es, y ∈ p :: Grammar.chainNodes es ∨
      (d.grammar.node y).state.isSome = true := by
  intro y hy
  rcases Grammar.mem_of_chainEntry hy with hmem | hk
  · exact .inl (List.mem_cons_of_mem p hmem)
  · exact .inr (h.behind y hk)

variable (ih : NumbersChains tok fuel) (hst : ∀ s ∈ st, s < d.machine.states.size)
include ih hst

theorem numbersChain_leaf (h : d.Pending k (.leaf p :: es))
    (hrn : st = none ∨ renumber = true ∨ ∀ e ∈ (Phrase.leaf p :: es).head?, e.isArms = true)
    (hfuel : (Grammar.chainNodes (.leaf p :: es)).length ≤ fuel + 1) :
    d.NumbersChain tok (fuel + 1) k (.leaf p :: es) st renumber := by
  obtain ⟨⟨up, hshows⟩, _⟩ := h.shows_chain
  obtain ⟨d₂, heads, hrun, hopened, hentry⟩ :=
    exists_opened_behind none false ih h hst hrn hfuel (.inl rfl)
  refine ⟨d₂, heads, ?_, hopened.finish (fun x => Iff.rfl) fun _ y hy => ?_⟩
  · refine (assignStates_leaf (h.state_eq p List.mem_cons_self)
      (h.reads _ List.mem_cons_self)).trans ?_
    rw [hshows.2.next_eq]
    exact hrun
  · exact hentry rfl y (hshows.2.next_eq ▸ hy)

theorem numbersChain_opt (h : d.Pending k (.opt p e :: es))
    (hrn : st = none ∨ renumber = true ∨ ∀ f ∈ (Phrase.opt p e :: es).head?, f.isArms = true)
    (hfuel : (Grammar.chainNodes (.opt p e :: es)).length ≤ fuel + 1) :
    d.NumbersChain tok (fuel + 1) k (.opt p e :: es) st renumber := by
  obtain ⟨⟨up, hp, he⟩, _⟩ := h.shows_chain
  obtain ⟨hnodup, hdisjoint⟩ := disjoint_of_nodup h.nodup
  have hlen : (Grammar.chainNodes (.opt p e :: es)).length =
      e.nodes.length + (Grammar.chainNodes es).length + 1 := by simp [Phrase.nodes]
  obtain ⟨d₂, heads, hrun, hopened, hentry⟩ :=
    exists_opened_behind none false ih h hst hrn hfuel (.inl rfl)
  obtain ⟨d₃, heads', hrun', hopened'⟩ := hopened.call_body ih he
    (h.reads (.opt p e) List.mem_cons_self) hnodup hdisjoint (fun x hx => h.state_eq x (by simp [Phrase.nodes, hx])) h.numbered
    (hentry rfl) ((Node.mem_silent_group (.inl hp.kind_eq)).2 (.inr hp.sub_eq)) (.inl rfl) (by omega)
  refine ⟨d₃, heads ++ heads', ?_, hopened'.finish (fun x => ?_) fun _ y hy => ?_⟩
  · refine (assignStates_opt (h.state_eq p List.mem_cons_self) hp.kind_eq).trans ?_
    rw [hp.next_eq, hp.sub_eq]
    exact Option.bind_eq_some_iff.2 ⟨d₂, hrun, hrun'⟩
  · simp [Phrase.nodes, Phrase.entry, or_comm]
  · exact (hentry rfl y (hp.next_eq ▸ hy)).imp_left (List.mem_append_left _)

theorem numbersChain_iter (h : d.Pending k (.iter p e :: es))
    (hrn : st = none ∨ renumber = true ∨ ∀ f ∈ (Phrase.iter p e :: es).head?, f.isArms = true)
    (hfuel : (Grammar.chainNodes (.iter p e :: es)).length ≤ fuel + 1) :
    d.NumbersChain tok (fuel + 1) k (.iter p e :: es) st renumber := by
  obtain ⟨⟨up, hp, he⟩, _⟩ := h.shows_chain
  obtain ⟨hnodup, hdisjoint⟩ := disjoint_of_nodup h.nodup
  have hlen : (Grammar.chainNodes (.iter p e :: es)).length =
      e.nodes.length + (Grammar.chainNodes es).length + 1 := by simp [Phrase.nodes]
  have hsilent := fun y => Node.mem_silent_group (q := y) (.inr hp.kind_eq)
  -- what follows shares the state of the iteration
  obtain ⟨d₂, heads, hrun, hopened, _⟩ :=
    exists_opened_behind (some (d.claimState tok p st renumber).1) true ih h hst hrn hfuel
      (.inr ⟨rfl, rfl, fun y hy => (hsilent y).2 (.inl (hp.next_eq.trans hy))⟩)
  -- and behind the body stands the iteration, which is a head
  have hhead : p ∈ heads := hopened.enters.head (.inr hp.kind_eq)
  obtain ⟨d₃, heads', hrun', hopened'⟩ := hopened.call_body ih he
    (h.reads (.iter p e) List.mem_cons_self) hnodup hdisjoint
    (fun x hx => h.state_eq x (by simp [Phrase.nodes, hx]))
    (fun y hy => .inl (Option.some.inj hy ▸ List.mem_cons_self))
    (fun y hy => .inl (Option.some.inj hy ▸ hhead)) ((hsilent _).2 (.inr hp.sub_eq)) (.inl rfl)
    (by omega)
  refine ⟨d₃, heads ++ heads', ?_, hopened'.finish (fun x => ?_) fun hkind => ?_⟩
  · refine (assignStates_iter (h.state_eq p List.mem_cons_self) hp.kind_eq).trans ?_
    rw [hp.next_eq, hp.sub_eq]
    exact Option.bind_eq_some_iff.2 ⟨d₂, hrun, hrun'⟩
  · simp [Phrase.nodes, Phrase.entry, or_comm]
  · simp [Phrase.entry, hp.kind_eq, NodeKind.reads?] at hkind

theorem numbersChain_arm (h : d.Pending k (.arm p e :: es))
    (hrn : st = none ∨ renumber = true ∨ ∀ f ∈ (Phrase.arm p e :: es).head?, f.isArms = true)
    (hfuel : (Grammar.chainNodes (.arm p e :: es)).length ≤ fuel + 1) :
    d.NumbersChain tok (fuel + 1) k (.arm p e :: es) st renumber := by
  obtain ⟨⟨up, hp, he⟩, _⟩ := h.shows_chain
  obtain ⟨hnodup, hdisjoint⟩ := disjoint_of_nodup h.nodup
  have hlen : (Grammar.chainNodes (.arm p e :: es)).length =
      e.nodes.length + (Grammar.chainNodes es).length + 1 := by simp [Phrase.nodes]
  obtain ⟨d₂, heads, hrun, hopened, hentry⟩ :=
    exists_opened_behind none false ih h hst hrn hfuel (.inl rfl)
  obtain ⟨d₃, heads', hrun', hopened'⟩ := hopened.call_body ih he
    (h.reads (.arm p e) List.mem_cons_self) hnodup hdisjoint
    (fun x hx => h.state_eq x (by simp [Phrase.nodes, hx])) h.numbered (hentry rfl)
    ((Node.mem_silent_alt hp.kind_eq).2 (.inl hp.sub_eq)) (.inl rfl) (by omega)
  refine ⟨d₃, heads ++ heads', ?_, hopened'.finish (fun x => ?_) fun hkind => ?_⟩
  · refine (assignStates_alt (h.state_eq p List.mem_cons_self) hp.kind_eq).trans ?_
    rw [hp.next_eq, hp.sub_eq, hp.down_eq]
    exact Option.bind_eq_some_iff.2 ⟨d₃, Option.bind_eq_some_iff.2 ⟨d₂, hrun, hrun'⟩,
      assignStates_of_isSome (by simp)⟩
  · simp [Phrase.nodes, Phrase.entry, or_comm]
  · simp [Phrase.entry, hp.kind_eq, NodeKind.reads?] at hkind

theorem numbersChain_alt (h : d.Pending k (.alt p e f :: es))
    (hrn : st = none ∨ renumber = true ∨ ∀ f' ∈ (Phrase.alt p e f :: es).head?, f'.isArms = true)
    (hfuel : (Grammar.chainNodes (.alt p e f :: es)).length ≤ fuel + 1) :
    d.NumbersChain tok (fuel + 1) k (.alt p e f :: es) st renumber := by
  obtain ⟨⟨up, harms, hp, he, hf⟩, _⟩ := h.shows_chain
  obtain ⟨hnodup, hdisjoint⟩ := disjoint_of_nodup h.nodup
  obtain ⟨hnodupe, hnodupf, hapart⟩ := List.nodup_append'.1 hnodup
  have hlen : (Grammar.chainNodes (.alt p e f :: es)).length =
      e.nodes.length + f.nodes.length + (Grammar.chainNodes es).length + 1 := by
    simp [Phrase.nodes, Nat.add_assoc]
  have hsilent := fun y => Node.mem_silent_alt (q := y) hp.kind_eq
  obtain ⟨d₂, heads, hrun, hopened, hentry⟩ :=
    exists_opened_behind none false ih h hst hrn hfuel (.inl rfl)
  obtain ⟨d₃, heads', hrun', hopened'⟩ := hopened.call_body ih he
    (h.reads (.alt p e f) List.mem_cons_self).1 hnodupe
    (fun x hx hmem => hdisjoint hx (List.mem_append_left _ hmem))
    (fun x hx => h.state_eq x (by simp [Phrase.nodes, hx])) h.numbered (hentry rfl)
    ((hsilent _).2 (.inl hp.sub_eq)) (.inl rfl) (by omega)
  -- the further arms are offered the state as it was offered to this one
  obtain ⟨d₄, heads'', hrun'', hopened''⟩ := hopened'.call_body ih hf
    (h.reads (.alt p e f) List.mem_cons_self).2 hnodupf
    (fun x hx hmem => (List.mem_append.1 hx).elim
      (fun hx => hdisjoint hx (List.mem_append_right _ hmem)) (fun hx => hapart hx hmem))
    (fun x hx => h.state_eq x (by simp [Phrase.nodes, hx]))
    (fun y hy => (h.numbered y hy).imp_left (List.mem_append_left _))
    (fun y hy => (hentry rfl y hy).imp_left (List.mem_append_left _))
    ((hsilent _).2 (.inr hp.down_eq)) (.inr harms) (by omega)
  refine ⟨d₄, heads ++ heads' ++ heads'', ?_, hopened''.finish (fun x => ?_) fun hkind => ?_⟩
  · refine (assignStates_alt (h.state_eq p List.mem_cons_self) hp.kind_eq).trans ?_
    rw [hp.next_eq, hp.sub_eq, hp.down_eq]
    exact Option.bind_eq_some_iff.2 ⟨d₃, Option.bind_eq_some_iff.2 ⟨d₂, hrun, hrun'⟩, hrun''⟩
  · simp [Phrase.nodes, Phrase.entry, or_comm, or_left_comm]
  · simp [Phrase.entry, hp.kind_eq, NodeKind.reads?] at hkind

end Cases

theorem numbersChains (tok : SymbolId) (fuel : Nat) : NumbersChains tok fuel := by
  induction fuel with
  | zero =>
    intro d k es st renumber hpending hst hrn hfuel
    cases es with
    | nil => exact numbersChain_nil hpending
    | cons e es =>
      have hpos : 0 < e.nodes.length := List.length_pos_of_mem e.entry_mem_nodes
      rw [Grammar.chainNodes_cons, List.length_append] at hfuel
      omega
  | succ fuel ih =>
    intro d k es st renumber hpending hst hrn hfuel
    cases es with
    | nil => exact numbersChain_nil hpending
    | cons e es =>
      induction e generalizing es with
      | seq a b iha _ =>
        -- a sequence is a longer chain with the same nodes
        have heq : Grammar.chainNodes (.seq a b :: es) = Grammar.chainNodes (a :: b :: es) :=
          List.append_assoc _ _ _
        have hreads : a.ReadsAll d.grammar ∧ b.ReadsAll d.grammar :=
          hpending.reads (.seq a b) List.mem_cons_self
        have hpending' : d.Pending k (a :: b :: es) := by
          refine ⟨hpending.shows_chain.seq, ?_, heq ▸ hpending.nodup, heq ▸ hpending.state_eq,
            hpending.behind⟩
          exact List.forall_mem_cons.2 ⟨hreads.1, List.forall_mem_cons.2 ⟨hreads.2,
            fun f hf => hpending.reads f (List.mem_cons_of_mem _ hf)⟩⟩
        have hrn' : st = none ∨ renumber = true ∨ ∀ f ∈ (a :: b :: es).head?, f.isArms = true :=
          hrn.imp_right (Or.imp_right fun harms => nomatch harms (.seq a b) rfl)
        obtain ⟨d', heads, hrun, hrest⟩ := iha (b :: es) hpending' hrn' (heq ▸ hfuel)
        refine ⟨d', heads, hrun, ?_⟩
        rw [heq]
        exact hrest
      | leaf p => exact numbersChain_leaf ih hst hpending hrn hfuel
      | arm p e => exact numbersChain_arm ih hst hpending hrn hfuel
      | alt p e r => exact numbersChain_alt ih hst hpending hrn hfuel
      | opt p e => exact numbersChain_opt ih hst hpending hrn hfuel
      | iter p e => exact numbersChain_iter ih hst hpending hrn hfuel

/-- The first pass over a closed token structure whose nodes have no states. -/
theorem exists_numbers {e : Phrase} {up : Bool} (tok : SymbolId) (hpos : 0 < d.machine.states.size)
    (hshows : d.grammar.Shows e none up) (hnodup : e.nodes.Nodup) (hreads : e.ReadsAll d.grammar)
    (hstate : ∀ x ∈ e.nodes, (d.grammar.node x).state = none) :
    ∃ d' heads, assignStates tok (d.grammar.nodes.size + 1) (some e.entry) (some Machine.start) true d =
        some d' ∧ d.Numbers tok (some Machine.start) (some e.entry) e.nodes heads d' ∧
      d.Enters (some Machine.start) heads e.entry d' ∧
      ∀ x ∈ e.nodes, Leading d.grammar none heads x := by
  have hnodes : Grammar.chainNodes [e] = e.nodes := List.append_nil _
  have hlen := hshows.length_nodes_le hnodup
  have hpending : d.Pending none [e] :=
    ⟨.singleton hshows, by simpa using hreads, hnodes ▸ hnodup, hnodes ▸ hstate, nofun⟩
  have hcall : d.NumbersChain tok (d.grammar.nodes.size + 1) none [e] (some Machine.start) true :=
    numbersChains tok _ hpending (fun s hs => Option.some.inj hs ▸ hpos) (.inr (.inl rfl))
      (Nat.le_trans (Nat.le_of_eq (congrArg List.length hnodes)) (Nat.le_succ_of_le hlen))
  obtain ⟨d', heads, hrun, hnumbers, henters, hleading⟩ := hcall
  rw [hnodes] at hnumbers hleading
  exact ⟨d', heads, hrun, hnumbers, (henters e.entry rfl).resolve_left nofun, hleading⟩

end Draft

end Ebnf
