import Ebnf.Proofs.Machine.Edges
import Ebnf.Proofs.Phrase.Front

/-!
# Declarations as sequences of small changes

Whatever is declared, the machine changes in few ways only: a state is added, a
token gets an end in a state, or a state gets a move to one other state.  Which
states may become ends and which may be linked depends on the declaration.

Main results:

- Theorem `Draft.places_assignStates`: the first pass over a token structure gives new
  states to the nodes, and the start state only where the structure is entered.
- Theorems `Draft.edits_addToken`, `Draft.edits_addToken_structure` and
  `Draft.edits_addToken_whole`: what declaring a token structure changes, if it is
  any graph, belongs to a complete phrase, or is a complete phrase without states.
- Theorem `Draft.edits_addLiteral`: what declaring a literal changes.
-/

namespace Ebnf

/-! ## Token structures -/

namespace Grammar

/-- The node belongs to a complete structure. -/
def InStructure (g : Grammar) (p : NodeId) : Prop :=
  ∃ e up, g.Shows e none up ∧ e.nodes.Nodup ∧ p ∈ e.nodes

/-- The node begins a complete structure whose nodes have no states. -/
def BeginsStructure (g : Grammar) (p : NodeId) : Prop :=
  ∃ e up, g.Shows e none up ∧ e.nodes.Nodup ∧ p = e.entry ∧
    ∀ x ∈ e.nodes, (g.node x).state = none

theorem BeginsStructure.inStructure {g : Grammar} {p : NodeId} (h : g.BeginsStructure p) :
    g.InStructure p := by
  obtain ⟨e, up, hshows, hnodup, rfl, _⟩ := h
  exact ⟨e, up, hshows, hnodup, e.entry_mem_nodes⟩

/-- The visits that follow a node of a closed phrase stay in the phrase. -/
theorem Shows.mem_of_onward {g : Grammar} {e : Phrase} {up : Bool} (h : g.Shows e none up)
    (x : NodeId) (hx : x ∈ e.nodes) : ∀ call ∈ (g.node x).onward, ∀ y ∈ call.1, y ∈ e.nodes := by
  have hnext : ∀ y ∈ (g.node x).next, y ∈ e.nodes := fun y hy =>
    (h.mem_of_next hx hy).resolve_right nofun
  have hsub : ∀ y ∈ (g.node x).sub, y ∈ e.nodes := fun y hy => h.mem_of_contents hx (.inl hy)
  have hdown : ∀ y ∈ (g.node x).down, y ∈ e.nodes := fun y hy => h.mem_of_contents hx (.inr hy)
  intro call hcall
  unfold Node.onward at hcall
  split at hcall <;> simp only [List.mem_cons, List.not_mem_nil, or_false] at hcall
  · exact hcall ▸ hnext
  · exact hcall ▸ hnext
  · rcases hcall with rfl | rfl
    · exact hnext
    · exact hsub
  · rcases hcall with rfl | rfl
    · exact hnext
    · exact hsub
  · rcases hcall with rfl | rfl
    · exact hsub
    · exact hdown

end Grammar

namespace Draft

variable {d d' d'' : Draft} {tok : SymbolId} {ends : StateId → Prop}
  {edge : StateId → StateId → Prop} {n : Nat} {front : NodeId → Prop} {p : NodeId} {s : StateId}

/-! ## Small changes -/

/-- One change while the token `tok` is declared.  `ends` says in which states it may get an end, and
`edge` between which states a move. -/
inductive Edit (tok : SymbolId) (ends : StateId → Prop) (edge : StateId → StateId → Prop) :
    Draft → Draft → Prop
  | grammar (d : Draft) (g : Grammar) : Edit tok ends edge d { d with grammar := g }
  | state (d : Draft) {endOf : Option SymbolId} (h : ∀ a ∈ endOf, a = tok) :
      Edit tok ends edge d { d with machine := (d.machine.addState { endOf }).2 }
  | final (d : Draft) {s : StateId} (h : ends s) : Edit tok ends edge d
      { d with machine := d.machine.modifyState s fun st => { st with endOf := some tok } }
  | move (d : Draft) {source target : StateId} (on : Trigger) (part : Part) (h : edge source target) :
      Edit tok ends edge d (d.connect tok source on part target)

/-- From the start state or one of the states from `n` on to one of those. -/
def Forward (n : Nat) (s t : StateId) : Prop :=
  (s = Machine.start ∨ n ≤ s) ∧ n ≤ t

/-- Several changes, one after the other. -/
abbrev Edits (tok : SymbolId) (ends : StateId → Prop) (edge : StateId → StateId → Prop) :
    Draft → Draft → Prop :=
  Relation.ReflTransGen (Edit tok ends edge)

theorem Edit.size_le (h : Edit tok ends edge d d') :
    d.machine.states.size ≤ d'.machine.states.size := by
  cases h with
  | grammar => exact Nat.le_refl _
  | state => exact Nat.le_of_lt (Nat.lt_of_lt_of_eq (Nat.lt_succ_self _) Machine.size_addState.symm)
  | final => exact Nat.le_of_eq Machine.size_modifyState.symm
  | move => exact Nat.le_of_eq size_connect.symm

theorem Edit.comments_eq (h : Edit tok ends edge d d') : d'.machine.comments = d.machine.comments := by
  cases h <;> rfl

/-- What every change keeps, as long as no states are lost, many changes keep. -/
theorem Edits.keeps {P : Draft → Prop} (h : Edits tok ends edge d d')
    (hstep : ∀ {d₁ d₂ : Draft}, d.machine.states.size ≤ d₁.machine.states.size →
      Edit tok ends edge d₁ d₂ → P d₁ → P d₂) (hd : P d) : P d' := by
  suffices d.machine.states.size ≤ d'.machine.states.size ∧ P d' from this.2
  induction h with
  | refl => exact ⟨Nat.le_refl _, hd⟩
  | tail _ hlast ih => exact ⟨Nat.le_trans ih.1 hlast.size_le, hstep ih.1 hlast ih.2⟩

theorem Edits.size_le (h : Edits tok ends edge d d') :
    d.machine.states.size ≤ d'.machine.states.size :=
  h.keeps (P := fun d' => d.machine.states.size ≤ d'.machine.states.size)
    (fun _ hedit hle => Nat.le_trans hle hedit.size_le) (Nat.le_refl _)

/-! ## The first pass -/

/-- The nodes at which a structure is entered are closed under going into contents, and the token may
end in new states, and in the start state if nothing has to follow such a node. -/
structure Entrance (g : Grammar) (n : Nat) (front : NodeId → Prop) (ends : StateId → Prop) : Prop where
  contents : ∀ x, front x → ∀ y, (g.node x).sub = some y ∨ (g.node x).down = some y →
    (g.node y).kind ≠ .iter → front y
  ends_new : ∀ s, n ≤ s → ends s
  ends_start : ∀ x, front x → g.deletableChain (some x) = true → ends Machine.start

/-- The state may be offered to a node: it is new, or it is the start state, which iterations refuse, and
the structure is entered at the node. -/
def MayOffer (g : Grammar) (n : Nat) (front : NodeId → Prop) (p : Option NodeId) (renumber : Bool)
    (s : StateId) : Prop :=
  n ≤ s ∨ s = Machine.start ∧ renumber = true ∧ ∀ q ∈ p, (g.node q).kind ≠ .iter → front q

/-- Nodes get states by small changes: new ones, or the start state where the structure is entered. -/
structure Places (d : Draft) (tok : SymbolId) (n : Nat) (front : NodeId → Prop)
    (ends : StateId → Prop) (edge : StateId → StateId → Prop) (d' : Draft) : Prop where
  edits : Edits tok ends edge d d'
  alike : d.grammar.Alike d'.grammar
  state_cases : ∀ x s, (d'.grammar.node x).state = some s →
    (d.grammar.node x).state = some s ∨ n ≤ s ∨ s = Machine.start ∧ front x

theorem Places.refl (d : Draft) : d.Places tok n front ends edge d :=
  ⟨.refl, .refl _, fun _ _ hs => .inl hs⟩

theorem Places.trans (h : d.Places tok n front ends edge d')
    (h' : d'.Places tok n front ends edge d'') : d.Places tok n front ends edge d'' where
  edits := h.edits.trans h'.edits
  alike := h.alike.trans h'.alike
  state_cases x s hs := (h'.state_cases x s hs).elim (h.state_cases x s) .inr

theorem Entrance.alike {g g' : Grammar} (h : Entrance g n front ends) (halike : g.Alike g') :
    Entrance g' n front ends where
  contents x hx y hy hkind := by
    rw [halike.agrees.sub_eq, halike.agrees.down_eq] at hy
    rw [halike.agrees.kind_eq] at hkind
    exact h.contents x hx y hy hkind
  ends_new := h.ends_new
  ends_start x hx hdel := h.ends_start x hx (halike.agrees.deletableChain_eq _ ▸ hdel)

theorem places_settle (hs : n ≤ s ∨ s = Machine.start ∧ front p)
    (hends : d.grammar.deletableChain (some p) = true → ends s) :
    d.Places tok n front ends edge (d.settle tok p s) := by
  refine ⟨?_, .modifyNode p (some s), fun x t ht => ?_⟩
  · unfold Draft.settle
    split
    next hdel => exact .tail (.single (.final d (hends hdel))) (.grammar _ _)
    next => exact .single (.grammar d _)
  · rw [Draft.settle, Grammar.node_modifyNode] at ht
    split at ht
    next heq =>
      obtain rfl := Option.some.inj ht
      exact .inr (heq.1 ▸ hs)
    next => exact .inl ht

/-- A node gets a new state, or the start state if it is no iteration and the structure is entered
there. -/
theorem places_claimState {state : Option StateId} {renumber : Bool}
    (hent : Entrance d.grammar n front ends) (hn : n ≤ d.machine.states.size)
    (hoffer : ∀ s ∈ state, MayOffer d.grammar n front (some p) renumber s) :
    d.Places tok n front ends edge (d.claimState tok p state renumber).2 ∧
      (n ≤ (d.claimState tok p state renumber).1 ∨
        (d.claimState tok p state renumber).1 = Machine.start ∧ renumber = true ∧
        (d.grammar.node p).kind ≠ .iter ∧ front p) := by
  by_cases hfresh : state = none ∨ d.refuses p renumber
  · rw [claimState_fresh hfresh]
    have hstate : d.Places tok n front ends edge d.withState :=
      ⟨.single (.state d (by simp)), .refl _, fun _ _ hs => .inl hs⟩
    exact ⟨hstate.trans (places_settle (.inl hn) fun _ => hent.ends_new _ hn), .inl hn⟩
  · rw [not_or] at hfresh
    obtain ⟨s, rfl⟩ := Option.ne_none_iff_exists'.1 hfresh.1
    rw [claimState_shared hfresh.2]
    rcases hoffer s rfl with hs | ⟨rfl, hrenumber, hfront⟩
    · exact ⟨places_settle (.inl hs) fun _ => hent.ends_new _ hs, .inl hs⟩
    · have hkind : (d.grammar.node p).kind ≠ .iter := fun hkind => hfresh.2 ⟨hkind, hrenumber⟩
      have hp := hfront p rfl hkind
      exact ⟨places_settle (.inr ⟨rfl, hp⟩) (hent.ends_start p hp), .inr ⟨rfl, hrenumber, hkind, hp⟩⟩

theorem MayOffer.alike {g g' : Grammar} {p : Option NodeId} {renumber : Bool}
    (h : MayOffer g n front p renumber s) (halike : g.Alike g') : MayOffer g' n front p renumber s :=
  h.imp_right fun ⟨hstart, hrenumber, hfront⟩ =>
    ⟨hstart, hrenumber, fun q hq hkind => hfront q hq (halike.agrees.kind_eq q ▸ hkind)⟩

/-- The state of a node may be offered to its contents: it is the start state only if the structure
is entered at the node. -/
theorem Entrance.mayOffer {g : Grammar} {r : Option NodeId} {renumber renumber' : Bool}
    (h : Entrance g n front ends)
    (hs : n ≤ s ∨ s = Machine.start ∧ renumber = true ∧ (g.node p).kind ≠ .iter ∧ front p)
    (hrenumber : renumber = true → renumber' = true)
    (hr : ∀ y ∈ r, (g.node p).sub = some y ∨ (g.node p).down = some y) :
    MayOffer g n front r renumber' s :=
  hs.imp_right fun ⟨hstart, hrn, _, hfront⟩ =>
    ⟨hstart, hrenumber hrn, fun y hy => h.contents p hfront y (hr y hy)⟩

/-- Every call with the given bound, if it comes to an end, gives states to nodes by small changes. -/
def PlacesCalls (tok : SymbolId) (n : Nat) (front : NodeId → Prop) (ends : StateId → Prop)
    (edge : StateId → StateId → Prop) (fuel : Nat) : Prop :=
  ∀ ⦃d d' : Draft⦄ ⦃p : Option NodeId⦄ ⦃state : Option StateId⦄ ⦃renumber : Bool⦄,
    Entrance d.grammar n front ends → n ≤ d.machine.states.size →
    (∀ s ∈ state, MayOffer d.grammar n front p renumber s) →
    assignStates tok fuel p state renumber d = some d' → d.Places tok n front ends edge d'

/-- A further call, after some nodes got their states. -/
theorem Places.call {fuel : Nat} {d₁ d₂ : Draft} {p : Option NodeId} {state : Option StateId}
    {renumber : Bool} (h : d.Places tok n front ends edge d₁)
    (ih : PlacesCalls tok n front ends edge fuel) (hent : Entrance d.grammar n front ends)
    (hn : n ≤ d.machine.states.size) (hoffer : ∀ s ∈ state, MayOffer d.grammar n front p renumber s)
    (hrun : assignStates tok fuel p state renumber d₁ = some d₂) :
    d.Places tok n front ends edge d₂ :=
  h.trans (ih (hent.alike h.alike) (Nat.le_trans hn h.edits.size_le)
    (fun s hs => (hoffer s hs).alike h.alike) hrun)

theorem places_assignStates (tok : SymbolId) (n : Nat) (front : NodeId → Prop) (ends : StateId → Prop)
    (edge : StateId → StateId → Prop) (fuel : Nat) : PlacesCalls tok n front ends edge fuel := by
  intro d d' p state renumber hent hn hoffer hrun
  induction fuel generalizing p state renumber d d' with
  | zero =>
    cases p with
    | none => exact Option.some.inj hrun ▸ .refl d
    | some p =>
      rw [Draft.assignStates] at hrun
      split at hrun
      · exact Option.some.inj hrun ▸ .refl d
      · cases hrun
  | succ fuel ih =>
    cases p with
    | none => exact Option.some.inj hrun ▸ .refl d
    | some p =>
      rw [Draft.assignStates] at hrun
      dsimp only at hrun
      split at hrun
      · exact Option.some.inj hrun ▸ .refl d
      · obtain ⟨hclaim, hs⟩ : d.Places tok n front ends edge (d.claimState tok p state renumber).2 ∧ _ :=
          places_claimState hent hn hoffer
        have hnone : ∀ {q : Option NodeId} {rn : Bool},
            ∀ t ∈ (none : Option StateId), MayOffer d.grammar n front q rn t := by simp
        -- the arms of an alternative and the contents of an option may get the state of the node
        have hbody : ∀ t ∈ some (d.claimState tok p state renumber).1,
            MayOffer d.grammar n front (d.grammar.node p).sub true t := fun t ht =>
          Option.some.inj ht ▸ hent.mayOffer hs (fun _ => rfl) fun y hy => .inl hy
        have hmore : ∀ t ∈ some (d.claimState tok p state renumber).1,
            MayOffer d.grammar n front (d.grammar.node p).down renumber t := fun t ht =>
          Option.some.inj ht ▸ hent.mayOffer hs id fun y hy => .inr hy
        split at hrun
        · exact hclaim.call ih hent hn hnone hrun
        · exact hclaim.call ih hent hn hnone hrun
        · obtain ⟨d₁, hrun₁, hrun₂⟩ := Option.bind_eq_some_iff.1 hrun
          have h₁ := hclaim.call ih hent hn hnone hrun₁
          exact h₁.call ih hent hn hbody hrun₂
        next hkind =>
          obtain ⟨d₁, hrun₁, hrun₂⟩ := Option.bind_eq_some_iff.1 hrun
          -- the state of an iteration is new
          have hnew : ∀ {q : Option NodeId}, ∀ t ∈ some (d.claimState tok p state renumber).1,
              MayOffer d.grammar n front q true t := fun t ht =>
            .inl (Option.some.inj ht ▸ hs.resolve_right fun h => h.2.2.1 hkind)
          exact (hclaim.call ih hent hn hnew hrun₁).call ih hent hn hnew hrun₂
        · obtain ⟨d₁, hrun₁, hrun₂⟩ := Option.bind_eq_some_iff.1 hrun
          obtain ⟨d₂, hrun₂, hrun₃⟩ := Option.bind_eq_some_iff.1 hrun₂
          have h₁ := hclaim.call ih hent hn hnone hrun₁
          have h₂ := h₁.call ih hent hn hbody hrun₂
          exact h₂.call ih hent hn hmore hrun₃
        · exact Option.some.inj hrun ▸ hclaim

/-! ## The second pass -/

end Draft

/-- A demanded move is one that `edge` allows; one without a target leads to a new state. -/
def Demand.Allowed (edge : StateId → StateId → Prop) (n : Nat) : Demand → Prop
  | .edge source _ _ (some target) => edge source target
  | .edge source _ _ none => ∀ target, n ≤ target → edge source target
  | .fault _ => True

theorem Demand.allowed_of_forall {edge : StateId → StateId → Prop} {n : Nat}
    (h : ∀ source target, edge source target) (demand : Demand) : demand.Allowed edge n := by
  match demand with
  | .edge source _ _ (some target) => exact h source target
  | .edge source _ _ none => exact fun target _ => h source target
  | .fault _ => trivial

namespace Draft

variable {d d' : Draft} {tok : SymbolId} {ends : StateId → Prop}
  {edge : StateId → StateId → Prop} {n : Nat} {front : NodeId → Prop} {p : NodeId} {s : StateId}

theorem edits_meet {demand : Demand} (hn : n ≤ d.machine.states.size)
    (h : demand.Allowed edge n) : Edits tok ends edge d (d.meet tok demand) := by
  cases demand with
  | fault diag => exact .single (.grammar d _)
  | edge source on part target =>
    cases target with
    | some target => exact .single (.move d on part h)
    | none =>
      exact .tail (.single (.state d fun a ha => (Option.some.inj ha).symm)) (.move _ on part (h _ hn))

theorem edits_foldl_meet {demands : List Demand} (hn : n ≤ d.machine.states.size)
    (h : ∀ demand ∈ demands, demand.Allowed edge n) :
    Edits tok ends edge d (demands.foldl (Draft.meet tok) d) := by
  induction demands generalizing d with
  | nil => exact .refl
  | cons demand demands ih =>
    obtain ⟨hfirst, hrest⟩ := List.forall_mem_cons.1 h
    have hmeet : Edits tok ends edge d (d.meet tok demand) := edits_meet hn hfirst
    exact hmeet.trans (ih (Nat.le_trans hn hmeet.size_le) hrest)

/-! ## Declaring a token -/

/-- Both passes together, for any choice of the nodes at which the structure is entered. -/
theorem edits_addToken_of (front : NodeId → Prop) (hp : (d.grammar.node p).kind ≠ .iter → front p)
    (hent : d.grammar.deletableChain (some p) = false →
      Entrance d.grammar d.machine.states.size front ends)
    (hedge : ∀ d₁, d.Places tok d.machine.states.size front ends edge d₁ →
      ∀ depth fuel demands, d₁.grammar.tokenMoves depth fuel p = some demands →
      ∀ demand ∈ demands, demand.Allowed edge d.machine.states.size) :
    Edits tok ends edge d (d.addToken p tok) := by
  unfold Draft.addToken
  split
  · exact .single (.grammar d _)
  next hdel =>
    dsimp only
    cases hrun : d.addTokenWithin _ _ p tok with
    | none => exact .refl
    | some d' =>
      obtain ⟨d₁, hassign, hrun⟩ := Option.bind_eq_some_iff.1 hrun
      obtain ⟨demands, hmoves, hrun⟩ := Option.bind_eq_some_iff.1 hrun
      have hplaces : d.Places tok d.machine.states.size front ends edge d₁ :=
        places_assignStates tok _ front ends edge _ (hent (Bool.eq_false_iff.2 hdel)) (Nat.le_refl _)
          (fun t ht => .inr ⟨(Option.some.inj ht).symm, rfl, fun q hq => Option.some.inj hq ▸ hp⟩)
          hassign
      rw [Option.getD_some, ← Option.some.inj hrun]
      exact hplaces.edits.trans (edits_foldl_meet hplaces.edits.size_le (hedge d₁ hplaces _ _ _ hmoves))

/-- Declaring any graph as a token. -/
theorem edits_addToken (d : Draft) (p : NodeId) (tok : SymbolId) :
    Edits tok (fun _ => True) (fun _ _ => True) d (d.addToken p tok) := by
  refine edits_addToken_of (fun _ => True) (fun _ => trivial) (fun _ => ?_) ?_
  · exact ⟨fun _ _ _ _ _ => trivial, fun _ _ => trivial, fun _ _ _ => trivial⟩
  · exact fun _ _ _ _ _ _ demand _ => demand.allowed_of_forall fun _ _ => trivial

/-- The nodes at which a part of a phrase is entered.  The start state does not become an end, unless
the token may be empty. -/
theorem entrance_front {e : Phrase} {k : Option NodeId} {up : Bool} (h : d.grammar.Shows e k up)
    (hnodup : e.nodes.Nodup) (hk : d.grammar.Finite e k)
    (hdel : d.grammar.deletableChain (some e.entry) = false) :
    Entrance d.grammar n (· ∈ e.front) (n ≤ ·) where
  contents _ hx _ hy hkind := h.mem_front_of_contents hx hy hkind
  ends_new _ hs := hs
  ends_start x hx hchain := by
    rw [h.deletableChain_of_mem_front hnodup hk hx hchain] at hdel
    cases hdel

/-- Declaring a token at a node of a complete structure: the token ends in new states only. -/
theorem edits_addToken_structure (h : d.grammar.InStructure p) (tok : SymbolId) :
    Edits tok (d.machine.states.size ≤ ·) (fun _ _ => True) d (d.addToken p tok) := by
  obtain ⟨e, up, hshows, hnodup, hp⟩ := h
  obtain ⟨a, k, up, ha, hnodup, hk, rfl⟩ := hshows.exists_part hnodup (hshows.finite hnodup) hp
  refine edits_addToken_of (· ∈ a.front) ha.entry_mem_front (entrance_front ha hnodup hk) ?_
  exact fun _ _ _ _ _ _ demand _ => demand.allowed_of_forall fun _ _ => trivial

/-- Declaring a complete structure without states as a token: its moves lead from the start state or
new states to new states. -/
theorem edits_addToken_whole (h : d.grammar.BeginsStructure p) (tok : SymbolId) :
    Edits tok (d.machine.states.size ≤ ·) (Forward d.machine.states.size) d (d.addToken p tok) := by
  obtain ⟨e, up, hshows, hnodup, rfl, hnone⟩ := h
  refine edits_addToken_of (· ∈ e.front) hshows.entry_mem_front
    (entrance_front hshows hnodup (hshows.finite hnodup)) ?_
  intro d₁ hplaces depth fuel demands hmoves demand hmem
  have hshows₁ := hplaces.alike.shows hshows
  -- the states of the nodes are new, except where the structure is entered
  have hstate : ∀ x ∈ e.nodes, ∀ s, (d₁.grammar.node x).state = some s →
      d.machine.states.size ≤ s ∨ s = Machine.start ∧ x ∈ e.front := by
    intro x hx s hs
    refine (hplaces.state_cases x s hs).resolve_left ?_
    rw [hnone x hx]
    nofun
  rcases Grammar.tokenMoves_sound hshows₁.mem_of_onward e.entry_mem_nodes hmoves hmem with
    ⟨diag, rfl⟩ | ⟨x, s, t, q, hx, hs, hleaves, hedge⟩
  · trivial
  have hsource : s = Machine.start ∨ d.machine.states.size ≤ s := by
    rcases hs with hs | hs
    · exact (hstate x hx s hs).symm.imp_left And.left
    · exact .inl hs.1
  -- the move begins in the state of the node or of an iteration inside
  obtain ⟨ht, hq⟩ : (t = Machine.start ∨ d.machine.states.size ≤ t) ∧ q ∈ e.nodes := by
    rcases hleaves with ⟨rfl, hpass⟩ | ⟨i, hi, _, hit, hpass⟩
    · exact ⟨hsource, hshows₁.mem_of_passes hx hpass⟩
    · have hmem := hshows₁.mem_of_passes hx hi
      exact ⟨(hstate i hmem t hit).symm.imp_left And.left, hshows₁.mem_of_passes hmem hpass⟩
  obtain ⟨⟨on, part⟩, _, rfl⟩ := Option.map_eq_some_iff.1 hedge
  cases htarget : d₁.grammar.stateAt (d₁.grammar.node q).next with
  | none => exact fun target htarget => ⟨ht, htarget⟩
  | some target =>
    -- and nothing leads back to where the structure is entered
    obtain ⟨y, hy, hys⟩ := Option.bind_eq_some_iff.1 htarget
    obtain ⟨hmem, hfront⟩ := (hshows₁.not_mem_front_of_next hnodup hq hy).resolve_right nofun
    exact ⟨ht, (hstate y hmem target hys).resolve_right fun h => hfront h.2⟩

/-! ## Declaring a literal -/

theorem edits_addPath (tok : SymbolId) (d : Draft) (hn : n ≤ d.machine.states.size)
    (hs : s = Machine.start ∨ n ≤ s) (chars : List Nat) :
    Edits tok (n ≤ ·) (Forward n) d (d.addPath tok s chars).2 ∧
      (chars ≠ [] → n ≤ (d.addPath tok s chars).1) := by
  induction chars generalizing d s with
  | nil => exact ⟨.refl, nofun⟩
  | cons c chars ih =>
    have hstep : Edits tok (n ≤ ·) (Forward n) d
        (Draft.connect { d with machine := (d.machine.addState {}).2 } tok s (.char c) .main
          d.machine.states.size) :=
      .tail (.single (.state d (by simp))) (.move _ _ _ ⟨hs, hn⟩)
    obtain ⟨hedits, hlast⟩ := ih _ (Nat.le_trans hn hstep.size_le) (.inr hn)
    refine ⟨hstep.trans hedits, fun _ => ?_⟩
    cases chars with
    | nil => exact hn
    | cons c' chars => exact hlast nofun

/-- Declaring a literal: it ends in a new state, or where another token ends already, and its moves
lead from the start state or new states to new states. -/
theorem edits_addLiteral (d : Draft) (quoted : String) (tok : SymbolId) :
    Edits tok (d.machine.states.size ≤ ·) (Forward d.machine.states.size) d
      (d.addLiteral quoted tok) := by
  unfold Draft.addLiteral
  dsimp only
  split
  · exact .tail (.single (.grammar d _)) (.grammar _ _)
  next hempty =>
    split
    next => exact .tail (.single (.grammar d _)) (.grammar _ _)
    next grammar hadd =>
      have hchars : (d.grammar.readQuoted quoted).1.toList.map Char.toNat ≠ [] := by
        simpa using hempty
      have hgrammar : Edits tok (d.machine.states.size ≤ ·) (Forward d.machine.states.size) d
          { d with grammar } := .single (.grammar d grammar)
      generalize (d.grammar.readQuoted quoted).1.toList.map Char.toNat = chars at hchars
      unfold Draft.placeLiteral
      dsimp only
      split
      next s part hknown =>
        -- the literal shares an end, so no end is added
        obtain ⟨_, hend⟩ := Option.filter_eq_some_iff.1 hknown
        obtain ⟨matched, hmatched⟩ := Option.isSome_iff_exists.1 hend
        unfold Draft.endLiteral
        dsimp only at hmatched ⊢
        rw [hmatched]
        dsimp only
        split
        · exact .tail hgrammar (.grammar _ _)
        · exact .tail hgrammar (.grammar _ _)
      next =>
        obtain ⟨hpath, hlast⟩ := edits_addPath tok { d with grammar } (Nat.le_refl _) (.inl rfl) chars
        unfold Draft.endLiteral
        split
        · exact hgrammar.trans (hpath.tail (.final _ (hlast hchars)))
        · split
          · exact hgrammar.trans (hpath.tail (.grammar _ _))
          · exact hgrammar.trans (hpath.tail (.grammar _ _))

end Draft

end Ebnf
