import Ebnf.Machine.Literal
import Ebnf.Proofs.Grammar.Nodes
import Ebnf.Proofs.Machine.Moves
import Ebnf.Proofs.Machine.Reach

/-!
# Machines that are built by declarations

A machine grows by token structures and literals, while the grammar grows by
whatever is declared between them.  On the way the moves refer to declared
classes and states only.

Main results:

- Theorems `Draft.Sound.assignStates` and `Grammar.Fit.moves`: both passes over a
  token structure keep within the classes and states that there are.
- Theorem `Draft.Built.wellFormed`: so does every machine that declarations build.
-/

namespace Ebnf

/-! ## Grammars that fit a machine -/

/-- The node has no state yet, and if it refers to a class, to one of the first `classes`. -/
def Node.isFresh (classes : Nat) (node : Node) : Bool :=
  node.state.isNone && match node.kind with
    | .cls id _ => decide (id < classes)
    | _ => true

namespace Grammar

variable {g : Grammar} {n n' : Nat}

/-- The classes are canonical, the nodes refer to declared classes, and to states below `n`. -/
structure Fit (g : Grammar) (n : Nat) : Prop where
  canonical : g.CanonicalClasses
  class_lt : ∀ p id part, (g.node p).kind = .cls id part → id < g.classes.size
  state_lt : ∀ p s, (g.node p).state = some s → s < n

theorem fit_of_isFresh (hcanonical : g.CanonicalClasses)
    (h : g.nodes.toList.all (Node.isFresh g.classes.size) = true) : g.Fit n := by
  have hfresh : ∀ p, (g.node p).isFresh g.classes.size = true := by
    intro p
    by_cases hp : p < g.nodes.size
    · refine List.all_eq_true.1 h _ ?_
      simp [node, hp]
    · rw [node_of_size_le (Nat.not_lt.1 hp)]
      rfl
  refine ⟨hcanonical, fun p id part hkind => ?_, fun p s hs => ?_⟩
  · have hp := (Bool.and_eq_true_iff.1 (hfresh p)).2
    rw [hkind] at hp
    exact of_decide_eq_true hp
  · have hp := (Bool.and_eq_true_iff.1 (hfresh p)).1
    rw [hs] at hp
    cases hp

theorem Fit.mono (h : g.Fit n) (hle : n ≤ n') : g.Fit n' :=
  ⟨h.canonical, h.class_lt, fun p s hs => Nat.lt_of_lt_of_le (h.state_lt p s hs) hle⟩

theorem Fit.modifyNode {p : NodeId} {s : StateId} (h : g.Fit n) (hs : s < n) :
    (g.modifyNode p fun node => { node with state := some s }).Fit n := by
  refine ⟨h.canonical, fun q id part hkind => ?_, fun q t ht => ?_⟩
  · rw [node_modifyNode] at hkind
    split at hkind
    · exact h.class_lt q id part hkind
    · exact h.class_lt q id part hkind
  · rw [node_modifyNode] at ht
    split at ht
    · exact Option.some.inj ht ▸ hs
    · exact h.state_lt q t ht

end Grammar

/-- A demand refers to a class and a state that there are. -/
def Demand.Fits (g : Grammar) (n : Nat) : Demand → Prop
  | .edge _ on _ target => g.Knows on ∧ ∀ t ∈ target, t < n
  | .fault _ => True

namespace Grammar

variable {g : Grammar} {n : Nat}

theorem Fit.stateAt (h : g.Fit n) (p : Option NodeId) : ∀ t ∈ g.stateAt p, t < n := by
  intro t ht
  obtain ⟨q, _, hstate⟩ := Option.bind_eq_some_iff.1 ht
  exact h.state_lt q t hstate

theorem Fit.edgeAt {s : StateId} {q : NodeId} {demand : Demand} (h : g.Fit n)
    (hedge : g.edgeAt s q = some demand) : demand.Fits g n := by
  obtain ⟨⟨on, part⟩, hreads, rfl⟩ := Option.map_eq_some_iff.1 hedge
  refine ⟨?_, h.stateAt _⟩
  unfold NodeKind.reads? at hreads
  split at hreads
  next id part hkind =>
    cases hreads
    exact h.class_lt q id part hkind
  next =>
    cases hreads
    trivial
  next => cases hreads

/-- The moves of a whole token structure fit. -/
theorem Fit.tokenMoves (h : g.Fit n) {depth fuel : Nat} {p : NodeId} {demands : List Demand}
    (hrun : g.tokenMoves depth fuel p = some demands) : ∀ demand ∈ demands, demand.Fits g n := by
  intro demand hmem
  rcases tokenMoves_sound (P := fun _ => True) (fun _ _ _ _ _ _ => trivial) trivial hrun hmem with
    ⟨diag, rfl⟩ | ⟨_, _, _, _, _, _, _, hedge⟩
  · trivial
  · exact h.edgeAt hedge

end Grammar

/-! ## Steps that keep a machine sound -/

namespace Draft

variable {d d' d'' : Draft} {tok : SymbolId}

/-- The machine is well formed, and the grammar fits it. -/
structure Sound (d : Draft) : Prop where
  wellFormed : d.WellFormed
  fit : d.grammar.Fit d.machine.states.size

/-- `d'` is a sound draft that has the classes and states of `d` and maybe more. -/
structure Extends (d d' : Draft) : Prop where
  sound : d'.Sound
  size_le : d.machine.states.size ≤ d'.machine.states.size
  classes_eq : d'.grammar.classes = d.grammar.classes

theorem Extends.refl (h : d.Sound) : d.Extends d :=
  ⟨h, Nat.le_refl _, rfl⟩

theorem Extends.trans (h : d.Extends d') (h' : d'.Extends d'') : d.Extends d'' :=
  ⟨h'.sound, Nat.le_trans h.size_le h'.size_le, h'.classes_eq.trans h.classes_eq⟩

theorem Extends.fits {demand : Demand} (h : d.Extends d')
    (hfits : demand.Fits d.grammar d.machine.states.size) :
    demand.Fits d'.grammar d'.machine.states.size := by
  cases demand with
  | fault diag => trivial
  | edge source on part target =>
    refine ⟨?_, fun t ht => Nat.lt_of_lt_of_le (hfits.2 t ht) h.size_le⟩
    cases on with
    | cls id => exact Nat.lt_of_lt_of_eq hfits.1 (congrArg Array.size h.classes_eq).symm
    | char c => trivial

/-- Another grammar with the same classes and nodes. -/
theorem Sound.withGrammar {g : Grammar} (h : d.Sound) (hclasses : g.classes = d.grammar.classes)
    (hnodes : g.nodes = d.grammar.nodes) : d.Extends { d with grammar := g } := by
  have hnode : ∀ p, g.node p = d.grammar.node p := fun p => by rw [Grammar.node, hnodes]; rfl
  have hclass : ∀ id, g.charClass id = d.grammar.charClass id := fun id => by
    rw [Grammar.charClass, hclasses]; rfl
  have hsize : g.classes.size = d.grammar.classes.size := congrArg Array.size hclasses
  have hcanonical : g.CanonicalClasses := fun id => hclass id ▸ h.fit.canonical id
  refine ⟨⟨⟨hcanonical, fun s m hm => ?_, h.wellFormed.target_lt, h.wellFormed.size_pos⟩, hcanonical,
    fun p id part hkind => ?_, fun p s hs => ?_⟩, Nat.le_refl _, hclasses⟩
  · have hknows := h.wellFormed.knows s m hm
    cases hon : m.on with
    | cls id =>
      rw [hon] at hknows
      exact Nat.lt_of_lt_of_eq hknows hsize.symm
    | char c => trivial
  · rw [hsize]
    exact h.fit.class_lt p id part (hnode p ▸ hkind)
  · exact h.fit.state_lt p s (hnode p ▸ hs)

theorem Sound.report (h : d.Sound) (diag : Diagnostic) : d.Extends (d.report diag) :=
  h.withGrammar rfl rfl

/-- Another machine with at least as many states, whose further moves fit. -/
theorem Sound.withMachine {machine : Machine} (h : d.Sound)
    (hsize : d.machine.states.size ≤ machine.states.size)
    (hmoves : ∀ s, ∀ m ∈ (machine.state s).moves, m ∈ (d.machine.state s).moves ∨
      d.grammar.Knows m.on ∧ ∀ t ∈ m.targets, t < machine.states.size) :
    d.Extends { d with machine } := by
  refine ⟨⟨⟨h.fit.canonical, fun s m hm => ?_, fun s m hm t ht => ?_, ?_⟩, h.fit.mono hsize⟩, hsize,
    rfl⟩
  · rcases hmoves s m hm with hm | hfits
    · exact h.wellFormed.knows s m hm
    · exact hfits.1
  · rcases hmoves s m hm with hm | hfits
    · exact Nat.lt_of_lt_of_le (h.wellFormed.target_lt s m hm t ht) hsize
    · exact hfits.2 t ht
  · exact Nat.lt_of_lt_of_le h.wellFormed.size_pos hsize

/-- A new state without moves. -/
theorem Sound.addState {st : MachineState} (h : d.Sound) (hmoves : st.moves = []) :
    d.Extends { d with machine := (d.machine.addState st).2 } := by
  refine h.withMachine ?_ fun s m hm => ?_
  · rw [Machine.size_addState]
    exact Nat.le_succ _
  · rw [Machine.state_addState] at hm
    split at hm
    · rw [hmoves] at hm
      cases hm
    · exact .inl hm

/-- One state is changed without changing its moves. -/
theorem Sound.modifyState {s : StateId} {f : MachineState → MachineState} (h : d.Sound)
    (hf : ∀ st, (f st).moves = st.moves) :
    d.Extends { d with machine := d.machine.modifyState s f } := by
  refine h.withMachine (Nat.le_of_eq Machine.size_modifyState.symm) fun t m hm => .inl ?_
  rw [Machine.state_modifyState] at hm
  split at hm
  · rwa [hf] at hm
  · exact hm

/-- A new move on a known class to a state that there is. -/
theorem Sound.connect {target : StateId} (h : d.Sound) (tok : SymbolId) (source : StateId)
    (on : Trigger) (part : Part) (hon : d.grammar.Knows on) (htarget : target < d.machine.states.size) :
    d.Extends (d.connect tok source on part target) := by
  have hmove : d.Extends { d with machine := (d.connect tok source on part target).machine } := by
    have hsize : (d.connect tok source on part target).machine.states.size =
      d.machine.states.size := Machine.size_modifyState
    refine h.withMachine (Nat.le_of_eq hsize.symm) fun s m hm => ?_
    rw [hsize]
    change m ∈ ((d.machine.modifyState source fun s =>
      { s with moves := addMove s.moves ⟨on, part, .singleton target⟩ }).state s).moves at hm
    rw [Machine.state_modifyState] at hm
    split at hm
    · rcases Grammar.mem_addMove.1 hm with rfl | hm
      · exact .inr ⟨hon, fun t ht => BitSet.mem_singleton.1 ht ▸ htarget⟩
      · exact .inl hm
    · exact .inl hm
  refine hmove.trans (hmove.sound.withGrammar ?_ ?_)
  · unfold Draft.connect
    dsimp only
    split <;> rfl
  · unfold Draft.connect
    dsimp only
    split <;> rfl

/-! ## Declaring a token -/

/-- Gives the state `s` to the node `p`.  The token ends there if nothing has to follow. -/
def settle (d : Draft) (tok : SymbolId) (p : NodeId) (s : StateId) : Draft :=
  { machine := if d.grammar.deletableChain (some p) then
      d.machine.modifyState s fun st => { st with endOf := some tok }
    else d.machine
    grammar := d.grammar.modifyNode p fun n => { n with state := some s } }

/-- The draft with a new state. -/
def withState (d : Draft) : Draft :=
  { d with machine := (d.machine.addState {}).2 }

/-- Whether an iteration must not share the state that is offered. -/
def refuses (d : Draft) (p : NodeId) (renumber : Bool) : Prop :=
  (d.grammar.node p).kind = .iter ∧ renumber = true

theorem claimState_shared {p : NodeId} {s : StateId} {renumber : Bool}
    (h : ¬ d.refuses p renumber) :
    d.claimState tok p (some s) renumber = (s, d.settle tok p s) := by
  unfold refuses at h
  simp only [claimState, h, if_false]
  rfl

theorem claimState_fresh {p : NodeId} {state : Option StateId} {renumber : Bool}
    (h : state = none ∨ d.refuses p renumber) :
    d.claimState tok p state renumber =
      (d.machine.states.size, d.withState.settle tok p d.machine.states.size) := by
  have hnone : (if (d.grammar.node p).kind = .iter ∧ renumber = true then none else state) = none := by
    rcases h with rfl | h
    · split <;> rfl
    · exact if_pos h
  simp only [claimState, hnone]
  rfl

theorem Sound.settle {s : StateId} (h : d.Sound) (tok : SymbolId) (p : NodeId)
    (hs : s < d.machine.states.size) :
    d.Extends (d.settle tok p s) := by
  have hmachine : d.Extends { d with machine := (d.settle tok p s).machine } := by
    unfold Draft.settle
    dsimp only
    split
    · exact h.modifyState fun _ => rfl
    · exact .refl h
  have hsize : s < (d.settle tok p s).machine.states.size := Nat.lt_of_lt_of_le hs hmachine.size_le
  exact ⟨⟨⟨h.fit.canonical, hmachine.sound.wellFormed.knows, hmachine.sound.wellFormed.target_lt,
    hmachine.sound.wellFormed.size_pos⟩, hmachine.sound.fit.modifyNode hsize⟩, hmachine.size_le, rfl⟩

/-- A node gets a state that there is, or a new one. -/
theorem Sound.claimState {state : Option StateId} (h : d.Sound) (tok : SymbolId) (p : NodeId)
    (renumber : Bool) (hstate : ∀ s ∈ state, s < d.machine.states.size) :
    d.Extends (d.claimState tok p state renumber).2 ∧
      (d.claimState tok p state renumber).1 <
        (d.claimState tok p state renumber).2.machine.states.size := by
  by_cases hfresh : state = none ∨ d.refuses p renumber
  · rw [claimState_fresh hfresh]
    have hnew : d.Extends d.withState := h.addState rfl
    have hlt : d.machine.states.size < d.withState.machine.states.size :=
      Nat.lt_of_lt_of_eq (Nat.lt_succ_self _) Machine.size_addState.symm
    have hsettle := hnew.sound.settle tok p hlt
    exact ⟨hnew.trans hsettle, Nat.lt_of_lt_of_le hlt hsettle.size_le⟩
  · rw [not_or] at hfresh
    obtain ⟨s, rfl⟩ := Option.ne_none_iff_exists'.1 hfresh.1
    rw [claimState_shared hfresh.2]
    have hsettle := h.settle tok p (hstate s rfl)
    exact ⟨hsettle, Nat.lt_of_lt_of_le (hstate s rfl) hsettle.size_le⟩

theorem Sound.assignStates {fuel : Nat} {p : Option NodeId} {state : Option StateId}
    {renumber : Bool} (h : d.Sound) (hstate : ∀ s ∈ state, s < d.machine.states.size)
    (hrun : assignStates tok fuel p state renumber d = some d') : d.Extends d' := by
  induction fuel generalizing p state renumber d d' with
  | zero =>
    cases p with
    | none => exact Option.some.inj hrun ▸ .refl h
    | some p =>
      rw [Draft.assignStates] at hrun
      split at hrun
      · exact Option.some.inj hrun ▸ .refl h
      · cases hrun
  | succ fuel ih =>
    cases p with
    | none => exact Option.some.inj hrun ▸ .refl h
    | some p =>
      rw [Draft.assignStates] at hrun
      dsimp only at hrun
      split at hrun
      · exact Option.some.inj hrun ▸ .refl h
      · obtain ⟨hclaim, hs⟩ := h.claimState tok p renumber hstate
        have hnone : ∀ {n : Nat}, ∀ s ∈ (none : Option StateId), s < n := by simp
        have hsome : ∀ {d'' : Draft}, (d.claimState tok p state renumber).2.Extends d'' →
            ∀ s ∈ some (d.claimState tok p state renumber).1, s < d''.machine.states.size := by
          intro d'' hext s hmem
          exact Option.some.inj hmem ▸ Nat.lt_of_lt_of_le hs hext.size_le
        split at hrun
        · exact hclaim.trans (ih hclaim.sound hnone hrun)
        · exact hclaim.trans (ih hclaim.sound hnone hrun)
        · obtain ⟨d₁, hrun₁, hrun₂⟩ := Option.bind_eq_some_iff.1 hrun
          have h₁ := ih hclaim.sound hnone hrun₁
          exact hclaim.trans (h₁.trans (ih h₁.sound (hsome h₁) hrun₂))
        · obtain ⟨d₁, hrun₁, hrun₂⟩ := Option.bind_eq_some_iff.1 hrun
          have h₁ := ih hclaim.sound (hsome (.refl hclaim.sound)) hrun₁
          exact hclaim.trans (h₁.trans (ih h₁.sound (hsome h₁) hrun₂))
        · obtain ⟨d₁, hrun₁, hrun₂⟩ := Option.bind_eq_some_iff.1 hrun
          obtain ⟨d₂, hrun₂, hrun₃⟩ := Option.bind_eq_some_iff.1 hrun₂
          have h₁ := ih hclaim.sound hnone hrun₁
          have h₂ := h₁.trans (ih h₁.sound (hsome h₁) hrun₂)
          exact hclaim.trans (h₂.trans (ih h₂.sound (hsome h₂) hrun₃))
        · exact Option.some.inj hrun ▸ hclaim

/-- What a token structure asks for is done. -/
theorem Sound.meet {demand : Demand} (h : d.Sound) (tok : SymbolId)
    (hfits : demand.Fits d.grammar d.machine.states.size) : d.Extends (d.meet tok demand) := by
  cases demand with
  | fault diag => exact h.report diag
  | edge source on part target =>
    cases target with
    | some target => exact h.connect tok source on part hfits.1 (hfits.2 target rfl)
    | none =>
      have hfinal : d.Extends (d.addFinal tok).2 := h.addState rfl
      refine hfinal.trans (hfinal.sound.connect tok source on part hfits.1 ?_)
      exact Nat.lt_of_lt_of_eq (Nat.lt_succ_self _) Machine.size_addState.symm

theorem Sound.foldl_meet {demands : List Demand} (h : d.Sound)
    (hfits : ∀ demand ∈ demands, demand.Fits d.grammar d.machine.states.size) :
    d.Extends (demands.foldl (Draft.meet tok) d) := by
  induction demands generalizing d with
  | nil => exact .refl h
  | cons demand demands ih =>
    obtain ⟨hfirst, hrest⟩ := List.forall_mem_cons.1 hfits
    have hmeet := h.meet tok hfirst
    exact hmeet.trans (ih hmeet.sound fun demand hmem => hmeet.fits (hrest demand hmem))

theorem Sound.addToken (h : d.Sound) (p : NodeId) (tok : SymbolId) : d.Extends (d.addToken p tok) := by
  unfold Draft.addToken
  split
  · exact h.report _
  · dsimp only
    cases hrun : d.addTokenWithin _ _ p tok with
    | none => exact .refl h
    | some d' =>
      obtain ⟨d₁, hassign, hrun⟩ := Option.bind_eq_some_iff.1 hrun
      obtain ⟨demands, hmoves, hrun⟩ := Option.bind_eq_some_iff.1 hrun
      have hfirst := h.assignStates (fun s hs => Option.some.inj hs ▸ h.wellFormed.size_pos) hassign
      rw [Option.getD_some, ← Option.some.inj hrun]
      exact hfirst.trans (hfirst.sound.foldl_meet (hfirst.sound.fit.tokenMoves hmoves))

/-! ## Declaring a literal -/

theorem Sound.addPath (h : d.Sound) (tok : SymbolId) (s : StateId) (chars : List Nat) :
    d.Extends (d.addPath tok s chars).2 := by
  induction chars generalizing d s with
  | nil => exact .refl h
  | cons c chars ih =>
    have hstate : d.Extends { d with machine := (d.machine.addState {}).2 } := h.addState rfl
    have hmove := hstate.sound.connect tok s (.char c) .main trivial
      (Nat.lt_of_lt_of_eq (Nat.lt_succ_self _) Machine.size_addState.symm)
    exact hstate.trans (hmove.trans (ih hmove.sound _))

theorem Sound.placeLiteral (h : d.Sound) (tok : SymbolId) (chars : List Nat) :
    d.Extends (d.placeLiteral tok chars).2.2 := by
  unfold Draft.placeLiteral
  dsimp only
  split
  · exact .refl h
  · exact h.addPath tok Machine.start chars

theorem Sound.endLiteral (h : d.Sound) (tok : SymbolId) (s : StateId) (part : Option Part) :
    d.Extends (d.endLiteral tok s part) := by
  unfold Draft.endLiteral
  split
  · exact h.modifyState fun _ => rfl
  · split
    · exact h.report _
    · exact h.withGrammar rfl rfl

theorem Sound.addLiteral (h : d.Sound) (quoted : String) (tok : SymbolId) :
    d.Extends (d.addLiteral quoted tok) := by
  have hread : d.Extends { d with grammar := (d.grammar.readQuoted quoted).2 } :=
    h.withGrammar rfl rfl
  unfold Draft.addLiteral
  dsimp only
  split
  · exact hread.trans (hread.sound.report _)
  · split
    next => exact hread.trans (hread.sound.report _)
    next grammar hadd =>
      have hadded : d.Extends { d with grammar } := by
        rw [(Grammar.addLiteral?_eq_some hadd).2]
        exact h.withGrammar rfl rfl
      have hplaced := hadded.trans (hadded.sound.placeLiteral tok
        ((d.grammar.readQuoted quoted).1.toList.map Char.toNat))
      generalize Draft.placeLiteral _ tok _ = r at hplaced ⊢
      exact hplaced.trans (hplaced.sound.endLiteral tok r.1 r.2.1)

/-! ## All declarations -/

/-- The machine without tokens. -/
theorem Sound.initial {g : Grammar} (hfit : g.Fit 1) : (⟨.initial, g⟩ : Draft).Sound := by
  have hmoves : ∀ s, (Machine.initial.state s).moves = [] := by
    intro s
    cases s <;> rfl
  refine ⟨⟨hfit.canonical, fun s m hm => ?_, fun s m hm => ?_, Nat.one_pos⟩, hfit⟩
  · exact (List.not_mem_nil (hmoves s ▸ hm)).elim
  · exact (List.not_mem_nil (hmoves s ▸ hm)).elim

/-- Another grammar that fits and has at least as many classes. -/
theorem Sound.revise {g : Grammar} (h : d.Sound) (hfit : g.Fit d.machine.states.size)
    (hclasses : d.grammar.classes.size ≤ g.classes.size) : Sound { d with grammar := g } := by
  refine ⟨⟨hfit.canonical, fun s m hm => ?_, h.wellFormed.target_lt, h.wellFormed.size_pos⟩, hfit⟩
  have hknows := h.wellFormed.knows s m hm
  cases hon : m.on with
  | cls id =>
    rw [hon] at hknows
    exact Nat.lt_of_lt_of_le hknows hclasses
  | char c => trivial

/-- The drafts that arise from the machine without tokens by declaring tokens and literals, while
the grammar grows in any way that fits. -/
inductive Built : Draft → Prop
  | initial {g : Grammar} (hfit : g.Fit 1) : Built ⟨.initial, g⟩
  | token {d : Draft} (h : Built d) (p : NodeId) (tok : SymbolId) : Built (d.addToken p tok)
  | literal {d : Draft} (h : Built d) (quoted : String) (tok : SymbolId) :
      Built (d.addLiteral quoted tok)
  /-- other declarations in between: classes are only added, and nodes refer to what there is -/
  | revise {d : Draft} (h : Built d) {g : Grammar} (hfit : g.Fit d.machine.states.size)
      (hclasses : d.grammar.classes.size ≤ g.classes.size) : Built { d with grammar := g }

theorem Built.sound (h : d.Built) : d.Sound := by
  induction h with
  | initial hfit => exact .initial hfit
  | token _ p tok ih => exact (ih.addToken p tok).sound
  | literal _ quoted tok ih => exact (ih.addLiteral quoted tok).sound
  | revise _ hfit hclasses ih => exact ih.revise hfit hclasses

end Draft

end Ebnf
