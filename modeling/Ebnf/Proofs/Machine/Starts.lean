import Ebnf.Proofs.Machine.Moves
import Ebnf.Proofs.Phrase.Chain

/-!
# Where the states of a phrase begin

The second pass enters what follows a phrase from the first end of the phrase
that it meets.  If this end is an iteration, it goes on as if the state of the
iteration went on, and later ends do not enter there again.

Main results:

- Theorem `Grammar.visitsChain`: the pass over a chain of phrases succeeds, and
  collects the moves that leave at the nodes in `Phrase.starts`.
- Theorem `Grammar.Shows.starts_behind`: what follows a leaf begins a state, unless
  the leaf is stranded.
-/

namespace Ebnf

namespace Phrase

/-- Whether the first end that is met is an iteration. -/
def endsInLoop : Phrase → Bool
  | leaf _ | opt _ _ => false
  | seq _ b => b.endsInLoop
  | arm _ e | alt _ e _ => e.endsInLoop
  | iter _ _ => true

/-- Whether the first node is an iteration. -/
def beginsWithLoop : Phrase → Bool
  | seq a _ => a.beginsWithLoop
  | iter _ _ => true
  | _ => false

/-- The nodes at which a state begins.  `own` says whether one begins at the first node. -/
def starts : Bool → Phrase → List NodeId
  | own, leaf p => if own then [p] else []
  | own, seq a b => a.starts own ++ b.starts (!a.endsInLoop)
  | own, arm p e | own, opt p e | own, iter p e => (if own then [p] else []) ++ e.starts false
  | own, alt p e r => (if own then [p] else []) ++ (e.starts false ++ r.starts false)

/-- The leaves that lead to what follows. -/
def leafExits : Phrase → List NodeId
  | leaf p => [p]
  | seq _ b => b.leafExits
  | arm _ e | opt _ e => e.leafExits
  | alt _ e r => e.leafExits ++ r.leafExits
  | iter _ _ => []

/-- The leaves behind which no state begins: what they lead to is first met behind an iteration, and
is none itself. -/
def stranded : Phrase → List NodeId
  | leaf _ => []
  | seq a b => a.stranded ++ b.stranded ++
      (if a.endsInLoop && !b.beginsWithLoop then a.leafExits else [])
  | arm _ e | opt _ e | iter _ e => e.stranded
  | alt _ e r => e.stranded ++ r.stranded

variable {e : Phrase} {own : Bool} {p : NodeId}

theorem mem_nodes_of_mem_starts (h : p ∈ e.starts own) : p ∈ e.nodes := by
  induction e generalizing own with
  | leaf q => cases own <;> simp_all [starts, nodes]
  | seq a b iha ihb =>
    rcases List.mem_append.1 h with h | h
    · exact List.mem_append_left _ (iha h)
    · exact List.mem_append_right _ (ihb h)
  | arm q e ih | opt q e ih | iter q e ih =>
    rcases List.mem_append.1 h with h | h
    · cases own <;> simp_all [nodes]
    · exact List.mem_cons_of_mem q (ih h)
  | alt q e r ihe ihr =>
    rcases List.mem_append.1 h with h | h
    · cases own <;> simp_all [nodes]
    · rcases List.mem_append.1 h with h | h
      · exact List.mem_cons_of_mem q (List.mem_append_left _ (ihe h))
      · exact List.mem_cons_of_mem q (List.mem_append_right _ (ihr h))

theorem entry_mem_starts (hnodup : e.nodes.Nodup) : e.entry ∈ e.starts own ↔ own = true := by
  induction e generalizing own with
  | leaf q => cases own <;> simp [starts, entry]
  | seq a b iha ihb =>
    obtain ⟨ha, _, hdisjoint⟩ := List.nodup_append'.1 hnodup
    have hb : a.entry ∉ b.starts (!a.endsInLoop) := fun h =>
      hdisjoint a.entry_mem_nodes (mem_nodes_of_mem_starts h)
    rw [starts, entry, List.mem_append, iha ha, or_iff_left hb]
  | arm q e ih | opt q e ih | iter q e ih =>
    have he : q ∉ e.starts false := fun h =>
      (List.nodup_cons.1 hnodup).1 (mem_nodes_of_mem_starts h)
    rw [starts, entry, List.mem_append, or_iff_left he]
    cases own <;> simp
  | alt q e r ihe ihr =>
    have her : q ∉ e.starts false ++ r.starts false := fun h =>
      (List.nodup_cons.1 hnodup).1 (List.mem_append.2
        ((List.mem_append.1 h).imp mem_nodes_of_mem_starts mem_nodes_of_mem_starts))
    rw [starts, entry, List.mem_append, or_iff_left her]
    cases own <;> simp

theorem mem_exits_of_mem_leafExits (h : p ∈ e.leafExits) : p ∈ e.exits := by
  induction e with
  | leaf q => exact h
  | seq a b _ ihb => exact ihb h
  | arm q e ih | opt q e ih => exact List.mem_cons_of_mem q (ih h)
  | alt q e r ihe ihr =>
    exact List.mem_cons_of_mem q (List.mem_append.2 ((List.mem_append.1 h).imp ihe ihr))
  | iter q e => cases h

theorem mem_nodes_of_mem_stranded (h : p ∈ e.stranded) : p ∈ e.nodes := by
  induction e with
  | leaf q => cases h
  | seq a b iha ihb =>
    rcases List.mem_append.1 h with h | h
    · exact List.mem_append.2 ((List.mem_append.1 h).imp iha ihb)
    · split at h
      · exact List.mem_append_left _ (mem_nodes_of_mem_exits (mem_exits_of_mem_leafExits h))
      · cases h
  | arm q e ih | opt q e ih | iter q e ih => exact List.mem_cons_of_mem q (ih h)
  | alt q e r ihe ihr =>
    exact List.mem_cons_of_mem q (List.mem_append.2 ((List.mem_append.1 h).imp ihe ihr))

end Phrase

namespace Grammar

variable {g : Grammar} {depth fuel : Nat} {e : Phrase} {es : List Phrase} {k : Option NodeId}
  {up own : Bool} {p : NodeId} {marked marked' : BitSet} {demands : List Demand}

/-! ## The pass over a chain -/

/-- The nodes of a chain at which a state begins. -/
def chainStarts : Bool → List Phrase → List NodeId
  | _, [] => []
  | own, e :: es => e.starts own ++ chainStarts (!e.endsInLoop) es

/-- The move is among those that leave the state of the node `x`. -/
def CollectedAt (g : Grammar) (depth : Nat) (demand : Demand) (x : NodeId) : Prop :=
  ∃ s ds passed, (g.node x).state = some s ∧ g.leaving depth s (some x) ∅ = some (ds, passed) ∧
    demand ∈ ds

/-- What a visit has to do: mark the nodes `xs` and collect the moves that leave at the nodes in
`starts`. -/
structure Gathers (g : Grammar) (depth : Nat) (marked : BitSet) (xs starts : List NodeId)
    (demands : List Demand) (marked' : BitSet) : Prop where
  mem_marked : ∀ x, x ∈ marked' ↔ x ∈ marked ∨ x ∈ xs
  mem_demands : ∀ demand, demand ∈ demands ↔ ∃ x ∈ starts, g.CollectedAt depth demand x

/-- The nodes of a chain are not marked yet, while what follows is. -/
structure Unmarked (g : Grammar) (depth : Nat) (k : Option NodeId) (es : List Phrase)
    (marked : BitSet) : Prop where
  shows_chain : g.ShowsChain k es
  reads : ∀ e ∈ es, e.ReadsAll g
  nodup : (chainNodes es).Nodup
  not_mem : ∀ x ∈ chainNodes es, x ∉ marked
  behind : ∀ y ∈ k, y ∈ marked
  state : ∀ x ∈ chainNodes es, ∃ s, (g.node x).state = some s ∧
    (g.leaving depth s (some x) ∅).isSome = true

/-- A visit of a chain does what it has to do. -/
def VisitsChain (g : Grammar) (depth fuel : Nat) (k : Option NodeId) (es : List Phrase) (own : Bool)
    (marked : BitSet) : Prop :=
  ∃ demands marked', g.moves depth fuel (chainEntry k es) own marked = some (demands, marked') ∧
    g.Gathers depth marked (chainNodes es) (chainStarts own es) demands marked'

theorem visitsChain_nil (h : g.Unmarked depth k [] marked) :
    g.VisitsChain depth fuel k [] own marked := by
  refine ⟨[], marked, ?_, by simp, by simp [chainStarts]⟩
  cases k with
  | none => cases fuel <;> rfl
  | some y =>
    have hy : marked.contains y = true := h.behind y rfl
    cases fuel <;> simp [chainEntry, moves, hy]

/-- The moves collected at a node itself. -/
theorem exists_begins {s : StateId} (own : Bool) (hstate : (g.node p).state = some s)
    (hrun : (g.leaving depth s (some p) ∅).isSome = true) :
    ∃ here, g.Begins depth p own here ∧
      ∀ demand, demand ∈ here ↔ ∃ x ∈ (if own then [p] else []), g.CollectedAt depth demand x := by
  obtain ⟨⟨ds, passed⟩, hrun⟩ := Option.isSome_iff_exists.1 hrun
  cases own with
  | false => exact ⟨[], .nothing (.inl rfl), by simp⟩
  | true =>
    refine ⟨ds, .state hstate hrun, fun demand => ?_⟩
    simp only [if_true, List.mem_singleton, exists_eq_left]
    constructor
    · exact fun hmem => ⟨s, ds, passed, hstate, hrun, hmem⟩
    · rintro ⟨t, ds', passed', hstate', hrun', hmem⟩
      obtain rfl := Option.some.inj (hstate.symm.trans hstate')
      obtain ⟨rfl, _⟩ := Prod.mk.inj (Option.some.inj (hrun.symm.trans hrun'))
      exact hmem

theorem Gathers.refl (g : Grammar) (depth : Nat) (marked : BitSet) :
    g.Gathers depth marked [] [] [] marked :=
  ⟨by simp, by simp⟩

/-- What a node and at most two visits that follow it do together. -/
theorem Gathers.node {xs xs₁ xs₂ starts starts₀ starts₁ starts₂ : List NodeId}
    {here demands₁ demands₂ : List Demand} {marked₁ marked₂ : BitSet}
    (hhere : ∀ demand, demand ∈ here ↔ ∃ x ∈ starts₀, g.CollectedAt depth demand x)
    (h₁ : g.Gathers depth (marked.insert p) xs₁ starts₁ demands₁ marked₁)
    (h₂ : g.Gathers depth marked₁ xs₂ starts₂ demands₂ marked₂)
    (hxs : ∀ x, x ∈ xs ↔ x = p ∨ x ∈ xs₁ ∨ x ∈ xs₂)
    (hstarts : ∀ x, x ∈ starts ↔ x ∈ starts₀ ∨ x ∈ starts₁ ∨ x ∈ starts₂) :
    g.Gathers depth marked xs starts (here ++ (demands₁ ++ (demands₂ ++ []))) marked₂ := by
  refine ⟨fun x => ?_, fun demand => ?_⟩
  · rw [h₂.mem_marked, h₁.mem_marked, BitSet.mem_insert, hxs, or_comm (a := x = p), or_assoc,
      or_assoc]
  · simp only [List.mem_append, hhere, h₁.mem_demands, h₂.mem_demands, hstarts, or_and_right,
      exists_or, List.not_mem_nil, or_false]

/-- A part of a chain is not marked yet when only other parts are. -/
theorem Unmarked.part {k' : Option NodeId} {fs : List Phrase} (ys : List NodeId)
    (h : g.Unmarked depth k es marked) (hshows : g.ShowsChain k' fs)
    (hreads : ∀ e ∈ fs, e.ReadsAll g) (hnodup : (chainNodes fs).Nodup)
    (hsub : ∀ x ∈ chainNodes fs, x ∈ chainNodes es) (hmarked : ∀ x ∈ marked', x ∈ marked ∨ x ∈ ys)
    (hdisjoint : ys.Disjoint (chainNodes fs)) (hk : ∀ y ∈ k', y ∈ marked') :
    g.Unmarked depth k' fs marked' where
  shows_chain := hshows
  reads := hreads
  nodup := hnodup
  not_mem x hx hmem := (hmarked x hmem).elim (h.not_mem x (hsub x hx)) fun hy => hdisjoint hy hx
  behind := hk
  state x hx := h.state x (hsub x hx)

theorem onward_of_reads (h : (g.node p).kind.reads?.isSome = true) :
    (g.node p).onward = [((g.node p).next, true)] := by
  unfold Node.onward
  cases hk : (g.node p).kind <;> simp_all [NodeKind.reads?]

section Cases

variable (ih : ∀ {k : Option NodeId} {es : List Phrase} {marked : BitSet} (own : Bool),
  g.Unmarked depth k es marked → (chainNodes es).length ≤ fuel →
    g.VisitsChain depth fuel k es own marked)
include ih

theorem visitsChain_leaf (h : g.Unmarked depth k (.leaf p :: es) marked)
    (hfuel : (chainNodes (.leaf p :: es)).length ≤ fuel + 1) :
    g.VisitsChain depth (fuel + 1) k (.leaf p :: es) own marked := by
  obtain ⟨⟨up, hshows⟩, hchain⟩ := h.shows_chain
  obtain ⟨hp, hnodup⟩ := List.nodup_cons.1 h.nodup
  obtain ⟨s, hstate, hrun⟩ := h.state p List.mem_cons_self
  obtain ⟨here, hbegins, hhere⟩ := exists_begins own hstate hrun
  have hpart : g.Unmarked depth k es (marked.insert p) := h.part [p] hchain
    (fun e he => h.reads e (List.mem_cons_of_mem _ he)) hnodup
    (fun x hx => List.mem_cons_of_mem p hx)
    (fun x hx => (BitSet.mem_insert.1 hx).symm.imp_right List.mem_singleton.2)
    (fun x hx hmem => hp (List.mem_singleton.1 hx ▸ hmem))
    (fun y hy => BitSet.mem_insert.2 (.inr (h.behind y hy)))
  obtain ⟨demands, marked', hmoves, hgathers⟩ := ih true hpart (Nat.le_of_succ_le_succ hfuel)
  refine ⟨_, marked', moves_of_visits (h.not_mem p List.mem_cons_self) hbegins ?_,
    Gathers.node hhere hgathers (.refl g depth marked') (fun x => ?_) fun x => ?_⟩
  · change g.Visits depth fuel (g.node p).onward _ _ _
    rw [onward_of_reads (h.reads (.leaf p) List.mem_cons_self), hshows.2.next_eq]
    exact .cons hmoves (.nil marked')
  · simp [Phrase.nodes]
  · simp [chainStarts, Phrase.starts, Phrase.endsInLoop]

/-- The node of a phrase that is followed by two visits. -/
theorem visitsChain_node (k₁ k₂ : Option NodeId) (es₁ es₂ : List Phrase) (own₁ own₂ : Bool)
    (h : g.Unmarked depth k (e :: es) marked)
    (honward : (g.node e.entry).onward = [(chainEntry k₁ es₁, own₁), (chainEntry k₂ es₂, own₂)])
    (hperm : (e.entry :: (chainNodes es₁ ++ chainNodes es₂)).Perm (chainNodes (e :: es)))
    (hshows₁ : g.ShowsChain k₁ es₁) (hreads₁ : ∀ f ∈ es₁, f.ReadsAll g)
    (hk₁ : ∀ y, k₁ = some y → k = some y)
    (hshows₂ : g.ShowsChain k₂ es₂) (hreads₂ : ∀ f ∈ es₂, f.ReadsAll g)
    (hk₂ : ∀ y, k₂ = some y → y = e.entry ∨ y ∈ chainNodes es₁ ∨ k = some y)
    (hstarts : ∀ x, x ∈ chainStarts own (e :: es) ↔ x ∈ (if own then [e.entry] else []) ∨
      x ∈ chainStarts own₁ es₁ ∨ x ∈ chainStarts own₂ es₂)
    (hfuel : (chainNodes (e :: es)).length ≤ fuel + 1) :
    g.VisitsChain depth (fuel + 1) k (e :: es) own marked := by
  have hp : e.entry ∈ chainNodes (e :: es) := List.mem_append_left _ e.entry_mem_nodes
  have hmem : ∀ x, x ∈ chainNodes (e :: es) ↔
      x = e.entry ∨ x ∈ chainNodes es₁ ∨ x ∈ chainNodes es₂ := by
    intro x
    rw [← hperm.mem_iff, List.mem_cons, List.mem_append]
  obtain ⟨hnot, hrest⟩ := List.nodup_cons.1 (hperm.nodup_iff.2 h.nodup)
  obtain ⟨hnodup₁, hnodup₂, hdisjoint⟩ := List.nodup_append'.1 hrest
  have hlen := hperm.length_eq
  rw [List.length_cons, List.length_append] at hlen
  obtain ⟨s, hstate, hrun⟩ := h.state e.entry hp
  obtain ⟨here, hbegins, hhere⟩ := exists_begins own hstate hrun
  have hpart₁ : g.Unmarked depth k₁ es₁ (marked.insert e.entry) := h.part [e.entry] hshows₁ hreads₁
    hnodup₁ (fun x hx => (hmem x).2 (.inr (.inl hx)))
    (fun x hx => (BitSet.mem_insert.1 hx).symm.imp_right List.mem_singleton.2)
    (fun x hx hin => hnot (List.mem_append_left _ (List.mem_singleton.1 hx ▸ hin)))
    (fun y hy => BitSet.mem_insert.2 (.inr (h.behind y (hk₁ y hy))))
  obtain ⟨demands₁, marked₁, hmoves₁, hgathers₁⟩ := ih own₁ hpart₁ (by omega)
  have hmarked₁ : ∀ x, x ∈ marked₁ ↔ x ∈ marked ∨ x ∈ e.entry :: chainNodes es₁ := by
    intro x
    rw [hgathers₁.mem_marked, BitSet.mem_insert, List.mem_cons, or_comm (a := x = e.entry), or_assoc]
  have hbehind₂ : ∀ y ∈ k₂, y ∈ marked₁ := by
    intro y hy
    rw [hmarked₁]
    rcases hk₂ y hy with rfl | hin | hk
    · exact .inr List.mem_cons_self
    · exact .inr (List.mem_cons_of_mem _ hin)
    · exact .inl (h.behind y hk)
  have hpart₂ : g.Unmarked depth k₂ es₂ marked₁ := h.part (e.entry :: chainNodes es₁) hshows₂ hreads₂
    hnodup₂ (fun x hx => (hmem x).2 (.inr (.inr hx))) (fun x hx => (hmarked₁ x).1 hx)
    (fun x hx hin => (List.mem_cons.1 hx).elim
      (fun heq => hnot (List.mem_append_right _ (heq ▸ hin))) (fun hx => hdisjoint hx hin)) hbehind₂
  obtain ⟨demands₂, marked₂, hmoves₂, hgathers₂⟩ := ih own₂ hpart₂ (by omega)
  refine ⟨_, marked₂, moves_of_visits (h.not_mem e.entry hp) hbegins ?_,
    Gathers.node hhere hgathers₁ hgathers₂ hmem hstarts⟩
  rw [honward]
  exact .cons hmoves₁ (.cons hmoves₂ (.nil marked₂))

theorem visitsChain_arm (h : g.Unmarked depth k (.arm p e :: es) marked)
    (hfuel : (chainNodes (.arm p e :: es)).length ≤ fuel + 1) :
    g.VisitsChain depth (fuel + 1) k (.arm p e :: es) own marked := by
  obtain ⟨⟨up, hp, he⟩, hchain⟩ := h.shows_chain
  refine visitsChain_node ih k none (e :: es) [] false false h ?_ ?_ ⟨⟨true, he⟩, hchain⟩ ?_
    (fun _ hy => hy) trivial nofun nofun (fun x => ?_) hfuel
  · simp [Phrase.entry, Node.onward, hp.kind_eq, hp.sub_eq, hp.down_eq, chainEntry]
  · simp [Phrase.entry, Phrase.nodes]
  · exact List.forall_mem_cons.2 ⟨h.reads (.arm p e) List.mem_cons_self,
      fun f hf => h.reads f (List.mem_cons_of_mem _ hf)⟩
  · simp [chainStarts, Phrase.starts, Phrase.endsInLoop, Phrase.entry]

theorem visitsChain_alt {r : Phrase} (h : g.Unmarked depth k (.alt p e r :: es) marked)
    (hfuel : (chainNodes (.alt p e r :: es)).length ≤ fuel + 1) :
    g.VisitsChain depth (fuel + 1) k (.alt p e r :: es) own marked := by
  obtain ⟨⟨up, _, hp, he, hr⟩, hchain⟩ := h.shows_chain
  have hreads : e.ReadsAll g ∧ r.ReadsAll g := h.reads (.alt p e r) List.mem_cons_self
  refine visitsChain_node ih k (chainEntry k es) (e :: es) [r] false false h ?_ ?_
    ⟨⟨true, he⟩, hchain⟩ ?_ (fun _ hy => hy) (.singleton hr) ?_ (fun y hy => ?_) (fun x => ?_)
    hfuel
  · simp [Phrase.entry, Node.onward, hp.kind_eq, hp.sub_eq, hp.down_eq, chainEntry]
  · refine List.Perm.cons p ?_
    rw [chainNodes_cons, chainNodes_cons, chainNodes_nil, List.append_nil]
    calc
      e.nodes ++ chainNodes es ++ r.nodes
      _ = e.nodes ++ (chainNodes es ++ r.nodes) := List.append_assoc _ _ _
      _ |>.Perm (e.nodes ++ (r.nodes ++ chainNodes es)) := List.perm_append_comm.append_left _
      _ = e.nodes ++ r.nodes ++ chainNodes es := (List.append_assoc _ _ _).symm
  · exact List.forall_mem_cons.2 ⟨hreads.1, fun f hf => h.reads f (List.mem_cons_of_mem _ hf)⟩
  · simpa using hreads.2
  · exact .inr ((mem_of_chainEntry hy).imp_left (List.mem_append_right _))
  · simp [chainStarts, Phrase.starts, Phrase.endsInLoop, Phrase.entry, or_assoc,
      or_comm, or_left_comm]

theorem visitsChain_opt (h : g.Unmarked depth k (.opt p e :: es) marked)
    (hfuel : (chainNodes (.opt p e :: es)).length ≤ fuel + 1) :
    g.VisitsChain depth (fuel + 1) k (.opt p e :: es) own marked := by
  obtain ⟨⟨up, hp, he⟩, hchain⟩ := h.shows_chain
  refine visitsChain_node ih k (chainEntry k es) es [e] true false h ?_ ?_ hchain
    (fun f hf => h.reads f (List.mem_cons_of_mem _ hf)) (fun _ hy => hy) (.singleton he) ?_
    (fun y hy => .inr (mem_of_chainEntry hy)) (fun x => ?_) hfuel
  · simp [Phrase.entry, Node.onward, hp.kind_eq, hp.sub_eq, hp.next_eq, chainEntry]
  · refine List.Perm.cons p ?_
    rw [chainNodes_cons, chainNodes_nil, List.append_nil]
    exact List.perm_append_comm
  · exact fun f hf => List.mem_singleton.1 hf ▸ h.reads (.opt p e) List.mem_cons_self
  · simp [chainStarts, Phrase.starts, Phrase.endsInLoop, Phrase.entry, or_comm]

theorem visitsChain_iter (h : g.Unmarked depth k (.iter p e :: es) marked)
    (hfuel : (chainNodes (.iter p e :: es)).length ≤ fuel + 1) :
    g.VisitsChain depth (fuel + 1) k (.iter p e :: es) own marked := by
  obtain ⟨⟨up, hp, he⟩, hchain⟩ := h.shows_chain
  refine visitsChain_node ih k (some p) es [e] false false h ?_ ?_ hchain
    (fun f hf => h.reads f (List.mem_cons_of_mem _ hf)) (fun _ hy => hy) (.singleton he) ?_
    (fun y hy => .inl (Option.some.inj hy).symm) (fun x => ?_) hfuel
  · simp [Phrase.entry, Node.onward, hp.kind_eq, hp.sub_eq, hp.next_eq, chainEntry]
  · refine List.Perm.cons p ?_
    rw [chainNodes_cons, chainNodes_nil, List.append_nil]
    exact List.perm_append_comm
  · exact fun f hf => List.mem_singleton.1 hf ▸ h.reads (.iter p e) List.mem_cons_self
  · simp [chainStarts, Phrase.starts, Phrase.endsInLoop, Phrase.entry, or_comm]

end Cases

/-! A sequence is a longer chain with the same nodes and starts. -/

theorem chainNodes_seq (a b : Phrase) (es : List Phrase) :
    chainNodes (.seq a b :: es) = chainNodes (a :: b :: es) :=
  List.append_assoc _ _ _

theorem chainStarts_seq (own : Bool) (a b : Phrase) (es : List Phrase) :
    chainStarts own (.seq a b :: es) = chainStarts own (a :: b :: es) :=
  List.append_assoc _ _ _

theorem Unmarked.seq {a b : Phrase} (h : g.Unmarked depth k (.seq a b :: es) marked) :
    g.Unmarked depth k (a :: b :: es) marked where
  shows_chain := h.shows_chain.seq
  reads := by
    have hreads : a.ReadsAll g ∧ b.ReadsAll g := h.reads (.seq a b) List.mem_cons_self
    exact List.forall_mem_cons.2 ⟨hreads.1, List.forall_mem_cons.2 ⟨hreads.2,
      fun f hf => h.reads f (List.mem_cons_of_mem _ hf)⟩⟩
  nodup := chainNodes_seq a b es ▸ h.nodup
  not_mem := chainNodes_seq a b es ▸ h.not_mem
  behind := h.behind
  state := chainNodes_seq a b es ▸ h.state

theorem VisitsChain.seq {a b : Phrase} (h : g.VisitsChain depth fuel k (a :: b :: es) own marked) :
    g.VisitsChain depth fuel k (.seq a b :: es) own marked := by
  obtain ⟨demands, marked', hmoves, hgathers⟩ := h
  refine ⟨demands, marked', hmoves, ?_⟩
  rw [chainNodes_seq, chainStarts_seq]
  exact hgathers

/-- A visit of a chain marks its nodes and collects the moves that leave at its starts. -/
theorem visitsChain (own : Bool) (h : g.Unmarked depth k es marked)
    (hfuel : (chainNodes es).length ≤ fuel) : g.VisitsChain depth fuel k es own marked := by
  induction fuel generalizing k es own marked with
  | zero =>
    cases es with
    | nil => exact visitsChain_nil h
    | cons e es =>
      have hpos : 0 < e.nodes.length := List.length_pos_of_mem e.entry_mem_nodes
      rw [chainNodes_cons, List.length_append] at hfuel
      omega
  | succ fuel ih =>
    cases es with
    | nil => exact visitsChain_nil h
    | cons e es =>
      induction e generalizing es with
      | leaf p => exact visitsChain_leaf ih h hfuel
      | seq a b iha _ => exact (iha (b :: es) h.seq (chainNodes_seq a b es ▸ hfuel)).seq
      | arm p e => exact visitsChain_arm ih h hfuel
      | alt p e r => exact visitsChain_alt ih h hfuel
      | opt p e => exact visitsChain_opt ih h hfuel
      | iter p e => exact visitsChain_iter ih h hfuel

/-! ## Which nodes are starts -/

theorem Shows.exists_exit (h : g.Shows e k up) (hreads : e.ReadsAll g) :
    ∃ q ∈ e.exits, if e.endsInLoop then (g.node q).kind = .iter
      else (g.node q).kind.reads?.isSome = true ∨ (g.node q).kind = .opt := by
  induction e generalizing k up with
  | leaf p => exact ⟨p, List.mem_cons_self, .inl hreads⟩
  | seq a b _ ihb => exact ihb h.2 hreads.2
  | arm p e ih =>
    obtain ⟨q, hq, hkind⟩ := ih h.2 hreads
    exact ⟨q, List.mem_cons_of_mem p hq, hkind⟩
  | alt p e r ihe _ =>
    obtain ⟨q, hq, hkind⟩ := ihe h.2.2.1 hreads.1
    exact ⟨q, List.mem_cons_of_mem p (List.mem_append_left _ hq), hkind⟩
  | opt p e => exact ⟨p, List.mem_cons_self, .inr h.1.kind_eq⟩
  | iter p e => exact ⟨p, List.mem_cons_self, h.1.kind_eq⟩

/-- A start is the first node or stands behind a leaf or an option. -/
theorem Shows.eq_or_behind_of_mem_starts {x : NodeId} (h : g.Shows e k up) (hreads : e.ReadsAll g)
    (hx : x ∈ e.starts own) : own = true ∧ x = e.entry ∨ ∃ q ∈ e.nodes,
      ((g.node q).kind.reads?.isSome = true ∨ (g.node q).kind = .opt) ∧ (g.node q).next = some x := by
  -- the node of the phrase itself
  have hself : ∀ {p : NodeId} {own : Bool}, x ∈ (if own then [p] else []) → own = true ∧ x = p := by
    intro p own hx
    cases own <;> simp_all
  induction e generalizing k up own with
  | leaf p => exact .inl (hself hx)
  | seq a b iha ihb =>
    rcases List.mem_append.1 hx with hx | hx
    · refine (iha h.1 hreads.1 hx).imp_right ?_
      rintro ⟨q, hq, hrest⟩
      exact ⟨q, List.mem_append_left _ hq, hrest⟩
    · rcases ihb h.2 hreads.2 hx with ⟨hloop, rfl⟩ | ⟨q, hq, hrest⟩
      · obtain ⟨q, hq, hkind⟩ := h.1.exists_exit hreads.1
        rw [(Bool.not_eq_true' _).mp hloop, if_neg Bool.false_ne_true] at hkind
        exact .inr ⟨q, List.mem_append_left _ (Phrase.mem_nodes_of_mem_exits hq), hkind,
          h.1.next_of_mem_exits hq⟩
      · exact .inr ⟨q, List.mem_append_right _ hq, hrest⟩
  | arm p e ih | opt p e ih =>
    rcases List.mem_append.1 hx with hx | hx
    · exact .inl (hself hx)
    · obtain ⟨hown, _⟩ | ⟨q, hq, hrest⟩ := ih h.2 hreads hx
      · cases hown
      · exact .inr ⟨q, List.mem_cons_of_mem p hq, hrest⟩
  | iter p e ih =>
    rcases List.mem_append.1 hx with hx | hx
    · exact .inl (hself hx)
    · obtain ⟨hown, _⟩ | ⟨q, hq, hrest⟩ := ih h.2 hreads hx
      · cases hown
      · exact .inr ⟨q, List.mem_cons_of_mem p hq, hrest⟩
  | alt p e r ihe ihr =>
    rcases List.mem_append.1 hx with hx | hx
    · exact .inl (hself hx)
    · rcases List.mem_append.1 hx with hx | hx
      · obtain ⟨hown, _⟩ | ⟨q, hq, hrest⟩ := ihe h.2.2.1 hreads.1 hx
        · cases hown
        · exact .inr ⟨q, List.mem_cons_of_mem p (List.mem_append_left _ hq), hrest⟩
      · obtain ⟨hown, _⟩ | ⟨q, hq, hrest⟩ := ihr h.2.2.2 hreads.2 hx
        · cases hown
        · exact .inr ⟨q, List.mem_cons_of_mem p (List.mem_append_right _ hq), hrest⟩

/-- One gets to the node `x` from the first node of a phrase or from a start. -/
def Entered (g : Grammar) (own : Bool) (e : Phrase) (x : NodeId) : Prop :=
  ∃ z, (z = e.entry ∨ z ∈ e.starts own) ∧ g.Passes z x

theorem entered_entry : g.Entered own e e.entry :=
  ⟨e.entry, .inl rfl, .refl e.entry⟩

theorem Entered.seq_left {a b : Phrase} {x : NodeId} (h : g.Entered own a x) :
    g.Entered own (.seq a b) x := by
  obtain ⟨z, hz, hpass⟩ := h
  exact ⟨z, hz.imp_right (List.mem_append_left _), hpass⟩

theorem Entered.seq_right {a b : Phrase} {i x : NodeId} (hshows : g.Shows (.seq a b) k up)
    (hb : b.nodes.Nodup) (hexit : i ∈ a.exits)
    (hkind : a.endsInLoop = true → (g.node i).kind = .iter) (hfirst : g.Entered own a i)
    (h : g.Entered (!a.endsInLoop) b x) : g.Entered own (.seq a b) x := by
  obtain ⟨z, rfl | hz, hpass⟩ := h
  · cases hloop : a.endsInLoop with
    | false =>
      refine ⟨b.entry, .inr (List.mem_append_right _ ?_), hpass⟩
      rw [hloop, Phrase.entry_mem_starts hb]
      rfl
    | true =>
      -- the iteration at the end leads on without reading
      have hstep : b.entry ∈ (g.node i).silent :=
        (Node.mem_silent_group (.inr (hkind hloop))).2 (.inl (hshows.1.next_of_mem_exits hexit))
      obtain ⟨z, hz, hzi⟩ := hfirst.seq_left (b := b)
      exact ⟨z, hz, hzi.trans (.cons hstep hpass)⟩
  · exact ⟨z, .inr (List.mem_append_right _ hz), hpass⟩

/-- A body is entered from its node. -/
theorem Entered.body {b : Phrase} {x : NodeId} (hentry : b.entry ∈ (g.node e.entry).silent)
    (hsub : ∀ z ∈ b.starts false, z ∈ e.starts own) (h : g.Entered false b x) :
    g.Entered own e x := by
  obtain ⟨z, rfl | hz, hpass⟩ := h
  · exact ⟨e.entry, .inl rfl, .cons hentry hpass⟩
  · exact ⟨z, .inr (hsub z hz), hpass⟩

/-- One gets to every node from the first one or from a start. -/
theorem Shows.exists_passes {x : NodeId} (own : Bool) (h : g.Shows e k up) (hreads : e.ReadsAll g)
    (hnodup : e.nodes.Nodup) (hx : x ∈ e.nodes) : g.Entered own e x := by
  induction e generalizing k up own x with
  | leaf p =>
    rw [List.mem_singleton.1 hx]
    exact entered_entry
  | seq a b iha ihb =>
    obtain ⟨ha, hb, _⟩ := List.nodup_append'.1 hnodup
    rcases List.mem_append.1 hx with hx | hx
    · exact (iha own h.1 hreads.1 ha hx).seq_left
    · obtain ⟨i, hi, hkind⟩ := h.1.exists_exit hreads.1
      exact .seq_right h hb hi (fun hloop => by rwa [if_pos hloop] at hkind)
        (iha own h.1 hreads.1 ha (Phrase.mem_nodes_of_mem_exits hi))
        (ihb (!a.endsInLoop) h.2 hreads.2 hb hx)
  | arm p e ih =>
    rcases List.mem_cons.1 hx with rfl | hx
    · exact entered_entry
    · exact .body ((Node.mem_silent_alt h.1.kind_eq).2 (.inl h.1.sub_eq))
        (fun z hz => List.mem_append_right _ hz)
        (ih false h.2 hreads (List.nodup_cons.1 hnodup).2 hx)
  | alt p e r ihe ihr =>
    obtain ⟨he, hr, _⟩ := List.nodup_append'.1 (List.nodup_cons.1 hnodup).2
    have hsilent := fun q => Node.mem_silent_alt (q := q) h.2.1.kind_eq
    rcases List.mem_cons.1 hx with rfl | hx
    · exact entered_entry
    · rcases List.mem_append.1 hx with hx | hx
      · exact .body ((hsilent _).2 (.inl h.2.1.sub_eq))
          (fun z hz => List.mem_append_right _ (List.mem_append_left _ hz))
          (ihe false h.2.2.1 hreads.1 he hx)
      · exact .body ((hsilent _).2 (.inr h.2.1.down_eq))
          (fun z hz => List.mem_append_right _ (List.mem_append_right _ hz))
          (ihr false h.2.2.2 hreads.2 hr hx)
  | opt p e ih =>
    rcases List.mem_cons.1 hx with rfl | hx
    · exact entered_entry
    · exact .body ((Node.mem_silent_group (.inl h.1.kind_eq)).2 (.inr h.1.sub_eq))
        (fun z hz => List.mem_append_right _ hz)
        (ih false h.2 hreads (List.nodup_cons.1 hnodup).2 hx)
  | iter p e ih =>
    rcases List.mem_cons.1 hx with rfl | hx
    · exact entered_entry
    · exact .body ((Node.mem_silent_group (.inr h.1.kind_eq)).2 (.inr h.1.sub_eq))
        (fun z hz => List.mem_append_right _ hz)
        (ih false h.2 hreads (List.nodup_cons.1 hnodup).2 hx)

theorem Shows.beginsWithLoop_iff (h : g.Shows e k up) :
    e.beginsWithLoop = true ↔ (g.node e.entry).kind = .iter := by
  induction e generalizing k up with
  | leaf p =>
    have hleaf := h.1
    simp only [Phrase.beginsWithLoop, Phrase.entry, Bool.false_eq_true, false_iff]
    intro hkind
    simp [hkind, NodeKind.isLeaf] at hleaf
  | seq a b iha _ => exact iha h.1
  | arm p e | opt p e | iter p e => simp [Phrase.beginsWithLoop, Phrase.entry, h.1.kind_eq]
  | alt p e r => simp [Phrase.beginsWithLoop, Phrase.entry, h.2.1.kind_eq]

/-! ## What follows a leaf -/

/-- The leaf `q` is one of the last leaves and not stranded; or what follows it begins a state or is
an iteration, unless the leaf is stranded. -/
def LeadsOn (g : Grammar) (own : Bool) (e : Phrase) (q : NodeId) : Prop :=
  q ∈ e.leafExits ∧ q ∉ e.stranded ∨ ∃ y ∈ e.nodes, (g.node q).next = some y ∧
    (y ∈ e.starts own ∨ (g.node y).kind = .iter ↔ q ∉ e.stranded)

section LeadsOn

variable {a b r : Phrase} {q : NodeId}

/-- A leaf of the first part of a sequence. -/
theorem LeadsOn.seq_left (h : g.Shows (.seq a b) k up) (hnodup : (Phrase.seq a b).nodes.Nodup)
    (hq : q ∈ a.nodes) (hfirst : g.LeadsOn own a q) : g.LeadsOn own (.seq a b) q := by
  obtain ⟨ha, hb, hdisjoint⟩ := List.nodup_append'.1 hnodup
  have hqb : q ∉ b.stranded := fun hmem => hdisjoint hq (Phrase.mem_nodes_of_mem_stranded hmem)
  have hexit : q ∈ a.leafExits → (g.node q).next = some b.entry := fun hmem =>
    h.1.next_of_mem_exits (Phrase.mem_exits_of_mem_leafExits hmem)
  refine .inr ?_
  rcases hfirst with ⟨hlast, hnot⟩ | ⟨y, hy, hnext, hiff⟩
  · have hentry : b.entry ∉ a.starts own := fun hmem =>
      hdisjoint (Phrase.mem_nodes_of_mem_starts hmem) b.entry_mem_nodes
    refine ⟨b.entry, List.mem_append_right _ b.entry_mem_nodes, hexit hlast, ?_⟩
    rw [Phrase.starts, List.mem_append, or_iff_right hentry, Phrase.entry_mem_starts hb,
      ← h.2.beginsWithLoop_iff]
    cases hloop : a.endsInLoop <;> cases hbegin : b.beginsWithLoop <;>
      simp [Phrase.stranded, hloop, hbegin, hnot, hqb, hlast]
  · have hlast : q ∉ a.leafExits := fun hmem => by
      rw [hexit hmem] at hnext
      exact hdisjoint (Option.some.inj hnext ▸ hy) b.entry_mem_nodes
    have hyb : y ∉ b.starts (!a.endsInLoop) := fun hmem =>
      hdisjoint hy (Phrase.mem_nodes_of_mem_starts hmem)
    refine ⟨y, List.mem_append_left _ hy, hnext, ?_⟩
    rw [Phrase.starts, List.mem_append, or_iff_left hyb, hiff]
    simp [Phrase.stranded, hqb, hlast]

/-- A leaf of the second part of a sequence. -/
theorem LeadsOn.seq_right (hnodup : (Phrase.seq a b).nodes.Nodup) (hq : q ∈ b.nodes)
    (hsecond : g.LeadsOn (!a.endsInLoop) b q) : g.LeadsOn own (.seq a b) q := by
  obtain ⟨ha, hb, hdisjoint⟩ := List.nodup_append'.1 hnodup
  have hqa : q ∉ a.nodes := fun hmem => hdisjoint hmem hq
  have hstranded : q ∈ (Phrase.seq a b).stranded ↔ q ∈ b.stranded := by
    have hfirst : q ∉ a.stranded := fun hmem => hqa (Phrase.mem_nodes_of_mem_stranded hmem)
    have hlast : q ∉ a.leafExits := fun hmem =>
      hqa (Phrase.mem_nodes_of_mem_exits (Phrase.mem_exits_of_mem_leafExits hmem))
    rw [Phrase.stranded, List.mem_append, List.mem_append, or_iff_right hfirst]
    split <;> simp [hlast]
  rw [LeadsOn, hstranded]
  refine hsecond.imp_right ?_
  rintro ⟨y, hy, hnext, hiff⟩
  have hya : y ∉ a.starts own := fun hmem => hdisjoint (Phrase.mem_nodes_of_mem_starts hmem) hy
  refine ⟨y, List.mem_append_right _ hy, hnext, ?_⟩
  rw [Phrase.starts, List.mem_append, or_iff_right hya]
  exact hiff

/-- A node of a body is not the node around it. -/
theorem mem_starts_body {y : NodeId} {xs starts : List NodeId} (hp : p ∉ xs) (hy : y ∈ xs) :
    y ∈ (if own then [p] else []) ++ starts ↔ y ∈ starts := by
  have hne : y ≠ p := fun heq => hp (heq ▸ hy)
  cases own <;> simp [hne]

theorem LeadsOn.arm (hp : p ∉ e.nodes) (h : g.LeadsOn false e q) :
    g.LeadsOn own (.arm p e) q := by
  refine h.imp_right ?_
  rintro ⟨y, hy, hnext, hiff⟩
  refine ⟨y, List.mem_cons_of_mem p hy, hnext, ?_⟩
  rw [Phrase.starts, mem_starts_body hp hy]
  exact hiff

theorem LeadsOn.opt (hp : p ∉ e.nodes) (h : g.LeadsOn false e q) :
    g.LeadsOn own (.opt p e) q :=
  h.arm hp

/-- Behind the last leaves of the body stands the iteration. -/
theorem LeadsOn.iter (hp : p ∉ e.nodes) (hshows : g.Shows (.iter p e) k up)
    (h : g.LeadsOn false e q) : g.LeadsOn own (.iter p e) q := by
  refine .inr ?_
  rcases h with ⟨hlast, hnot⟩ | ⟨y, hy, hnext, hiff⟩
  · refine ⟨p, List.mem_cons_self,
      hshows.2.next_of_mem_exits (Phrase.mem_exits_of_mem_leafExits hlast), ?_⟩
    exact iff_of_true (.inr hshows.1.kind_eq) hnot
  · refine ⟨y, List.mem_cons_of_mem p hy, hnext, ?_⟩
    rw [Phrase.starts, mem_starts_body hp hy]
    exact hiff

theorem LeadsOn.alt_left (hnodup : (Phrase.alt p e r).nodes.Nodup) (hq : q ∈ e.nodes)
    (h : g.LeadsOn false e q) : g.LeadsOn own (.alt p e r) q := by
  obtain ⟨hp, her⟩ := List.nodup_cons.1 hnodup
  obtain ⟨he, hr, hdisjoint⟩ := List.nodup_append'.1 her
  have hqr : q ∉ r.stranded := fun hmem => hdisjoint hq (Phrase.mem_nodes_of_mem_stranded hmem)
  rw [LeadsOn, Phrase.leafExits, Phrase.stranded, List.mem_append, List.mem_append,
    or_iff_left hqr]
  refine h.imp (fun hlast => ⟨.inl hlast.1, hlast.2⟩) ?_
  rintro ⟨y, hy, hnext, hiff⟩
  have hyr : y ∉ r.starts false := fun hmem => hdisjoint hy (Phrase.mem_nodes_of_mem_starts hmem)
  refine ⟨y, List.mem_cons_of_mem p (List.mem_append_left _ hy), hnext, ?_⟩
  rw [Phrase.starts, mem_starts_body hp (List.mem_append_left _ hy), List.mem_append,
    or_iff_left hyr]
  exact hiff

theorem LeadsOn.alt_right (hnodup : (Phrase.alt p e r).nodes.Nodup) (hq : q ∈ r.nodes)
    (h : g.LeadsOn false r q) : g.LeadsOn own (.alt p e r) q := by
  obtain ⟨hp, her⟩ := List.nodup_cons.1 hnodup
  obtain ⟨he, hr, hdisjoint⟩ := List.nodup_append'.1 her
  have hqe : q ∉ e.stranded := fun hmem => hdisjoint (Phrase.mem_nodes_of_mem_stranded hmem) hq
  rw [LeadsOn, Phrase.leafExits, Phrase.stranded, List.mem_append, List.mem_append,
    or_iff_right hqe]
  refine h.imp (fun hlast => ⟨.inr hlast.1, hlast.2⟩) ?_
  rintro ⟨y, hy, hnext, hiff⟩
  have hye : y ∉ e.starts false := fun hmem => hdisjoint (Phrase.mem_nodes_of_mem_starts hmem) hy
  refine ⟨y, List.mem_cons_of_mem p (List.mem_append_right _ hy), hnext, ?_⟩
  rw [Phrase.starts, mem_starts_body hp (List.mem_append_right _ hy), List.mem_append,
    or_iff_right hye]
  exact hiff

/-- The last leaves of a phrase are not stranded in it; what follows any other leaf begins a state
or is an iteration, unless the leaf is stranded. -/
theorem Shows.starts_behind (own : Bool) (h : g.Shows e k up) (hnodup : e.nodes.Nodup)
    (hq : q ∈ e.nodes) (hreads : (g.node q).kind.reads?.isSome = true) : g.LeadsOn own e q := by
  -- the node of an alternative, option or iteration is no leaf
  have hnode : ∀ {p : NodeId} {kind : NodeKind} {sub down next : Option NodeId} {up : Bool},
      g.Holds p kind sub down next up → kind.isLeaf = false → q ≠ p := by
    rintro p kind sub down next up hold hkind rfl
    have hleaf := reads?_of_isLeaf hreads
    rw [hold.kind_eq, hkind] at hleaf
    cases hleaf
  induction e generalizing k up own with
  | leaf p =>
    rw [List.mem_singleton.1 hq]
    exact .inl ⟨List.mem_cons_self, List.not_mem_nil⟩
  | seq a b iha ihb =>
    obtain ⟨ha, hb, _⟩ := List.nodup_append'.1 hnodup
    rcases List.mem_append.1 hq with hqa | hqb
    · exact .seq_left h hnodup hqa (iha own h.1 ha hqa)
    · exact .seq_right hnodup hqb (ihb (!a.endsInLoop) h.2 hb hqb)
  | arm p e ih =>
    obtain ⟨hp, he⟩ := List.nodup_cons.1 hnodup
    exact (ih false h.2 he ((List.mem_cons.1 hq).resolve_left (hnode h.1 rfl))).arm hp
  | opt p e ih =>
    obtain ⟨hp, he⟩ := List.nodup_cons.1 hnodup
    exact (ih false h.2 he ((List.mem_cons.1 hq).resolve_left (hnode h.1 rfl))).opt hp
  | iter p e ih =>
    obtain ⟨hp, he⟩ := List.nodup_cons.1 hnodup
    exact (ih false h.2 he ((List.mem_cons.1 hq).resolve_left (hnode h.1 rfl))).iter hp h
  | alt p e r ihe ihr =>
    obtain ⟨he, hr, _⟩ := List.nodup_append'.1 (List.nodup_cons.1 hnodup).2
    rcases List.mem_append.1 ((List.mem_cons.1 hq).resolve_left (hnode h.2.1 rfl)) with hqe | hqr
    · exact .alt_left hnodup hqe (ihe false h.2.2.1 he hqe)
    · exact .alt_right hnodup hqr (ihr false h.2.2.2 hr hqr)

end LeadsOn

end Grammar

end Ebnf
