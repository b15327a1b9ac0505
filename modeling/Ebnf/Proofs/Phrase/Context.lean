import Ebnf.Proofs.Phrase.Chain

/-!
# Phrases that are read as context

A phrase is marked as the context of a token from its first node.  The mark reaches
all its leaves, because every node of a phrase can be seen from the first one, and it
changes no links.

Main results:

- Theorem `Grammar.Shows.mem_nodesWithin`: all nodes of a phrase can be seen from its
  first node.
- Theorem `Grammar.Shows.markAll`: marking nodes changes no phrase.
- Theorem `Grammar.Shows.readsAs_markContext`: a marked phrase is read as context.
-/

namespace Ebnf

namespace Phrase

variable {g : Grammar} {e : Phrase} {part : Part} {p : NodeId} {ps : List NodeId}

/-- The leaves read, and as the part `part` of a token. -/
def ReadsAs (g : Grammar) (part : Part) : Phrase → Prop
  | leaf p => ∃ on, (g.node p).kind.reads? = some (on, part)
  | seq a b => a.ReadsAs g part ∧ b.ReadsAs g part
  | arm _ e | opt _ e | iter _ e => e.ReadsAs g part
  | alt _ e r => e.ReadsAs g part ∧ r.ReadsAs g part

theorem ReadsAs.readsAll (h : e.ReadsAs g part) : e.ReadsAll g := by
  induction e with
  | leaf p =>
    obtain ⟨on, hreads⟩ := h
    rw [ReadsAll, hreads]
    rfl
  | seq a b iha ihb => exact ⟨iha h.1, ihb h.2⟩
  | arm p e ih | opt p e ih | iter p e ih => exact ih h
  | alt p e r ihe ihr => exact ⟨ihe h.1, ihr h.2⟩

theorem ReadsAs.of_mem_walks (h : e.ReadsAs g part) (hps : ps ∈ e.walks) (hp : p ∈ ps) :
    ∃ on, (g.node p).kind.reads? = some (on, part) := by
  induction e generalizing ps with
  | leaf q =>
    obtain rfl : ps = [q] := hps
    obtain rfl := List.mem_singleton.1 hp
    exact h
  | seq a b iha ihb =>
    obtain ⟨qs, hqs, rs, hrs, rfl⟩ := hps
    rcases List.mem_append.1 hp with hp | hp
    · exact iha h.1 hqs hp
    · exact ihb h.2 hrs hp
  | arm q e ih => exact ih h hps hp
  | alt q e r ihe ihr =>
    rcases hps with hps | hps
    · exact ihe h.1 hps hp
    · exact ihr h.2 hps hp
  | opt q e ih =>
    rcases hps with rfl | hps
    · cases hp
    · exact ih h hps hp
  | iter q e ih =>
    obtain ⟨pss, rfl, hpss⟩ := hps
    obtain ⟨qs, hqs, hp⟩ := List.mem_flatten.1 hp
    exact ih h (hpss qs hqs) hp

end Phrase

namespace Grammar

variable {g : Grammar} {e f : Phrase} {k : Option NodeId} {up : Bool} {p q : NodeId}

/-! ## What is seen of a phrase -/

/-- All nodes of a phrase can be seen from its first node. -/
theorem Shows.mem_nodesWithin (h : g.Shows e k up) :
    ∀ x ∈ e.nodes, x ∈ g.nodesWithin (some e.entry) := by
  have hfresh : ∀ x ∈ e.nodes, isFresh (allFresh g.nodes.size) x = true := fun x hx =>
    isFresh_allFresh.2 (h.lt_size hx)
  intro x hx
  exact mem_explore.2 (h.reached_within hfresh
    (.root List.mem_cons_self (hfresh _ e.entry_mem_nodes)) x hx)

/-! ## Marking -/

/-- Lets the characters of several nodes be required behind the token only. -/
def markAll (g : Grammar) (ps : List NodeId) : Grammar :=
  ps.foldl (fun g p => g.modifyNode p fun n => { n with kind := n.kind.toContext }) g

theorem toContext_toContext (kind : NodeKind) : kind.toContext.toContext = kind.toContext := by
  cases kind <;> rfl

theorem isLeaf_toContext (kind : NodeKind) : kind.toContext.isLeaf = kind.isLeaf := by
  cases kind <;> rfl

theorem node_markAll {ps : List NodeId} : (g.markAll ps).node q = if q ∈ ps ∧ q < g.nodes.size then
    { g.node q with kind := (g.node q).kind.toContext } else g.node q :=
  node_foldl_modifyNode (f := fun n => { n with kind := n.kind.toContext }) fun n => by
    dsimp only
    rw [toContext_toContext]

theorem size_markAll {ps : List NodeId} : (g.markAll ps).nodes.size = g.nodes.size :=
  size_foldl_modifyNode

theorem node_markContext {start : Option NodeId} :
    (g.markContext start).node q = if q ∈ g.nodesWithin start ∧ q < g.nodes.size then
      { g.node q with kind := (g.node q).kind.toContext } else g.node q :=
  node_markAll

/-- Marking a node changes its kind only, and no kind of structure. -/
theorem kind_markAll (ps : List NodeId) (q : NodeId) :
    ((g.markAll ps).node q).kind = (g.node q).kind ∨
      ((g.markAll ps).node q).kind = (g.node q).kind.toContext := by
  rw [node_markAll]
  split
  · exact .inr rfl
  · exact .inl rfl

theorem kind_markAll_of_eq {ps : List NodeId} {kind : NodeKind} (hkind : (g.node q).kind = kind)
    (hsame : kind.toContext = kind) : ((g.markAll ps).node q).kind = kind := by
  rcases kind_markAll (g := g) ps q with heq | heq
  · exact heq.trans hkind
  · rw [heq, hkind, hsame]

theorem isLeaf_markAll {ps : List NodeId} :
    ((g.markAll ps).node q).kind.isLeaf = (g.node q).kind.isLeaf := by
  rcases kind_markAll (g := g) ps q with heq | heq
  · rw [heq]
  · rw [heq, isLeaf_toContext]

theorem sub_markAll {ps : List NodeId} : ((g.markAll ps).node q).sub = (g.node q).sub := by
  rw [node_markAll]
  split <;> rfl

theorem down_markAll {ps : List NodeId} : ((g.markAll ps).node q).down = (g.node q).down := by
  rw [node_markAll]
  split <;> rfl

theorem next_markAll {ps : List NodeId} : ((g.markAll ps).node q).next = (g.node q).next := by
  rw [node_markAll]
  split <;> rfl

theorem leaves_markAll {ps : List NodeId} : ((g.markAll ps).node q).leaves = (g.node q).leaves := by
  rw [node_markAll]
  split <;> rfl

/-- Marking nodes changes no links and no kind of structure. -/
theorem Shows.markAll {ps : List NodeId} (h : g.Shows e k up) : (g.markAll ps).Shows e k up := by
  have hholds : ∀ {q kind sub down next leaves}, g.Holds q kind sub down next leaves →
      (g.markAll ps).Holds q ((g.markAll ps).node q).kind sub down next leaves := by
    intro q kind sub down next leaves hq
    refine ⟨Nat.lt_of_lt_of_eq hq.1 size_markAll.symm, ?_⟩
    rw [Node.links, sub_markAll, down_markAll, next_markAll, leaves_markAll, hq.sub_eq, hq.down_eq,
      hq.next_eq, hq.leaves_eq]
  have hstructure : ∀ {q kind sub down next leaves}, kind.toContext = kind →
      g.Holds q kind sub down next leaves → (g.markAll ps).Holds q kind sub down next leaves := by
    intro q kind sub down next leaves hsame hq
    exact kind_markAll_of_eq hq.kind_eq hsame ▸ hholds hq
  induction e generalizing k up with
  | leaf q => exact ⟨isLeaf_markAll.trans h.1, hholds h.2⟩
  | seq a b iha ihb => exact ⟨iha h.1, ihb h.2⟩
  | arm q e ih | opt q e ih | iter q e ih => exact ⟨hstructure rfl h.1, ih h.2⟩
  | alt q e r ihe ihr => exact ⟨h.1, hstructure rfl h.2.1, ihe h.2.2.1, ihr h.2.2.2⟩

theorem readsAs_of_forall {start : Option NodeId} (hreads : e.ReadsAll g)
    (hmem : ∀ x ∈ e.nodes, x ∈ g.nodesWithin start ∧ x < g.nodes.size) :
    e.ReadsAs (g.markContext start) .context := by
  induction e with
  | leaf q =>
    have hread : (g.node q).kind.reads?.isSome = true := hreads
    rw [Phrase.ReadsAs, node_markContext, if_pos (hmem q List.mem_cons_self)]
    cases hkind : (g.node q).kind with
    | cls id part => exact ⟨.cls id, rfl⟩
    | char c part => exact ⟨.char c, rfl⟩
    | _ => simp [hkind, NodeKind.reads?] at hread
  | seq a b iha ihb =>
    obtain ⟨ha, hb⟩ := List.forall_mem_append.1 hmem
    exact ⟨iha hreads.1 ha, ihb hreads.2 hb⟩
  | arm p e ih | opt p e ih | iter p e ih => exact ih hreads (List.forall_mem_cons.1 hmem).2
  | alt p e r ihe ihr =>
    obtain ⟨he, hr⟩ := List.forall_mem_append.1 (List.forall_mem_cons.1 hmem).2
    exact ⟨ihe hreads.1 he, ihr hreads.2 hr⟩

/-- A phrase that is marked from its first node is read as context. -/
theorem Shows.readsAs_markContext (h : g.Shows e k up) (hreads : e.ReadsAll g) :
    e.ReadsAs (g.markContext (some e.entry)) .context :=
  readsAs_of_forall hreads fun x hx => ⟨h.mem_nodesWithin x hx, h.lt_size hx⟩

end Grammar

end Ebnf
