import Mathlib.Data.List.Nodup
import Mathlib.Data.List.Perm.Subperm
import Ebnf.Proofs.Grammar.Nodes

/-!
# Phrases

A phrase is the tree that a chain of nodes was put together as: leaves,
sequences, alternatives, options and iterations, each with the node that stands
for it.  A grammar shows a phrase if its nodes are linked accordingly: every
node that ends the phrase leads to what follows it.

Main results:

- Theorem `Grammar.Shows.congr`: whether a grammar shows a phrase depends on the
  links of the nodes of the phrase.
- Theorems `Grammar.Shows.link` and `Grammar.Shows.markLeaving`: what follows a
  phrase, and whether its ends leave a structure, can be changed.
- Theorems `Grammar.Shows.mem_of_next` and `Grammar.Shows.mem_of_contents`: links lead to
  nodes of the phrase or to what follows it.
-/

namespace Ebnf

/-- A tree of nodes. -/
inductive Phrase
  /-- a node without contents -/
  | leaf (p : NodeId)
  | seq (first second : Phrase)
  /-- the last arm of an alternative -/
  | arm (p : NodeId) (body : Phrase)
  /-- an arm of an alternative, and the further arms -/
  | alt (p : NodeId) (body rest : Phrase)
  | opt (p : NodeId) (body : Phrase)
  | iter (p : NodeId) (body : Phrase)
  deriving DecidableEq, Repr

namespace Phrase

/-- The first node. -/
def entry : Phrase → NodeId
  | leaf p | arm p _ | alt p _ _ | opt p _ | iter p _ => p
  | seq a _ => a.entry

/-- The nodes that lead to what follows. -/
def exits : Phrase → List NodeId
  | leaf p | iter p _ => [p]
  | seq _ b => b.exits
  | arm p e | opt p e => p :: e.exits
  | alt p e r => p :: (e.exits ++ r.exits)

/-- All nodes. -/
def nodes : Phrase → List NodeId
  | leaf p => [p]
  | seq a b => a.nodes ++ b.nodes
  | arm p e | opt p e | iter p e => p :: e.nodes
  | alt p e r => p :: (e.nodes ++ r.nodes)

/-- Whether the phrase consists of the arms of an alternative. -/
def isArms : Phrase → Bool
  | arm _ _ => true
  | alt _ _ r => r.isArms
  | _ => false

/-- The phrase as a chain under construction. -/
def fragment (e : Phrase) : Fragment :=
  ⟨e.entry, e.exits⟩

/-- The arms of an alternative with a further one. -/
def snoc : Phrase → NodeId → Phrase → Phrase
  | arm p e, q, f => alt p e (arm q f)
  | alt p e r, q, f => alt p e (r.snoc q f)
  | e, _, _ => e

/-- The node of the last arm. -/
def last : Phrase → NodeId
  | alt _ _ r => r.last
  | e => e.entry

/-- Leaves with successive numbers, one after the other. -/
def chain (p : NodeId) : Nat → Phrase
  | 0 => leaf p
  | n + 1 => seq (leaf p) (chain (p + 1) n)

theorem entry_mem_nodes (e : Phrase) : e.entry ∈ e.nodes := by
  induction e with
  | seq a b iha _ => exact List.mem_append_left _ iha
  | _ => exact List.mem_cons_self

theorem mem_nodes_of_mem_exits {e : Phrase} {p : NodeId} (h : p ∈ e.exits) : p ∈ e.nodes := by
  induction e with
  | leaf q => exact h
  | seq a b _ ihb => exact List.mem_append_right _ (ihb h)
  | arm q e ih | opt q e ih =>
    rcases List.mem_cons.1 h with rfl | h
    · exact List.mem_cons_self
    · exact List.mem_cons_of_mem _ (ih h)
  | alt q e r ihe ihr =>
    rcases List.mem_cons.1 h with rfl | h
    · exact List.mem_cons_self
    · rcases List.mem_append.1 h with h | h
      · exact List.mem_cons_of_mem _ (List.mem_append_left _ (ihe h))
      · exact List.mem_cons_of_mem _ (List.mem_append_right _ (ihr h))
  | iter q e _ =>
    rw [List.mem_singleton.1 h]
    exact List.mem_cons_self

@[simp]
theorem entry_chain (p n : Nat) : (chain p n).entry = p := by
  cases n <;> rfl

theorem nodes_chain (p n : Nat) : (chain p n).nodes = List.range' p (n + 1) := by
  induction n generalizing p with
  | zero => rfl
  | succ n ih =>
    rw [chain, nodes, ih, List.range'_succ (n := n + 1)]
    rfl

theorem last_mem_nodes (e : Phrase) : e.last ∈ e.nodes := by
  induction e with
  | alt p e r _ ihr => exact List.mem_cons_of_mem p (List.mem_append_right _ ihr)
  | _ => exact entry_mem_nodes _

@[simp]
theorem entry_snoc (e : Phrase) {q : NodeId} {f : Phrase} : (e.snoc q f).entry = e.entry := by
  cases e <;> rfl

theorem isArms_snoc {e : Phrase} {q : NodeId} {f : Phrase} (h : e.isArms = true) :
    (e.snoc q f).isArms = true := by
  induction e with
  | leaf | seq | opt | iter => cases h
  | arm => rfl
  | alt p e r _ ihr => exact ihr h

theorem nodes_snoc {e : Phrase} {q : NodeId} {f : Phrase} (h : e.isArms = true) :
    (e.snoc q f).nodes.Perm (q :: (e.nodes ++ f.nodes)) := by
  induction e with
  | leaf | seq | opt | iter => cases h
  | arm p e => exact @List.perm_middle _ q (p :: e.nodes) f.nodes
  | alt p e r _ ihr =>
    calc
      p :: (e.nodes ++ (r.snoc q f).nodes)
      _ |>.Perm (p :: (e.nodes ++ q :: (r.nodes ++ f.nodes))) := ((ihr h).append_left _).cons p
      _ |>.Perm (q :: (p :: e.nodes ++ (r.nodes ++ f.nodes))) :=
        @List.perm_middle _ q (p :: e.nodes) (r.nodes ++ f.nodes)
      _ = q :: (p :: (e.nodes ++ r.nodes) ++ f.nodes) := by simp

end Phrase

/-- Whether nodes of this kind have no contents. -/
def NodeKind.isLeaf : NodeKind → Bool
  | .alt | .iter | .opt => false
  | _ => true

/-- A node has no contents, or it is an option or iteration, or it begins an arm. -/
theorem NodeKind.leaf_or_group_or_alt (kind : NodeKind) :
    kind.isLeaf = true ∨ (kind = .opt ∨ kind = .iter) ∨ kind = .alt := by
  cases kind <;> simp [isLeaf]

theorem NodeKind.isLeaf_of_group {kind : NodeKind} (h : kind = .opt ∨ kind = .iter) :
    kind.isLeaf = false := by
  rcases h with rfl | rfl <;> rfl

/-- The kind of a node and what it is linked to. -/
def Node.links (n : Node) : NodeKind × Option NodeId × Option NodeId × Option NodeId × Bool :=
  (n.kind, n.sub, n.down, n.next, n.leaves)

namespace Grammar

variable {g g' : Grammar} {e : Phrase} {k : Option NodeId} {up : Bool}

/-- There is a node with these links. -/
def Holds (g : Grammar) (p : NodeId) (kind : NodeKind) (sub down next : Option NodeId)
    (leaves : Bool) : Prop :=
  p < g.nodes.size ∧ (g.node p).links = (kind, sub, down, next, leaves)

/-- The nodes of a phrase are linked as it says.  What follows it is `k`, and `up` says whether its
ends leave the structure that encloses it. -/
def Shows (g : Grammar) : Phrase → Option NodeId → Bool → Prop
  | .leaf p, k, up => (g.node p).kind.isLeaf = true ∧ g.Holds p (g.node p).kind none none k up
  | .seq a b, k, up => g.Shows a (some b.entry) false ∧ g.Shows b k up
  | .arm p e, k, up => g.Holds p .alt (some e.entry) none k up ∧ g.Shows e k true
  | .alt p e r, k, up => r.isArms = true ∧ g.Holds p .alt (some e.entry) (some r.entry) k up ∧
      g.Shows e k true ∧ g.Shows r k true
  | .opt p e, k, up => g.Holds p .opt (some e.entry) none k up ∧ g.Shows e k true
  | .iter p e, k, up => g.Holds p .iter (some e.entry) none k up ∧ g.Shows e (some p) true

theorem Shows.lt_size {p : NodeId} (h : g.Shows e k up) (hp : p ∈ e.nodes) : p < g.nodes.size := by
  induction e generalizing k up with
  | leaf q =>
    rw [List.mem_singleton.1 hp]
    exact h.2.1
  | seq a b iha ihb =>
    rcases List.mem_append.1 hp with hp | hp
    · exact iha h.1 hp
    · exact ihb h.2 hp
  | arm q e ih | opt q e ih | iter q e ih =>
    rcases List.mem_cons.1 hp with rfl | hp
    · exact h.1.1
    · exact ih h.2 hp
  | alt q e r ihe ihr =>
    rcases List.mem_cons.1 hp with rfl | hp
    · exact h.2.1.1
    · rcases List.mem_append.1 hp with hp | hp
      · exact ihe h.2.2.1 hp
      · exact ihr h.2.2.2 hp

/-- There are at least as many nodes as the phrase has. -/
theorem Shows.length_nodes_le (h : g.Shows e k up) (hnodup : e.nodes.Nodup) :
    e.nodes.length ≤ g.nodes.size := by
  have hsub : e.nodes ⊆ List.range g.nodes.size := fun p hp => List.mem_range.2 (h.lt_size hp)
  simpa using (List.subperm_of_subset hnodup hsub).length_le

theorem Holds.kind_eq {p : NodeId} {kind : NodeKind} {sub down next : Option NodeId}
    (h : g.Holds p kind sub down next up) : (g.node p).kind = kind :=
  congrArg Prod.fst h.2

theorem Holds.sub_eq {p : NodeId} {kind : NodeKind} {sub down next : Option NodeId}
    (h : g.Holds p kind sub down next up) : (g.node p).sub = sub :=
  congrArg (·.2.1) h.2

theorem Holds.down_eq {p : NodeId} {kind : NodeKind} {sub down next : Option NodeId}
    (h : g.Holds p kind sub down next up) : (g.node p).down = down :=
  congrArg (·.2.2.1) h.2

theorem Holds.next_eq {p : NodeId} {kind : NodeKind} {sub down next : Option NodeId}
    (h : g.Holds p kind sub down next up) : (g.node p).next = next :=
  congrArg (·.2.2.2.1) h.2

theorem Holds.leaves_eq {p : NodeId} {kind : NodeKind} {sub down next : Option NodeId}
    (h : g.Holds p kind sub down next up) : (g.node p).leaves = up :=
  congrArg (·.2.2.2.2) h.2

/-- The ends of a phrase lead to what follows it. -/
theorem Shows.next_of_mem_exits {p : NodeId} (h : g.Shows e k up) (hp : p ∈ e.exits) :
    (g.node p).next = k := by
  induction e generalizing k up with
  | leaf q =>
    rw [List.mem_singleton.1 hp]
    exact h.2.next_eq
  | seq a b _ ihb => exact ihb h.2 hp
  | arm q e ih | opt q e ih =>
    rcases List.mem_cons.1 hp with rfl | hp
    · exact h.1.next_eq
    · exact ih h.2 hp
  | alt q e r ihe ihr =>
    rcases List.mem_cons.1 hp with rfl | hp
    · exact h.2.1.next_eq
    · rcases List.mem_append.1 hp with hp | hp
      · exact ihe h.2.2.1 hp
      · exact ihr h.2.2.2 hp
  | iter q e _ =>
    rw [List.mem_singleton.1 hp]
    exact h.1.next_eq

theorem Holds.congr {p : NodeId} {kind : NodeKind} {sub down next : Option NodeId}
    (h : g.Holds p kind sub down next up) (hsize : g.nodes.size ≤ g'.nodes.size)
    (hlinks : (g'.node p).links = (g.node p).links) : g'.Holds p kind sub down next up :=
  ⟨Nat.lt_of_lt_of_le h.1 hsize, hlinks.trans h.2⟩

/-- A phrase is shown wherever its nodes have the same links. -/
theorem Shows.congr (h : g.Shows e k up) (hsize : g.nodes.size ≤ g'.nodes.size)
    (hlinks : ∀ p ∈ e.nodes, (g'.node p).links = (g.node p).links) : g'.Shows e k up := by
  induction e generalizing k up with
  | leaf q =>
    have hq := hlinks q List.mem_cons_self
    have hkind : (g'.node q).kind = (g.node q).kind := congrArg Prod.fst hq
    rw [Shows, hkind]
    exact ⟨h.1, h.2.congr hsize hq⟩
  | seq a b iha ihb =>
    refine ⟨iha h.1 fun p hp => ?_, ihb h.2 fun p hp => ?_⟩
    · exact hlinks p (List.mem_append_left _ hp)
    · exact hlinks p (List.mem_append_right _ hp)
  | arm q e ih | opt q e ih | iter q e ih =>
    refine ⟨h.1.congr hsize (hlinks q List.mem_cons_self), ih h.2 fun p hp => ?_⟩
    exact hlinks p (List.mem_cons_of_mem q hp)
  | alt q e r ihe ihr =>
    refine ⟨h.1, h.2.1.congr hsize (hlinks q List.mem_cons_self), ihe h.2.2.1 fun p hp => ?_,
      ihr h.2.2.2 fun p hp => ?_⟩
    · exact hlinks p (List.mem_cons_of_mem q (List.mem_append_left _ hp))
    · exact hlinks p (List.mem_cons_of_mem q (List.mem_append_right _ hp))

/-- A node that is an end gets another successor, and may begin to leave a structure. -/
theorem Holds.change_exit {kind : NodeKind} {sub down k' : Option NodeId} {leave : Bool}
    (h : g.Holds p kind sub down k up) (hsize : g.nodes.size ≤ g'.nodes.size)
    (hexit : (g'.node p).links =
      ((g.node p).kind, (g.node p).sub, (g.node p).down, k', (g.node p).leaves || leave)) :
    g'.Holds p kind sub down k' (up || leave) := by
  obtain ⟨hlt, heq⟩ := h
  simp only [Node.links, Prod.mk.injEq] at heq
  refine ⟨Nat.lt_of_lt_of_le hlt hsize, ?_⟩
  rw [hexit, heq.1, heq.2.1, heq.2.2.1, heq.2.2.2.2]

/-- The ends of a phrase get another successor, and may begin to leave a structure. -/
theorem Shows.change_exits {k' : Option NodeId} {leave : Bool} (h : g.Shows e k up)
    (hnodup : e.nodes.Nodup) (hsize : g.nodes.size ≤ g'.nodes.size)
    (hother : ∀ p ∈ e.nodes, p ∉ e.exits → (g'.node p).links = (g.node p).links)
    (hexit : ∀ p ∈ e.exits, (g'.node p).links =
      ((g.node p).kind, (g.node p).sub, (g.node p).down, k', (g.node p).leaves || leave)) :
    g'.Shows e k' (up || leave) := by
  induction e generalizing k up with
  | leaf q =>
    have hq := hexit q List.mem_cons_self
    have hkind : (g'.node q).kind = (g.node q).kind := congrArg Prod.fst hq
    rw [Shows, hkind]
    exact ⟨h.1, h.2.change_exit hsize hq⟩
  | seq a b _ ihb =>
    obtain ⟨_, hb, hdisjoint⟩ := List.nodup_append'.1 hnodup
    refine ⟨h.1.congr hsize fun p hp => hother p (List.mem_append_left _ hp) fun hmem => ?_,
      ihb h.2 hb (fun p hp => hother p (List.mem_append_right _ hp)) hexit⟩
    exact hdisjoint hp (Phrase.mem_nodes_of_mem_exits hmem)
  | arm q e ih | opt q e ih =>
    obtain ⟨hq, he⟩ := List.nodup_cons.1 hnodup
    refine ⟨h.1.change_exit hsize (hexit q List.mem_cons_self), ih h.2 he (fun p hp hmem => ?_)
      fun p hp => hexit p (List.mem_cons_of_mem q hp)⟩
    refine hother p (List.mem_cons_of_mem q hp) fun hmem' => ?_
    rcases List.mem_cons.1 hmem' with rfl | hmem'
    · exact hq hp
    · exact hmem hmem'
  | alt q e r ihe ihr =>
    obtain ⟨hq, her⟩ := List.nodup_cons.1 hnodup
    obtain ⟨he, hr, hdisjoint⟩ := List.nodup_append'.1 her
    refine ⟨h.1, h.2.1.change_exit hsize (hexit q List.mem_cons_self),
      ihe h.2.2.1 he (fun p hp hmem => ?_)
        fun p hp => hexit p (List.mem_cons_of_mem q (List.mem_append_left _ hp)),
      ihr h.2.2.2 hr (fun p hp hmem => ?_)
        fun p hp => hexit p (List.mem_cons_of_mem q (List.mem_append_right _ hp))⟩
    · refine hother p (List.mem_cons_of_mem q (List.mem_append_left _ hp)) fun hmem' => ?_
      rcases List.mem_cons.1 hmem' with rfl | hmem'
      · exact hq (List.mem_append_left _ hp)
      · rcases List.mem_append.1 hmem' with hmem' | hmem'
        · exact hmem hmem'
        · exact hdisjoint hp (Phrase.mem_nodes_of_mem_exits hmem')
    · refine hother p (List.mem_cons_of_mem q (List.mem_append_right _ hp)) fun hmem' => ?_
      rcases List.mem_cons.1 hmem' with rfl | hmem'
      · exact hq (List.mem_append_right _ hp)
      · rcases List.mem_append.1 hmem' with hmem' | hmem'
        · exact hdisjoint (Phrase.mem_nodes_of_mem_exits hmem') hp
        · exact hmem hmem'
  | iter q e _ =>
    obtain ⟨hq, _⟩ := List.nodup_cons.1 hnodup
    refine ⟨h.1.change_exit hsize (hexit q List.mem_cons_self), h.2.congr hsize fun p hp => ?_⟩
    refine hother p (List.mem_cons_of_mem q hp) fun hmem => hq ?_
    rwa [← List.mem_singleton.1 hmem]

theorem Shows.link {k' : Option NodeId} (h : g.Shows e k up) (hnodup : e.nodes.Nodup) :
    (g.link e.exits k').Shows e k' up := by
  have hsize : (g.link e.exits k').nodes.size = g.nodes.size := size_link
  rw [← Bool.or_false up]
  refine h.change_exits hnodup (Nat.le_of_eq hsize.symm) (fun p hp hmem => ?_) fun p hp => ?_
  · rw [node_link, if_neg fun hin => hmem hin.1]
  · rw [node_link, if_pos ⟨hp, h.lt_size (Phrase.mem_nodes_of_mem_exits hp)⟩, Bool.or_false]
    rfl

theorem Shows.markLeaving (h : g.Shows e k up) (hnodup : e.nodes.Nodup) :
    (g.markLeaving e.exits).Shows e k true := by
  have hsize : (g.markLeaving e.exits).nodes.size = g.nodes.size := size_markLeaving
  rw [← Bool.or_true up]
  refine h.change_exits hnodup (Nat.le_of_eq hsize.symm) (fun p hp hmem => ?_) fun p hp => ?_
  · rw [node_markLeaving, if_neg fun hin => hmem hin.1]
  · rw [node_markLeaving, if_pos ⟨hp, h.lt_size (Phrase.mem_nodes_of_mem_exits hp)⟩, Bool.or_true,
      ← h.next_of_mem_exits hp]
    rfl

/-! ## Staying within a phrase -/

variable {p q : NodeId}

/-- The successor of a node is a node of the phrase or follows it. -/
theorem Shows.mem_of_next (h : g.Shows e k up) (hp : p ∈ e.nodes) (hq : (g.node p).next = some q) :
    q ∈ e.nodes ∨ k = some q := by
  induction e generalizing k up with
  | leaf r =>
    rw [List.mem_singleton.1 hp, h.2.next_eq] at hq
    exact .inr hq
  | seq a b iha ihb =>
    rcases List.mem_append.1 hp with hp | hp
    · rcases iha h.1 hp with hmem | heq
      · exact .inl (List.mem_append_left _ hmem)
      · exact .inl (List.mem_append_right _ (Option.some.inj heq ▸ b.entry_mem_nodes))
    · exact (ihb h.2 hp).imp_left (List.mem_append_right _)
  | arm r e ih | opt r e ih =>
    rcases List.mem_cons.1 hp with rfl | hp
    · exact .inr (h.1.next_eq ▸ hq)
    · exact (ih h.2 hp).imp_left (List.mem_cons_of_mem _)
  | alt r e f ihe ihf =>
    rcases List.mem_cons.1 hp with rfl | hp
    · exact .inr (h.2.1.next_eq ▸ hq)
    · rcases List.mem_append.1 hp with hp | hp
      · exact (ihe h.2.2.1 hp).imp_left fun hmem => List.mem_cons_of_mem _ (List.mem_append_left _ hmem)
      · exact (ihf h.2.2.2 hp).imp_left fun hmem => List.mem_cons_of_mem _ (List.mem_append_right _ hmem)
  | iter r e ih =>
    rcases List.mem_cons.1 hp with rfl | hp
    · exact .inr (h.1.next_eq ▸ hq)
    · rcases ih h.2 hp with hmem | heq
      · exact .inl (List.mem_cons_of_mem _ hmem)
      · exact .inl (Option.some.inj heq ▸ List.mem_cons_self)

/-- Contents of a node belong to the phrase. -/
theorem Shows.mem_of_contents (h : g.Shows e k up) (hp : p ∈ e.nodes)
    (hq : (g.node p).sub = some q ∨ (g.node p).down = some q) : q ∈ e.nodes := by
  -- the entry of a body is among the nodes of the body
  have hbody : ∀ {r : NodeId} {kind : NodeKind} {down next : Option NodeId} {e : Phrase} {up : Bool},
      g.Holds r kind (some e.entry) down next up → (g.node r).sub = some q → q ∈ e.nodes := by
    intro r kind down next e up hold hsub
    rw [hold.sub_eq] at hsub
    exact Option.some.inj hsub ▸ e.entry_mem_nodes
  induction e generalizing k up with
  | leaf r =>
    rw [List.mem_singleton.1 hp, h.2.sub_eq, h.2.down_eq] at hq
    rcases hq with hq | hq <;> cases hq
  | seq a b iha ihb =>
    rcases List.mem_append.1 hp with hp | hp
    · exact List.mem_append_left _ (iha h.1 hp)
    · exact List.mem_append_right _ (ihb h.2 hp)
  | arm r e ih | opt r e ih | iter r e ih =>
    rcases List.mem_cons.1 hp with rfl | hp
    · rcases hq with hq | hq
      · exact List.mem_cons_of_mem _ (hbody h.1 hq)
      · rw [h.1.down_eq] at hq
        cases hq
    · exact List.mem_cons_of_mem _ (ih h.2 hp)
  | alt r e f ihe ihf =>
    rcases List.mem_cons.1 hp with rfl | hp
    · rcases hq with hq | hq
      · exact List.mem_cons_of_mem _ (List.mem_append_left _ (hbody h.2.1 hq))
      · rw [h.2.1.down_eq] at hq
        refine List.mem_cons_of_mem _ (List.mem_append_right _ ?_)
        exact Option.some.inj hq ▸ f.entry_mem_nodes
    · rcases List.mem_append.1 hp with hp | hp
      · exact List.mem_cons_of_mem _ (List.mem_append_left _ (ihe h.2.2.1 hp))
      · exact List.mem_cons_of_mem _ (List.mem_append_right _ (ihf h.2.2.2 hp))

end Grammar

end Ebnf
