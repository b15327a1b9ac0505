import Ebnf.Proofs.Phrase.Outline

/-!
# Deletable phrases

Whether a chain can be passed without reading is found out on its outline, to a
depth that is bounded by the number of nodes.  For a phrase it follows from its
parts.

Main results:

- Theorem `Grammar.passable_outline`: the outline of a phrase can be passed if the
  phrase can and what is seen behind it.
- Theorem `Grammar.deletableWithin_entry`: the contents of a structure are deletable
  if their phrase is.
- Theorem `Grammar.deletableChain_entry`: a chain that begins with a phrase is deletable
  to the very end if the phrase is and the chain behind it is.
-/

namespace Ebnf

/-- Whether a phrase can be passed without reading, given the leaves that can. -/
def Phrase.nullable (del : NodeId → Bool) : Phrase → Bool
  | leaf p => del p
  | seq a b => a.nullable del && b.nullable del
  | arm _ e => e.nullable del
  | alt _ e r => e.nullable del || r.nullable del
  | opt _ _ | iter _ _ => true

/-- Whether an outline can be passed, given the leaves that can. -/
def Outline.passable (ok : NodeId → Bool) : Outline → Bool
  | done => true
  | leaf p next => ok p && (next ()).passable ok
  | group _ _ next => (next ()).passable ok
  | arm _ body down next =>
    ((body ()).passable ok || ((down ()).head?.isSome && (down ()).passable ok)) &&
      (next ()).passable ok

namespace Grammar

variable {g : Grammar} {e : Phrase} {k : Option NodeId} {up : Bool}

/-! ## Passing outlines -/

theorem deletableOutline_eq_passable (o : Outline) :
    g.deletableOutline o = o.passable g.leafDeletable := by
  induction o with
  | done => rfl
  | leaf p next ih => rw [deletableOutline, Outline.passable, ih]
  | group p body next _ ih => rw [deletableOutline, Outline.passable, ih]
  | arm p body down next ihb ihd ihn =>
    rw [deletableOutline, Outline.passable, ihb, ihd, ihn]

/-- The outline of a phrase can be passed if the phrase can and what is seen behind it. -/
theorem passable_outline {ok : NodeId → Bool} {rest : Outline} :
    (e.outline rest).passable ok = (e.nullable ok && rest.passable ok) := by
  induction e generalizing rest with
  | leaf p => rfl
  | seq a b iha ihb => rw [Phrase.outline, iha, ihb, Phrase.nullable, Bool.and_assoc]
  | arm p e ih =>
    rw [Phrase.outline, Outline.passable, ih, Phrase.nullable]
    simp [Outline.head?, Outline.passable]
  | alt p e r ihe ihr =>
    rw [Phrase.outline, Outline.passable, ihe, ihr, Phrase.head?_outline, Phrase.nullable]
    simp [Outline.passable]
  | opt p e | iter p e => rfl

/-- The outline of a closed phrase can be passed if the phrase can. -/
theorem passable_entry {ok : NodeId → Bool} (h : g.Shows e k up) (hnodup : e.nodes.Nodup)
    (hclosed : up = true ∨ k = none) :
    (g.outline (some e.entry)).passable ok = e.nullable ok := by
  rw [outline_entry h hnodup hclosed, passable_outline]
  exact Bool.and_true _

/-- The contents of a structure are deletable if their phrase is. -/
theorem deletableWithin_entry (h : g.Shows e k true) (hnodup : e.nodes.Nodup) :
    g.deletableWithin (some e.entry) = e.nullable g.leafDeletable := by
  rw [deletableWithin, deletableOutline_eq_passable, passable_entry h hnodup (.inl rfl)]

/-- The first node of a phrase that is no sequence stands for the whole phrase. -/
theorem deletableNode_entry (h : g.Shows e k up) (hnodup : e.nodes.Nodup)
    (hseq : ∀ a b, e ≠ .seq a b) :
    g.deletableNode e.entry = e.nullable g.leafDeletable ∧ (g.node e.entry).next = k := by
  cases e with
  | leaf p =>
    refine ⟨?_, h.2.next_eq⟩
    have hkind := h.1
    rw [Phrase.entry, Phrase.nullable, deletableNode]
    cases hk : (g.node p).kind <;> first | rfl | simp [hk, NodeKind.isLeaf] at hkind
  | seq a b => exact absurd rfl (hseq a b)
  | arm p e =>
    obtain ⟨_, he⟩ := List.nodup_cons.1 hnodup
    refine ⟨?_, h.1.next_eq⟩
    rw [Phrase.entry, deletableNode, h.1.kind_eq]
    simp only [h.1.sub_eq, h.1.down_eq, deletableWithin_entry h.2 he, Option.isSome_none,
      Bool.false_and, Bool.or_false]
    rfl
  | alt p e r =>
    obtain ⟨_, her⟩ := List.nodup_cons.1 hnodup
    obtain ⟨he, hr, _⟩ := List.nodup_append'.1 her
    refine ⟨?_, h.2.1.next_eq⟩
    rw [Phrase.entry, deletableNode, h.2.1.kind_eq]
    simp only [h.2.1.sub_eq, h.2.1.down_eq, deletableWithin_entry h.2.2.1 he,
      deletableWithin_entry h.2.2.2 hr, Option.isSome_some, Bool.true_and]
    rfl
  | opt p e | iter p e =>
    refine ⟨?_, h.1.next_eq⟩
    rw [Phrase.entry, deletableNode, h.1.kind_eq]
    rfl

/-! ## To the very end -/

variable {p : NodeId} {m n : Nat}

/-- The successors of a node come to an end after `n` nodes. -/
inductive Ends (g : Grammar) : Nat → Option NodeId → Prop
  | done : Ends g 0 none
  | step {n : Nat} {p : NodeId} (h : Ends g n (g.node p).next) : Ends g (n + 1) (some p)

theorem Ends.deletableAlong_eq {fuel : Nat} {q : Option NodeId} (h : g.Ends n q) (hfuel : n ≤ fuel) :
    g.deletableAlong fuel q = g.deletableAlong n q := by
  induction h generalizing fuel with
  | done => cases fuel <;> rfl
  | step _ ih =>
    obtain ⟨fuel, rfl⟩ := Nat.exists_eq_add_of_le' (Nat.le_trans (Nat.le_add_left 1 _) hfuel)
    rw [deletableAlong, deletableAlong, ih (Nat.le_of_succ_le_succ hfuel)]

theorem Holds.ends {kind : NodeKind} {sub down : Option NodeId} (h : g.Holds p kind sub down k up)
    (hk : g.Ends m k) : g.Ends (m + 1) (some p) :=
  .step (h.next_eq.symm ▸ hk)

/-- From a node of a phrase one comes to the end, if one does so behind the phrase. -/
theorem Shows.ends (h : g.Shows e k up) (hp : p ∈ e.nodes) (hk : g.Ends m k) :
    ∃ n, n ≤ m + e.nodes.length ∧ g.Ends n (some p) := by
  induction e generalizing k up m p with
  | leaf q => exact ⟨m + 1, Nat.le_refl _, List.mem_singleton.1 hp ▸ h.2.ends hk⟩
  | seq a b iha ihb =>
    rw [Phrase.nodes, List.length_append]
    rcases List.mem_append.1 hp with hp | hp
    · obtain ⟨n, hn, hb⟩ := ihb h.2 b.entry_mem_nodes hk
      obtain ⟨n', hn', ha⟩ := iha h.1 hp hb
      exact ⟨n', by omega, ha⟩
    · obtain ⟨n, hn, hb⟩ := ihb h.2 hp hk
      exact ⟨n, by omega, hb⟩
  | arm q e ih | opt q e ih =>
    rw [Phrase.nodes, List.length_cons]
    rcases List.mem_cons.1 hp with rfl | hp
    · exact ⟨m + 1, by omega, h.1.ends hk⟩
    · obtain ⟨n, hn, hends⟩ := ih h.2 hp hk
      exact ⟨n, by omega, hends⟩
  | alt q e r ihe ihr =>
    rw [Phrase.nodes, List.length_cons, List.length_append]
    rcases List.mem_cons.1 hp with rfl | hp
    · exact ⟨m + 1, by omega, h.2.1.ends hk⟩
    · rcases List.mem_append.1 hp with hp | hp
      · obtain ⟨n, hn, hends⟩ := ihe h.2.2.1 hp hk
        exact ⟨n, by omega, hends⟩
      · obtain ⟨n, hn, hends⟩ := ihr h.2.2.2 hp hk
        exact ⟨n, by omega, hends⟩
  | iter q e ih =>
    rw [Phrase.nodes, List.length_cons]
    have hq : g.Ends (m + 1) (some q) := h.1.ends hk
    rcases List.mem_cons.1 hp with rfl | hp
    · exact ⟨m + 1, by omega, hq⟩
    · obtain ⟨n, hn, hends⟩ := ih h.2 hp hq
      exact ⟨n, by omega, hends⟩

theorem deletableChain_none : g.deletableChain none = true := by
  unfold deletableChain
  cases g.nodes.size <;> rfl

/-- A chain that comes to an end is deletable if its first node is and the chain behind is. -/
theorem deletableChain_some (h : g.Ends n (some p)) (hn : n ≤ g.nodes.size) :
    g.deletableChain (some p) = (g.deletableNode p && g.deletableChain (g.node p).next) := by
  cases h with
  | step h =>
    unfold deletableChain
    rw [h.deletableAlong_eq (Nat.le_of_succ_le hn), (Ends.step h).deletableAlong_eq hn,
      deletableAlong]

/-- What follows a phrase comes to an end, and there are enough nodes to get there. -/
def Finite (g : Grammar) (e : Phrase) (k : Option NodeId) : Prop :=
  ∃ m, g.Ends m k ∧ m + e.nodes.length ≤ g.nodes.size

theorem Shows.finite (h : g.Shows e none up) (hnodup : e.nodes.Nodup) : g.Finite e none :=
  ⟨0, .done, by simpa using h.length_nodes_le hnodup⟩

theorem deletableChain_mem (h : g.Shows e k up) (hk : g.Finite e k) (hp : p ∈ e.nodes) :
    g.deletableChain (some p) = (g.deletableNode p && g.deletableChain (g.node p).next) := by
  obtain ⟨m, hm, hroom⟩ := hk
  obtain ⟨n, hn, hends⟩ := h.ends hp hm
  exact deletableChain_some hends (by omega)

theorem Finite.first {a b : Phrase} (h : g.Shows (.seq a b) k up) (hk : g.Finite (.seq a b) k) :
    g.Finite a (some b.entry) := by
  obtain ⟨m, hm, hroom⟩ := hk
  obtain ⟨n, hn, hends⟩ := h.2.ends b.entry_mem_nodes hm
  rw [Phrase.nodes, List.length_append] at hroom
  exact ⟨n, hends, by omega⟩

/-- A part that is followed by what follows the whole. -/
theorem Finite.part {a : Phrase} (hk : g.Finite e k) (hle : a.nodes.length ≤ e.nodes.length) :
    g.Finite a k := by
  obtain ⟨m, hm, hroom⟩ := hk
  exact ⟨m, hm, by omega⟩

theorem Finite.round (h : g.Shows (.iter p e) k up) (hk : g.Finite (.iter p e) k) :
    g.Finite e (some p) := by
  obtain ⟨m, hm, hroom⟩ := hk
  rw [Phrase.nodes, List.length_cons] at hroom
  exact ⟨m + 1, h.1.ends hm, by omega⟩

/-- A chain that begins with a phrase is deletable if the phrase is and the chain behind it is. -/
theorem deletableChain_entry (h : g.Shows e k up) (hnodup : e.nodes.Nodup) (hk : g.Finite e k) :
    g.deletableChain (some e.entry) = (e.nullable g.leafDeletable && g.deletableChain k) := by
  induction e generalizing k up with
  | seq a b iha ihb =>
    obtain ⟨ha, hb, _⟩ := List.nodup_append'.1 hnodup
    rw [Phrase.entry, iha h.1 ha (hk.first h),
      ihb h.2 hb (hk.part (by simp [Phrase.nodes])), Phrase.nullable, Bool.and_assoc]
  | leaf p | arm p e | alt p e r | opt p e | iter p e =>
    obtain ⟨hdel, hnext⟩ := deletableNode_entry h hnodup (by simp)
    rw [deletableChain_mem h hk (Phrase.entry_mem_nodes _), hdel, hnext]

end Grammar

end Ebnf
