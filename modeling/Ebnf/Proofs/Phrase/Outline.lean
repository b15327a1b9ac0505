import Ebnf.Outline
import Ebnf.Proofs.Phrase.Basic

/-!
# Outlines of phrases

The outline of a chain is computed to a depth that is bounded by the number of nodes.
For a phrase it is the tree of the phrase itself, with what is seen behind it at its
end, so that a walk over the outline is a recursion on the phrase.

Main results:

- Theorem `Grammar.outlineWithin_entry`: to a sufficient depth one sees the outline of the
  phrase and then what is seen behind it.
- Theorem `Grammar.outlineWithin_closed`: of a phrase that nothing follows in its structure
  one sees the outline of the phrase alone.
- Theorem `Grammar.Unfolded.step`: what can be seen to its end can be seen so behind each
  node and inside it.
-/

namespace Ebnf

/-- The outline of a phrase, before the outline of what is seen behind it. -/
def Phrase.outline : Phrase → Outline → Outline
  | leaf p, rest => .leaf p fun _ => rest
  | seq a b, rest => a.outline (b.outline rest)
  | arm p e, rest => .arm p (fun _ => e.outline .done) (fun _ => .done) fun _ => rest
  | alt p e r, rest => .arm p (fun _ => e.outline .done) (fun _ => r.outline .done) fun _ => rest
  | opt p e, rest | iter p e, rest => .group p (fun _ => e.outline .done) fun _ => rest

theorem Phrase.head?_outline {e : Phrase} {rest : Outline} :
    (e.outline rest).head? = some e.entry := by
  induction e generalizing rest with
  | seq a b iha _ => exact iha
  | _ => rfl

theorem Phrase.nodes_outline {e : Phrase} {rest : Outline} :
    (e.outline rest).nodes = e.nodes ++ rest.nodes := by
  induction e generalizing rest with
  | leaf p => rfl
  | seq a b iha ihb => rw [outline, iha, ihb, nodes, List.append_assoc]
  | arm p e ih => simp [outline, Outline.nodes, ih, nodes]
  | alt p e r ihe ihr => simp [outline, Outline.nodes, ihe, ihr, nodes]
  | opt p e ih | iter p e ih => simp [outline, Outline.nodes, ih, nodes]

namespace Grammar

variable {g : Grammar} {e : Phrase} {k : Option NodeId} {up : Bool}

/-- What an outline shows behind a node. -/
def outlineBehind (g : Grammar) (fuel : Nat) (p : NodeId) : Outline :=
  if (g.node p).leaves then .done else g.outlineWithin fuel (g.node p).next

theorem outlineWithin_leaf {fuel : Nat} {p : NodeId} (hkind : (g.node p).kind.isLeaf = true) :
    g.outlineWithin (fuel + 1) (some p) = .leaf p fun _ => g.outlineBehind fuel p := by
  rw [outlineWithin]
  cases hk : (g.node p).kind <;> first | rfl | simp [hk, NodeKind.isLeaf] at hkind

theorem outlineWithin_group {fuel : Nat} {p : NodeId}
    (hkind : (g.node p).kind = .opt ∨ (g.node p).kind = .iter) :
    g.outlineWithin (fuel + 1) (some p) = .group p (fun _ => g.outlineWithin fuel (g.node p).sub)
      fun _ => g.outlineBehind fuel p := by
  rw [outlineWithin]
  rcases hkind with hk | hk <;> simp only [hk] <;> rfl

theorem outlineWithin_alt {fuel : Nat} {p : NodeId} (hkind : (g.node p).kind = .alt) :
    g.outlineWithin (fuel + 1) (some p) = .arm p (fun _ => g.outlineWithin fuel (g.node p).sub)
      (fun _ => g.outlineWithin fuel (g.node p).down) fun _ => g.outlineBehind fuel p := by
  rw [outlineWithin]
  simp only [hkind]
  rfl

theorem outlineWithin_none {fuel : Nat} : g.outlineWithin fuel none = .done := by
  cases fuel <;> rfl

/-- What the outline shows behind a phrase has a property, to every depth from `m` on.  Where the ends
of the phrase leave their structure, nothing is shown. -/
def Behind (g : Grammar) (m : Nat) (k : Option NodeId) (up : Bool) (P : Outline → Prop) : Prop :=
  if up then P .done else ∀ n, m ≤ n → P (g.outlineWithin n k)

/-- Behind the ends of a phrase comes what follows it, unless they leave their structure. -/
theorem Holds.of_behind {m fuel : Nat} {p : NodeId} {kind : NodeKind} {sub down : Option NodeId}
    {P : Outline → Prop} (h : g.Holds p kind sub down k up) (hrest : g.Behind m k up P)
    (hfuel : m ≤ fuel) : P (g.outlineBehind fuel p) := by
  unfold outlineBehind
  rw [h.leaves_eq, h.next_eq]
  cases up with
  | true => exact hrest
  | false => exact hrest fuel hfuel

/-- To a sufficient depth one sees the outline of a phrase, and then what is seen behind it. -/
theorem outlineWithin_entry {P : Outline → Prop} (m fuel : Nat) (h : g.Shows e k up)
    (hrest : g.Behind m k up P) (hfuel : m + e.nodes.length ≤ fuel) :
    ∃ rest, P rest ∧ g.outlineWithin fuel (some e.entry) = e.outline rest := by
  induction e generalizing k up m fuel P with
  | leaf p =>
    have hpos : 1 ≤ fuel := Nat.le_trans (Nat.le_add_left _ _) hfuel
    obtain ⟨n, rfl⟩ := Nat.exists_eq_add_of_le' hpos
    exact ⟨_, h.2.of_behind hrest (Nat.le_of_succ_le_succ hfuel), outlineWithin_leaf h.1⟩
  | seq a b iha ihb =>
    rw [Phrase.nodes, List.length_append] at hfuel
    have hb : g.Behind (m + b.nodes.length) (some b.entry) false
        fun o => ∃ rest, P rest ∧ o = b.outline rest := fun n hn => ihb m n h.2 hrest hn
    obtain ⟨_, ⟨rest, hP, rfl⟩, heq⟩ := iha _ fuel h.1 hb (by omega)
    exact ⟨rest, hP, heq⟩
  | arm p e ih =>
    rw [Phrase.nodes, List.length_cons] at hfuel
    obtain ⟨n, rfl⟩ := Nat.exists_eq_add_of_le' (show 1 ≤ fuel by omega)
    obtain ⟨_, rfl, hbody⟩ := ih 0 n h.2 (P := (· = .done)) rfl (by omega)
    refine ⟨_, h.1.of_behind hrest (show m ≤ n by omega), ?_⟩
    rw [Phrase.entry, outlineWithin_alt h.1.kind_eq, h.1.sub_eq, h.1.down_eq, hbody,
      outlineWithin_none]
    rfl
  | alt p e r ihe ihr =>
    rw [Phrase.nodes, List.length_cons, List.length_append] at hfuel
    obtain ⟨n, rfl⟩ := Nat.exists_eq_add_of_le' (show 1 ≤ fuel by omega)
    obtain ⟨_, rfl, hbody⟩ := ihe 0 n h.2.2.1 (P := (· = .done)) rfl (by omega)
    obtain ⟨_, rfl, hmore⟩ := ihr 0 n h.2.2.2 (P := (· = .done)) rfl (by omega)
    refine ⟨_, h.2.1.of_behind hrest (show m ≤ n by omega), ?_⟩
    rw [Phrase.entry, outlineWithin_alt h.2.1.kind_eq, h.2.1.sub_eq, h.2.1.down_eq, hbody, hmore]
    rfl
  | opt p e ih | iter p e ih =>
    rw [Phrase.nodes, List.length_cons] at hfuel
    obtain ⟨n, rfl⟩ := Nat.exists_eq_add_of_le' (show 1 ≤ fuel by omega)
    obtain ⟨_, rfl, hbody⟩ := ih 0 n h.2 (P := (· = .done)) rfl (by omega)
    refine ⟨_, h.1.of_behind hrest (show m ≤ n by omega), ?_⟩
    rw [Phrase.entry, outlineWithin_group (by simp [h.1.kind_eq]), h.1.sub_eq, hbody]
    rfl

/-- Of a phrase that nothing follows in its structure one sees the outline of the phrase alone, to
every sufficient depth. -/
theorem outlineWithin_closed {fuel : Nat} (h : g.Shows e k up) (hclosed : up = true ∨ k = none)
    (hfuel : e.nodes.length ≤ fuel) : g.outlineWithin fuel (some e.entry) = e.outline .done := by
  have hrest : g.Behind 0 k up (· = .done) := by
    unfold Behind
    split
    · rfl
    · intro n _
      rw [hclosed.resolve_left ‹_›, outlineWithin_none]
  obtain ⟨_, rfl, heq⟩ := outlineWithin_entry 0 fuel h hrest (by omega)
  exact heq

theorem outline_entry (h : g.Shows e k up) (hnodup : e.nodes.Nodup)
    (hclosed : up = true ∨ k = none) : g.outline (some e.entry) = e.outline .done :=
  outlineWithin_closed h hclosed (h.length_nodes_le hnodup)

/-! ## Outlines that do not grow -/

/-- What is seen from a node is seen to its end: one node deeper nothing is added. -/
def Unfolded (g : Grammar) (fuel : Nat) (r : Option NodeId) : Prop :=
  g.outlineWithin (fuel + 1) r = g.outlineWithin fuel r

theorem unfolded_closed {fuel : Nat} (h : g.Shows e k up) (hclosed : up = true ∨ k = none)
    (hfuel : e.nodes.length ≤ fuel) : g.Unfolded fuel (some e.entry) := by
  unfold Unfolded
  rw [outlineWithin_closed h hclosed hfuel, outlineWithin_closed h hclosed (Nat.le_succ_of_le hfuel)]

theorem unfolded_behind {fuel : Nat} {p : NodeId} (hleaves : (g.node p).leaves = false)
    (h : g.outlineBehind (fuel + 1) p = g.outlineBehind fuel p) :
    g.Unfolded fuel (g.node p).next := by
  unfold outlineBehind at h
  rwa [hleaves] at h

/-- To depth 0 no node is seen to its end. -/
theorem not_unfolded_zero {p : NodeId} : ¬ g.Unfolded 0 (some p) := by
  intro h
  unfold Unfolded at h
  rcases (g.node p).kind.leaf_or_group_or_alt with hleaf | hgroup | halt
  · rw [outlineWithin_leaf hleaf] at h
    cases h
  · rw [outlineWithin_group hgroup] at h
    cases h
  · rw [outlineWithin_alt halt] at h
    cases h

/-- What is seen to its end from a node is seen so behind the node and inside it. -/
theorem Unfolded.step {fuel : Nat} {p : NodeId} (h : g.Unfolded fuel (some p)) :
    ∃ n, fuel = n + 1 ∧ ((g.node p).kind.isLeaf = false → g.Unfolded n (g.node p).sub) ∧
      ((g.node p).kind = .alt → g.Unfolded n (g.node p).down) ∧
      ((g.node p).leaves = false → g.Unfolded n (g.node p).next) := by
  have hpos : fuel ≠ 0 := by
    rintro rfl
    exact not_unfolded_zero h
  obtain ⟨n, rfl⟩ := Nat.exists_eq_succ_of_ne_zero hpos
  unfold Unfolded at h
  refine ⟨n, rfl, ?_⟩
  rcases (g.node p).kind.leaf_or_group_or_alt with hleaf | hgroup | halt
  · rw [outlineWithin_leaf hleaf, outlineWithin_leaf hleaf] at h
    injection h with _ hnext
    have hother : (g.node p).kind ≠ .alt := fun heq => by simp [heq, NodeKind.isLeaf] at hleaf
    exact ⟨fun hfalse => absurd hleaf (by simp [hfalse]), fun heq => absurd heq hother,
      fun hleaves => unfolded_behind hleaves (congrFun hnext ())⟩
  · rw [outlineWithin_group hgroup, outlineWithin_group hgroup] at h
    injection h with _ hbody hnext
    have hother : (g.node p).kind ≠ .alt := by rcases hgroup with hk | hk <;> simp [hk]
    exact ⟨fun _ => congrFun hbody (), fun heq => absurd heq hother,
      fun hleaves => unfolded_behind hleaves (congrFun hnext ())⟩
  · rw [outlineWithin_alt halt, outlineWithin_alt halt] at h
    injection h with _ hbody hdown hnext
    exact ⟨fun _ => congrFun hbody (), fun _ => congrFun hdown (),
      fun hleaves => unfolded_behind hleaves (congrFun hnext ())⟩

end Grammar

end Ebnf
