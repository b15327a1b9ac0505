import Mathlib.Tactic.Linarith
import Ebnf.Proofs.Phrase.Chain

/-!
# How deep the moves that leave a state are searched

The search for the moves that leave a state passes through options and
iterations, and ends at one whose body may be empty.  So it does not come back to
where it was, and a bound that grows with the square of the number of nodes is
large enough.

Main results:

- Theorem `Grammar.Shows.solid_iff_mem`: which phrases have a hollow option or
  iteration.
- Theorem `Grammar.Shows.leaving_isSome`: the bound that is used is large enough.
-/

namespace Ebnf

/-- No option or iteration has a body that can be passed without reading. -/
def Phrase.solid : Phrase → Bool
  | leaf _ => true
  | seq a b => a.solid && b.solid
  | arm _ e => e.solid
  | alt _ e r => e.solid && r.solid
  | opt _ e | iter _ e => !e.nullable (fun _ => false) && e.solid

namespace Grammar

variable {g : Grammar} {e : Phrase} {k : Option NodeId} {up : Bool} {p q : NodeId} {m n : Nat}

/-! ## Faults -/

theorem Shows.deletableWithin_body (h : g.Shows e k true) (hnodup : e.nodes.Nodup)
    (hreads : e.ReadsAll g) {down next : Option NodeId} {kind : NodeKind}
    (hold : g.Holds p kind (some e.entry) down next up) :
    g.deletableWithin (g.node p).sub = e.nullable (fun _ => false) := by
  rw [hold.sub_eq, deletableWithin_entry h hnodup, nullable_leafDeletable hreads]

/-- A phrase is solid if none of its nodes is hollow. -/
theorem Shows.solid_iff_mem (h : g.Shows e k up) (hnodup : e.nodes.Nodup)
    (hreads : e.ReadsAll g) : e.solid = true ↔ ∀ p ∈ e.nodes, ¬ g.Hollow p := by
  induction e generalizing k up with
  | leaf q =>
    have hleaf := h.1
    refine iff_of_true rfl fun p hp hhollow => ?_
    rw [List.mem_singleton.1 hp] at hhollow
    rcases hhollow.1 with hkind | hkind <;> simp [hkind, NodeKind.isLeaf] at hleaf
  | seq a b iha ihb =>
    obtain ⟨ha, hb, _⟩ := List.nodup_append'.1 hnodup
    rw [Phrase.solid, Bool.and_eq_true, iha h.1 ha hreads.1, ihb h.2 hb hreads.2, Phrase.nodes,
      List.forall_mem_append]
  | arm q e ih =>
    have hq : ¬ g.Hollow q := fun hhollow => by simp [Hollow, h.1.kind_eq] at hhollow
    rw [Phrase.solid, ih h.2 (List.nodup_cons.1 hnodup).2 hreads, Phrase.nodes,
      List.forall_mem_cons, and_iff_right hq]
  | alt q e r ihe ihr =>
    obtain ⟨he, hr, _⟩ := List.nodup_append'.1 (List.nodup_cons.1 hnodup).2
    have hq : ¬ g.Hollow q := fun hhollow => by simp [Hollow, h.2.1.kind_eq] at hhollow
    rw [Phrase.solid, Bool.and_eq_true, ihe h.2.2.1 he hreads.1, ihr h.2.2.2 hr hreads.2,
      Phrase.nodes, List.forall_mem_cons, List.forall_mem_append, and_iff_right hq]
  | opt q e ih | iter q e ih =>
    obtain ⟨_, he⟩ := List.nodup_cons.1 hnodup
    have hq : ¬ g.Hollow q ↔ e.nullable (fun _ => false) = false := by
      rw [← h.2.deletableWithin_body he hreads h.1]
      simp [Hollow, h.1.kind_eq]
    rw [Phrase.solid, Bool.and_eq_true, Bool.not_eq_true', ih h.2 he hreads, Phrase.nodes,
      List.forall_mem_cons, hq]

theorem Shows.solid (h : g.Shows e none up) (hnodup : e.nodes.Nodup) (hreads : e.ReadsAll g)
    (hsolid : e.solid = true) (hp : p ∈ e.nodes) : g.Solid p :=
  Grammar.solid_iff.2 fun q hpass =>
    (h.solid_iff_mem hnodup hreads).1 hsolid q (h.mem_of_passes hp hpass)

/-! ## The bound -/

/-- With a bound of at least `n` the search from `p` succeeds, for every state. -/
def Fueled (g : Grammar) (n : Nat) (p : Option NodeId) : Prop :=
  ∀ m, n ≤ m → ∀ s passed, (g.leaving m s p passed).isSome = true

theorem Fueled.mono {p : Option NodeId} (h : g.Fueled n p) (hle : n ≤ m) : g.Fueled m p :=
  fun i hi => h i (Nat.le_trans hle hi)

theorem fueled_none : g.Fueled 0 none := by
  intro m _ s passed
  cases m <;> rfl

/-- One more level for the node, and one for the moves of an iteration's own state. -/
theorem fueled_node (h : ∀ q ∈ (g.node p).silent, g.Fueled n (some q)) :
    g.Fueled (n + 2) (some p) := by
  intro m hm s passed
  obtain ⟨i, rfl⟩ := Nat.exists_eq_add_of_le' (Nat.le_trans (Nat.le_add_left 2 n) hm)
  refine leaving_isSome (fun q hq => h q hq (i + 1) (by omega)) fun _ t ht => .inr ?_
  refine leaving_isSome (fun q hq => h q hq i (by omega)) fun _ u hu => .inl ?_
  exact Option.some.inj (hu.symm.trans ht)

/-- At a fault the search goes no further. -/
theorem fueled_hollow (h : g.Hollow p) : g.Fueled 1 (some p) := by
  intro m hm s passed
  obtain ⟨i, rfl⟩ := Nat.exists_eq_add_of_le' hm
  exact leaving_isSome_of_hollow h

/-- An option or iteration, if the search from its body succeeds unless the body may be empty. -/
theorem fueled_group {kind : NodeKind} {down next : Option NodeId}
    (hkind : kind = .opt ∨ kind = .iter) (hold : g.Holds p kind (some e.entry) down next up)
    (h : g.Shows e k true) (hnodup : e.nodes.Nodup) (hnext : g.Fueled n next)
    (hbody : e.nullable g.leafDeletable = false → g.Fueled n (some e.entry)) :
    g.Fueled (n + 2) (some p) := by
  rw [← hold.kind_eq] at hkind
  have hdel : g.deletableWithin (g.node p).sub = e.nullable g.leafDeletable := by
    rw [hold.sub_eq, deletableWithin_entry h hnodup]
  cases hnull : e.nullable g.leafDeletable with
  | true =>
    rw [hnull] at hdel
    exact (fueled_hollow ⟨hkind, hdel⟩).mono (Nat.le_add_left 1 (n + 1))
  | false =>
    refine fueled_node fun q hq => ?_
    rcases (Node.mem_silent_group hkind).1 hq with hq | hq
    · exact hq.symm.trans hold.next_eq ▸ hnext
    · exact hq.symm.trans hold.sub_eq ▸ hbody hnull

/-- If a phrase can be passed, the bound depends on what follows it; otherwise it does not. -/
theorem Shows.fueled_entry (h : g.Shows e k up) (hnodup : e.nodes.Nodup)
    (hk : e.nullable g.leafDeletable = true → g.Fueled m k) :
    g.Fueled (m + 2 * e.nodes.length) (some e.entry) := by
  induction e generalizing k up m with
  | leaf p =>
    have hleaf := h.1
    refine (fueled_node (n := 0) fun q hq => ?_).mono (Nat.le_add_left 2 m)
    unfold Node.silent at hq
    split at hq <;> simp_all [Phrase.entry, NodeKind.isLeaf]
  | seq a b iha ihb =>
    obtain ⟨hna, hnb, _⟩ := List.nodup_append'.1 hnodup
    refine (iha h.1 hna fun ha => ihb (m := m) h.2 hnb fun hb => hk ?_).mono ?_
    · rw [Phrase.nullable, ha, hb]
      rfl
    · rw [Phrase.nodes, List.length_append]
      omega
  | arm p e ih =>
    refine (fueled_node fun q hq => ?_).mono (n := m + 2 * e.nodes.length + 2) (Nat.le_refl _)
    have hq' : q = e.entry := by
      rcases (Node.mem_silent_alt h.1.kind_eq).1 hq with hq | hq
      · exact Option.some.inj (hq.symm.trans h.1.sub_eq)
      · rw [h.1.down_eq] at hq
        cases hq
    rw [hq']
    exact ih h.2 (List.nodup_cons.1 hnodup).2 hk
  | alt p e r ihe ihr =>
    obtain ⟨hne, hnr, _⟩ := List.nodup_append'.1 (List.nodup_cons.1 hnodup).2
    rw [Phrase.nodes, List.length_cons, List.length_append]
    refine (fueled_node fun q hq => ?_).mono
      (n := m + 2 * (e.nodes.length + r.nodes.length) + 2) (by omega)
    rcases (Node.mem_silent_alt h.2.1.kind_eq).1 hq with hq | hq
    · rw [Option.some.inj (hq.symm.trans h.2.1.sub_eq)]
      refine (ihe h.2.2.1 hne fun he => hk ?_).mono (by omega)
      rw [Phrase.nullable, he, Bool.true_or]
    · rw [Option.some.inj (hq.symm.trans h.2.1.down_eq)]
      refine (ihr h.2.2.2 hnr fun hr => hk ?_).mono (by omega)
      rw [Phrase.nullable, hr, Bool.or_true]
  | opt p e ih =>
    have hne := (List.nodup_cons.1 hnodup).2
    exact fueled_group (.inl rfl) h.1 h.2 hne ((hk rfl).mono (Nat.le_add_right m _))
      fun hnull => ih h.2 hne fun he => absurd (hnull.symm.trans he) Bool.false_ne_true
  | iter p e ih =>
    have hne := (List.nodup_cons.1 hnodup).2
    exact fueled_group (.inr rfl) h.1 h.2 hne ((hk rfl).mono (Nat.le_add_right m _))
      fun hnull => ih h.2 hne fun he => absurd (hnull.symm.trans he) Bool.false_ne_true

/-- A bound for all nodes of a phrase. -/
theorem Shows.fueled_mem (h : g.Shows e k up) (hnodup : e.nodes.Nodup)
    (hk : g.Fueled m k) (hp : p ∈ e.nodes) :
    g.Fueled (m + e.nodes.length * (e.nodes.length + 1)) (some p) := by
  have hentry : ∀ {e : Phrase} {k : Option NodeId} {up : Bool} {m : Nat}, g.Shows e k up →
      e.nodes.Nodup → g.Fueled m k →
      g.Fueled (m + e.nodes.length * (e.nodes.length + 1)) (some e.entry) := by
    intro e k up m h hnodup hk
    have hpos : 0 < e.nodes.length := List.length_pos_of_mem e.entry_mem_nodes
    refine (h.fueled_entry hnodup fun _ => hk).mono ?_
    nlinarith
  induction e generalizing k up m with
  | leaf q =>
    rw [List.mem_singleton.1 hp]
    exact hentry (e := .leaf q) h hnodup hk
  | seq a b iha ihb =>
    obtain ⟨ha, hb, _⟩ := List.nodup_append'.1 hnodup
    have hpos : 0 < a.nodes.length := List.length_pos_of_mem a.entry_mem_nodes
    rw [Phrase.nodes, List.length_append]
    rcases List.mem_append.1 hp with hp | hp
    · refine (iha h.1 ha (h.2.fueled_entry hb fun _ => hk) hp).mono ?_
      nlinarith
    · refine (ihb h.2 hb hk hp).mono ?_
      nlinarith
  | arm q e ih =>
    rcases List.mem_cons.1 hp with rfl | hp
    · exact hentry (e := .arm p e) h hnodup hk
    · refine (ih h.2 (List.nodup_cons.1 hnodup).2 hk hp).mono ?_
      rw [Phrase.nodes, List.length_cons]
      nlinarith
  | alt q e r ihe ihr =>
    rcases List.mem_cons.1 hp with rfl | hp
    · exact hentry (e := .alt p e r) h hnodup hk
    · obtain ⟨he, hr, _⟩ := List.nodup_append'.1 (List.nodup_cons.1 hnodup).2
      rw [Phrase.nodes, List.length_cons, List.length_append]
      rcases List.mem_append.1 hp with hp | hp
      · refine (ihe h.2.2.1 he hk hp).mono ?_
        nlinarith
      · refine (ihr h.2.2.2 hr hk hp).mono ?_
        nlinarith
  | opt q e ih =>
    rcases List.mem_cons.1 hp with rfl | hp
    · exact hentry (e := .opt p e) h hnodup hk
    · refine (ih h.2 (List.nodup_cons.1 hnodup).2 hk hp).mono ?_
      rw [Phrase.nodes, List.length_cons]
      nlinarith
  | iter q e ih =>
    rcases List.mem_cons.1 hp with rfl | hp
    · exact hentry (e := .iter p e) h hnodup hk
    · -- what follows the body is the iteration
      have hloop := h.fueled_entry (e := .iter q e) hnodup fun _ => hk
      refine (ih h.2 (List.nodup_cons.1 hnodup).2 hloop hp).mono ?_
      rw [Phrase.nodes, List.length_cons]
      nlinarith

/-- The bound that is used for the search. -/
def searchBound (g : Grammar) : Nat :=
  (g.nodes.size + 1) * (g.nodes.size + 1) * (g.nodes.size + 1)

theorem Shows.leaving_isSome (h : g.Shows e none up) (hnodup : e.nodes.Nodup)
    (hp : p ∈ e.nodes) (s : StateId) (passed : BitSet) :
    (g.leaving g.searchBound s (some p) passed).isSome = true := by
  refine h.fueled_mem hnodup fueled_none hp _ ?_ s passed
  have hlen := h.length_nodes_le hnodup
  calc
    0 + e.nodes.length * (e.nodes.length + 1)
    _ = e.nodes.length * (e.nodes.length + 1) := Nat.zero_add _
    _ ≤ (g.nodes.size + 1) * (g.nodes.size + 1) := Nat.mul_le_mul (by omega) (by omega)
    _ ≤ g.searchBound := Nat.le_mul_of_pos_right _ (Nat.succ_pos _)

end Grammar

end Ebnf
