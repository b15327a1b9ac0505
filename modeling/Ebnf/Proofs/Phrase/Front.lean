import Ebnf.Proofs.Phrase.Chain

/-!
# Where a phrase is entered

A phrase is entered at its first node, and through alternatives and options at the
first nodes of what they contain.  An iteration is entered again after each round,
so it does not belong to the nodes at which one only enters.

Main results:

- Theorem `Grammar.Shows.not_mem_front_of_next`: no node of a phrase leads back to
  where the phrase is entered.
- Theorem `Grammar.Shows.deletableChain_of_mem_front`: where nothing has to follow a
  node at which a phrase is entered, nothing has to follow its first node.
- Theorem `Grammar.Shows.exists_part`: every node of a phrase is the first node of a
  part of it.
-/

namespace Ebnf

namespace Phrase

/-- The nodes at which a phrase is entered, before anything is read, except for iterations. -/
def front : Phrase → List NodeId
  | leaf p => [p]
  | seq a _ => a.front
  | arm p e | opt p e => p :: e.front
  | alt p e r => p :: (e.front ++ r.front)
  | iter _ _ => []

theorem mem_nodes_of_mem_front {e : Phrase} {p : NodeId} (h : p ∈ e.front) : p ∈ e.nodes := by
  induction e with
  | leaf q => exact h
  | seq a b iha _ => exact List.mem_append_left _ (iha h)
  | arm q e ih | opt q e ih =>
    rcases List.mem_cons.1 h with rfl | h
    · exact List.mem_cons_self
    · exact List.mem_cons_of_mem _ (ih h)
  | alt q e r ihe ihr =>
    rcases List.mem_cons.1 h with rfl | h
    · exact List.mem_cons_self
    · refine List.mem_cons_of_mem _ (List.mem_append.2 ?_)
      exact (List.mem_append.1 h).imp ihe ihr
  | iter => cases h

end Phrase

namespace Grammar

variable {g : Grammar} {e : Phrase} {k : Option NodeId} {up : Bool} {p q : NodeId}

theorem Shows.entry_mem_front (h : g.Shows e k up) (hkind : (g.node e.entry).kind ≠ .iter) :
    e.entry ∈ e.front := by
  induction e generalizing k up with
  | seq a b iha _ => exact iha h.1 hkind
  | iter => exact absurd h.1.kind_eq hkind
  | leaf | arm | alt | opt => exact List.mem_cons_self

/-- The contents of a node at which the phrase is entered are entered, too. -/
theorem Shows.mem_front_of_contents (h : g.Shows e k up) (hp : p ∈ e.front)
    (hq : (g.node p).sub = some q ∨ (g.node p).down = some q) (hkind : (g.node q).kind ≠ .iter) :
    q ∈ e.front := by
  -- the first node of a part is where the part is entered
  have hpart : ∀ {a : Phrase} {k : Option NodeId} {up : Bool}, g.Shows a k up →
      some a.entry = some q → q ∈ a.front := by
    intro a k up ha heq
    obtain rfl := Option.some.inj heq
    exact ha.entry_mem_front hkind
  induction e generalizing k up with
  | leaf r =>
    rw [List.mem_singleton.1 hp, h.2.sub_eq, h.2.down_eq] at hq
    rcases hq with hq | hq <;> cases hq
  | seq a b iha _ => exact iha h.1 hp
  | arm r e ih | opt r e ih =>
    rcases List.mem_cons.1 hp with rfl | hp
    · rw [h.1.sub_eq, h.1.down_eq] at hq
      exact List.mem_cons_of_mem _ (hpart h.2 (hq.resolve_right nofun))
    · exact List.mem_cons_of_mem _ (ih h.2 hp)
  | alt r e f ihe ihf =>
    refine List.mem_cons_of_mem _ (List.mem_append.2 ?_)
    rcases List.mem_cons.1 hp with rfl | hp
    · rw [h.2.1.sub_eq, h.2.1.down_eq] at hq
      exact hq.imp (hpart h.2.2.1) (hpart h.2.2.2)
    · exact (List.mem_append.1 hp).imp (ihe h.2.2.1) (ihf h.2.2.2)
  | iter => cases hp

/-- A node of a phrase leads to what follows the phrase, or to a node inside at which the phrase is not
entered. -/
theorem Shows.not_mem_front_of_next (h : g.Shows e k up) (hnodup : e.nodes.Nodup)
    (hp : p ∈ e.nodes) (hq : (g.node p).next = some q) :
    q ∈ e.nodes ∧ q ∉ e.front ∨ k = some q := by
  induction e generalizing k up with
  | leaf r =>
    rw [List.mem_singleton.1 hp, h.2.next_eq] at hq
    exact .inr hq
  | seq a b iha _ =>
    obtain ⟨ha, _, hdisjoint⟩ := List.nodup_append'.1 hnodup
    have hsecond : q ∈ b.nodes → q ∈ (Phrase.seq a b).nodes ∧ q ∉ (Phrase.seq a b).front := by
      intro hmem
      refine ⟨List.mem_append_right _ hmem, fun hfront => ?_⟩
      exact hdisjoint (Phrase.mem_nodes_of_mem_front hfront) hmem
    rcases List.mem_append.1 hp with hp | hp
    · rcases iha h.1 ha hp with ⟨hmem, hfront⟩ | heq
      · exact .inl ⟨List.mem_append_left _ hmem, hfront⟩
      · exact .inl (hsecond (Option.some.inj heq ▸ b.entry_mem_nodes))
    · exact (h.2.mem_of_next hp hq).imp_left hsecond
  | arm r e ih | opt r e ih =>
    obtain ⟨hr, he⟩ := List.nodup_cons.1 hnodup
    rcases List.mem_cons.1 hp with rfl | hp
    · exact .inr (h.1.next_eq ▸ hq)
    · refine (ih h.2 he hp).imp_left fun ⟨hmem, hfront⟩ => ⟨List.mem_cons_of_mem _ hmem, ?_⟩
      rw [Phrase.front, List.mem_cons, not_or]
      exact ⟨fun heq => hr (heq ▸ hmem), hfront⟩
  | alt r e f ihe ihf =>
    obtain ⟨hr, hef⟩ := List.nodup_cons.1 hnodup
    obtain ⟨he, hf, hdisjoint⟩ := List.nodup_append'.1 hef
    rcases List.mem_cons.1 hp with rfl | hp
    · exact .inr (h.2.1.next_eq ▸ hq)
    · rw [Phrase.front, List.mem_cons, List.mem_append, not_or, not_or]
      rcases List.mem_append.1 hp with hp | hp
      · refine (ihe h.2.2.1 he hp).imp_left fun ⟨hmem, hfront⟩ => ?_
        have hmem' : q ∈ e.nodes ++ f.nodes := List.mem_append_left _ hmem
        refine ⟨List.mem_cons_of_mem _ hmem', fun heq => hr (heq ▸ hmem'), hfront, fun hq => ?_⟩
        exact hdisjoint hmem (Phrase.mem_nodes_of_mem_front hq)
      · refine (ihf h.2.2.2 hf hp).imp_left fun ⟨hmem, hfront⟩ => ?_
        have hmem' : q ∈ e.nodes ++ f.nodes := List.mem_append_right _ hmem
        refine ⟨List.mem_cons_of_mem _ hmem', fun heq => hr (heq ▸ hmem'), fun hq => ?_, hfront⟩
        exact hdisjoint (Phrase.mem_nodes_of_mem_front hq) hmem
  | iter => exact (h.mem_of_next hp hq).imp_left fun hmem => ⟨hmem, List.not_mem_nil⟩

/-- Where nothing has to follow a node at which a phrase is entered, nothing has to follow its first
node. -/
theorem Shows.deletableChain_of_mem_front (h : g.Shows e k up) (hnodup : e.nodes.Nodup)
    (hk : g.Finite e k) (hp : p ∈ e.front) (hdel : g.deletableChain (some p) = true) :
    g.deletableChain (some e.entry) = true := by
  induction e generalizing k up with
  | leaf q => rwa [List.mem_singleton.1 hp] at hdel
  | seq a b iha _ => exact iha h.1 (List.nodup_append'.1 hnodup).1 (hk.first h) hp
  | arm q e ih | opt q e ih =>
    rcases List.mem_cons.1 hp with rfl | hp
    · exact hdel
    · have hke : g.Finite e k := hk.part (by simp [Phrase.nodes])
      have he := (List.nodup_cons.1 hnodup).2
      have hbody := ih h.2 he hke hp
      rw [deletableChain_entry h.2 he hke, Bool.and_eq_true] at hbody
      rw [deletableChain_entry h hnodup hk, Bool.and_eq_true]
      exact ⟨by simp [Phrase.nullable, hbody.1], hbody.2⟩
  | alt q e r ihe ihr =>
    obtain ⟨he, hr, _⟩ := List.nodup_append'.1 (List.nodup_cons.1 hnodup).2
    have hke : g.Finite e k := hk.part (by simp [Phrase.nodes]; omega)
    have hkr : g.Finite r k := hk.part (by simp [Phrase.nodes]; omega)
    rcases List.mem_cons.1 hp with rfl | hp
    · exact hdel
    · rw [deletableChain_entry h hnodup hk, Bool.and_eq_true]
      rcases List.mem_append.1 hp with hp | hp
      · have hbody := ihe h.2.2.1 he hke hp
        rw [deletableChain_entry h.2.2.1 he hke, Bool.and_eq_true] at hbody
        exact ⟨by simp [Phrase.nullable, hbody.1], hbody.2⟩
      · have hrest := ihr h.2.2.2 hr hkr hp
        rw [deletableChain_entry h.2.2.2 hr hkr, Bool.and_eq_true] at hrest
        exact ⟨by simp [Phrase.nullable, hrest.1], hrest.2⟩
  | iter => cases hp

/-- Every node of a phrase is the first node of a part of it. -/
theorem Shows.exists_part (h : g.Shows e k up) (hnodup : e.nodes.Nodup) (hk : g.Finite e k)
    (hp : p ∈ e.nodes) :
    ∃ a k' up', g.Shows a k' up' ∧ a.nodes.Nodup ∧ g.Finite a k' ∧ a.entry = p := by
  induction e generalizing k up with
  | leaf q => exact ⟨_, _, _, h, hnodup, hk, (List.mem_singleton.1 hp).symm⟩
  | seq a b iha ihb =>
    obtain ⟨ha, hb, _⟩ := List.nodup_append'.1 hnodup
    rcases List.mem_append.1 hp with hp | hp
    · exact iha h.1 ha (hk.first h) hp
    · exact ihb h.2 hb (hk.part (by simp [Phrase.nodes])) hp
  | arm q e ih | opt q e ih =>
    rcases List.mem_cons.1 hp with rfl | hp
    · exact ⟨_, _, _, h, hnodup, hk, rfl⟩
    · exact ih h.2 (List.nodup_cons.1 hnodup).2 (hk.part (by simp [Phrase.nodes])) hp
  | alt q e r ihe ihr =>
    obtain ⟨he, hr, _⟩ := List.nodup_append'.1 (List.nodup_cons.1 hnodup).2
    rcases List.mem_cons.1 hp with rfl | hp
    · exact ⟨_, _, _, h, hnodup, hk, rfl⟩
    · rcases List.mem_append.1 hp with hp | hp
      · exact ihe h.2.2.1 he (hk.part (by simp [Phrase.nodes]; omega)) hp
      · exact ihr h.2.2.2 hr (hk.part (by simp [Phrase.nodes]; omega)) hp
  | iter q e ih =>
    rcases List.mem_cons.1 hp with rfl | hp
    · exact ⟨_, _, _, h, hnodup, hk, rfl⟩
    · exact ih h.2 (List.nodup_cons.1 hnodup).2 (hk.round h) hp

end Grammar

end Ebnf
