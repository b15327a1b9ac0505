import Ebnf.Proofs.Analysis.First
import Ebnf.Proofs.Analysis.Narrow
import Ebnf.Proofs.Check.Conflicts

/-!
# What parts of productions begin with

A part of a production begins with the terminals that come first in the sentential
forms derived from it.  The search for start sets goes on behind the part if it can be
empty.  Where it cannot, the search finds what the part begins with, and stays within it
once the start sets of all nonterminals are known.

Main results:

- Theorem `Grammar.Composed.starts_iff_opensWith`: the terminals at the front of leaf sequences
  are those with which derived forms begin.
- Theorem `Grammar.Composed.mem_first_entry`: the search finds the terminals with which a
  part begins that cannot be empty, or behind which its production ends.
- Theorem `Grammar.Shows.mem_of_reached_starts`: it does not leave such a part.
-/

namespace Ebnf

/-- The nodes of a phrase that are met before anything is read, given the leaves that can be passed. -/
def Phrase.reach (del : NodeId → Bool) : Phrase → List NodeId
  | leaf p => [p]
  | seq a b => a.reach del ++ if a.nullable del then b.reach del else []
  | arm p e | opt p e | iter p e => p :: e.reach del
  | alt p e r => p :: (e.reach del ++ r.reach del)

theorem Phrase.mem_nodes_of_mem_reach {del : NodeId → Bool} {e : Phrase} {p : NodeId}
    (h : p ∈ e.reach del) : p ∈ e.nodes := by
  induction e with
  | leaf q => exact h
  | seq a b iha ihb =>
    rcases List.mem_append.1 h with h | h
    · exact List.mem_append_left _ (iha h)
    · split at h
      · exact List.mem_append_right _ (ihb h)
      · cases h
  | arm q e ih | opt q e ih | iter q e ih =>
    rcases List.mem_cons.1 h with rfl | h
    · exact List.mem_cons_self
    · exact List.mem_cons_of_mem _ (ih h)
  | alt q e r ihe ihr =>
    rcases List.mem_cons.1 h with rfl | h
    · exact List.mem_cons_self
    · exact List.mem_cons_of_mem _ (List.mem_append.2 ((List.mem_append.1 h).imp ihe ihr))

theorem Phrase.entry_mem_reach {del : NodeId → Bool} (e : Phrase) : e.entry ∈ e.reach del := by
  induction e with
  | seq a b iha _ => exact List.mem_append_left _ iha
  | _ => exact List.mem_cons_self

namespace Grammar

variable {g g' : Grammar} {pool : List Phrase} {a b e f r : Phrase} {k : Option NodeId} {up : Bool}
  {p q : NodeId} {n : Nat} {ps : List NodeId}

/-! ## The search stays within a phrase -/

/-- The start sets of all nonterminals are known to which the nodes refer. -/
def Informed (g : Grammar) (ps : List NodeId) : Prop :=
  ∀ p ∈ ps, ∀ s, (g.node p).kind = .nonterminal s → (g.sym s).firstKnown = true

/-- From a node one gets to where its contents begin or behind it. -/
theorem mem_startEdges_of_known (h : g.Informed [p]) (hq : q ∈ g.startEdges p) :
    ((g.node p).kind.isLeaf = false ∧ ((g.node p).sub = some q ∨
      (g.node p).kind = .alt ∧ (g.node p).down = some q)) ∨
      g.deletableNode p = true ∧ (g.node p).next = some q := by
  refine (mem_startEdges.1 hq).imp_left fun ⟨hknown, hin⟩ => ?_
  unfold within at hin
  cases hkind : (g.node p).kind with
  | nonterminal s =>
    rw [isKnown, hkind] at hknown
    exact absurd (h p (List.mem_singleton_self p) s hkind) (by simpa using hknown)
  | alt => simpa [hkind, NodeKind.isLeaf] using hin
  | iter | opt => exact ⟨rfl, .inl (by simpa [hkind] using hin)⟩
  | _ => simp [hkind] at hin

/-- From a structure without further arms one gets to its contents or behind it. -/
theorem Holds.eq_of_edge {kind : NodeKind} {r : NodeId} (h : g.Holds p kind (some r) none k up)
    (hedge : ((g.node p).kind.isLeaf = false ∧ ((g.node p).sub = some q ∨
      (g.node p).kind = .alt ∧ (g.node p).down = some q)) ∨
        g.deletableNode p = true ∧ (g.node p).next = some q) :
    r = q ∨ g.deletableNode p = true ∧ (g.node p).next = some q := by
  refine hedge.imp_left fun ⟨_, hinside⟩ => ?_
  rcases hinside with hsub | ⟨_, hdown⟩
  · exact Option.some.inj (h.sub_eq.symm.trans hsub)
  · cases h.down_eq.symm.trans hdown

theorem Shows.nullable_of_behind (h : g.Shows e k up) (hnodup : e.nodes.Nodup)
    (hseq : ∀ a b, e ≠ .seq a b)
    (hbehind : g.deletableNode e.entry = true ∧ (g.node e.entry).next = some q) :
    e.nullable g.leafDeletable = true ∧ k = some q := by
  obtain ⟨hdel, hnext⟩ := deletableNode_entry h hnodup hseq
  exact ⟨hdel.symm.trans hbehind.1, hnext.symm.trans hbehind.2⟩

/-- A step of the search that leaves a phrase leads to what follows it, and then the phrase is
nullable. -/
theorem Shows.mem_reach_of_startEdges (h : g.Shows e k up) (hnodup : e.nodes.Nodup)
    (hknown : g.Informed e.nodes) (hp : p ∈ e.reach g.leafDeletable) (hq : q ∈ g.startEdges p) :
    q ∈ e.reach g.leafDeletable ∨ e.nullable g.leafDeletable = true ∧ k = some q := by
  have hedge := mem_startEdges_of_known (fun r hr =>
    List.mem_singleton.1 hr ▸ hknown p (Phrase.mem_nodes_of_mem_reach hp)) hq
  induction e generalizing k up with
  | leaf r =>
    obtain rfl := List.mem_singleton.1 hp
    rcases hedge with ⟨hleaf, _⟩ | hbehind
    · exact absurd h.1 (by simp [hleaf])
    · exact .inr (h.nullable_of_behind hnodup (by simp) hbehind)
  | seq a b iha ihb =>
    obtain ⟨ha, hb, _⟩ := List.nodup_append'.1 hnodup
    obtain ⟨hka, hkb⟩ := List.forall_mem_append.1 hknown
    have hsecond : ∀ r, a.nullable g.leafDeletable = true → r ∈ b.reach g.leafDeletable →
        r ∈ (Phrase.seq a b).reach g.leafDeletable := by
      intro r hnull hr
      rw [Phrase.reach, if_pos hnull]
      exact List.mem_append_right _ hr
    rcases List.mem_append.1 hp with hp | hp
    · rcases iha h.1 ha hka hp with hmem | ⟨hnull, heq⟩
      · exact .inl (List.mem_append_left _ hmem)
      · obtain rfl := Option.some.inj heq
        exact .inl (hsecond _ hnull b.entry_mem_reach)
    · split at hp
      · next hnull =>
        rcases ihb h.2 hb hkb hp with hmem | ⟨hnull', hk⟩
        · exact .inl (hsecond _ hnull hmem)
        · exact .inr ⟨by rw [Phrase.nullable, hnull, hnull']; rfl, hk⟩
      · cases hp
  | arm r e ih =>
    have he := (List.nodup_cons.1 hnodup).2
    rcases List.mem_cons.1 hp with rfl | hp
    · rcases h.1.eq_of_edge hedge with rfl | hbehind
      · exact .inl (List.mem_cons_of_mem _ e.entry_mem_reach)
      · exact .inr (h.nullable_of_behind hnodup (by simp) hbehind)
    · exact (ih h.2 he (List.forall_mem_cons.1 hknown).2 hp).imp_left (List.mem_cons_of_mem _)
  | alt r e f ihe ihf =>
    obtain ⟨he, hf, _⟩ := List.nodup_append'.1 (List.nodup_cons.1 hnodup).2
    obtain ⟨hke, hkf⟩ := List.forall_mem_append.1 (List.forall_mem_cons.1 hknown).2
    rcases List.mem_cons.1 hp with rfl | hp
    · rcases hedge with ⟨_, hsub | ⟨_, hdown⟩⟩ | hbehind
      · obtain rfl := Option.some.inj (h.2.1.sub_eq.symm.trans hsub)
        exact .inl (List.mem_cons_of_mem _ (List.mem_append_left _ e.entry_mem_reach))
      · obtain rfl := Option.some.inj (h.2.1.down_eq.symm.trans hdown)
        exact .inl (List.mem_cons_of_mem _ (List.mem_append_right _ f.entry_mem_reach))
      · exact .inr (h.nullable_of_behind hnodup (by simp) hbehind)
    · rcases List.mem_append.1 hp with hp | hp
      · rcases ihe h.2.2.1 he hke hp with hmem | ⟨hnull, hk⟩
        · exact .inl (List.mem_cons_of_mem _ (List.mem_append_left _ hmem))
        · exact .inr ⟨by rw [Phrase.nullable, hnull, Bool.true_or], hk⟩
      · rcases ihf h.2.2.2 hf hkf hp with hmem | ⟨hnull, hk⟩
        · exact .inl (List.mem_cons_of_mem _ (List.mem_append_right _ hmem))
        · exact .inr ⟨by rw [Phrase.nullable, hnull, Bool.or_true], hk⟩
  | opt r e ih =>
    have he := (List.nodup_cons.1 hnodup).2
    rcases List.mem_cons.1 hp with rfl | hp
    · rcases h.1.eq_of_edge hedge with rfl | hbehind
      · exact .inl (List.mem_cons_of_mem _ e.entry_mem_reach)
      · exact .inr (h.nullable_of_behind hnodup (by simp) hbehind)
    · rcases ih h.2 he (List.forall_mem_cons.1 hknown).2 hp with hmem | ⟨_, hk⟩
      · exact .inl (List.mem_cons_of_mem _ hmem)
      · exact .inr ⟨rfl, hk⟩
  | iter r e ih =>
    have he := (List.nodup_cons.1 hnodup).2
    rcases List.mem_cons.1 hp with rfl | hp
    · rcases h.1.eq_of_edge hedge with rfl | hbehind
      · exact .inl (List.mem_cons_of_mem _ e.entry_mem_reach)
      · exact .inr (h.nullable_of_behind hnodup (by simp) hbehind)
    · rcases ih h.2 he (List.forall_mem_cons.1 hknown).2 hp with hmem | ⟨_, heq⟩
      · exact .inl (List.mem_cons_of_mem _ hmem)
      · -- after a round one comes back to the iteration
        obtain rfl := Option.some.inj heq
        exact .inl List.mem_cons_self

/-- The search from the first node of a phrase does not leave it if the phrase is not nullable, or if
nothing follows. -/
theorem Shows.mem_of_reached_starts {allowed : Nat → Prop} (h : g.Shows e k up)
    (hnodup : e.nodes.Nodup) (hknown : g.Informed e.nodes)
    (hends : e.nullable g.leafDeletable = false ∨ k = none)
    (hreach : Reached g.startEdges allowed [e.entry] q) : q ∈ e.nodes := by
  have hstay : q ∈ e.reach g.leafDeletable := by
    induction hreach with
    | root hmem _ => exact List.mem_singleton.1 hmem ▸ e.entry_mem_reach
    | step _ hedge _ ih =>
      refine (h.mem_reach_of_startEdges hnodup hknown ih hedge).resolve_right fun ⟨hnull, hk⟩ => ?_
      rcases hends with hends | hends
      · exact absurd hnull (by simp [hends])
      · cases hends.symm.trans hk
  exact Phrase.mem_nodes_of_mem_reach hstay

/-- Where it meets no ANY, the search finds the same when sets of ANYs get smaller. -/
theorem Shrinks.mem_first_iff (h : g.Shrinks g')
    (hnone : ∀ q, Reached g.startEdges (· < g.nodes.size) k.toList q → (g.node q).kind ≠ .any) :
    n ∈ g'.first k ↔ n ∈ g.first k := by
  refine ⟨h.mem_first, fun hn => ?_⟩
  obtain ⟨q, hreach, hn⟩ := Grammar.mem_first.1 hn
  refine Grammar.mem_first.2 ⟨q, by rwa [h.startEdges_eq, h.size_eq], ?_⟩
  unfold startTerminals at hn ⊢
  simp only [h.agrees.kind_eq, h.sym_eq]
  cases hkind : (g.node q).kind with
  | any => exact absurd hkind (hnone q hreach)
  | _ =>
    rw [hkind] at hn
    exact hn

/-! ## Fronts of leaf sequences -/

/-- Some leaf sequence of the phrase has the terminal at its front. -/
def OpensWith (g : Grammar) (n : Nat) (e : Phrase) : Prop :=
  ∃ ps ∈ e.walks, ∃ h, g.FrontOf n h ps

theorem opensWith_seq : g.OpensWith n (.seq a b) ↔
    g.OpensWith n a ∨ a.nullable g.leafDeletable = true ∧ g.OpensWith n b := by
  constructor
  · rintro ⟨_, ⟨ps, hps, qs, hqs, rfl⟩, h, hfront⟩
    rcases front_append.1 hfront with hfront | ⟨hpass, hfront⟩
    · exact .inl ⟨ps, hps, h, hfront⟩
    · exact .inr ⟨Phrase.nullable_iff.2 ⟨ps, hps, hpass⟩, qs, hqs, h, hfront⟩
  · rintro (⟨ps, hps, h, hfront⟩ | ⟨hnull, qs, hqs, h, hfront⟩)
    · obtain ⟨qs, hqs⟩ := exists_mem_walks b
      exact ⟨ps ++ qs, Language.append_mem_mul hps hqs, h, front_append.2 (.inl hfront)⟩
    · obtain ⟨ps, hps, hpass⟩ := Phrase.nullable_iff.1 hnull
      exact ⟨ps ++ qs, Language.append_mem_mul hps hqs, h, front_append.2 (.inr ⟨hpass, hfront⟩)⟩

theorem opensWith_alt : g.OpensWith n (.alt p e r) ↔ g.OpensWith n e ∨ g.OpensWith n r := by
  unfold OpensWith
  rw [← exists_or]
  refine exists_congr fun ps => ?_
  rw [← or_and_right]
  rfl

theorem opensWith_opt : g.OpensWith n (.opt p e) ↔ g.OpensWith n e := by
  constructor
  · rintro ⟨ps, rfl | hps, h, hfront⟩
    · exact hfront.elim
    · exact ⟨ps, hps, h, hfront⟩
  · rintro ⟨ps, hps, h, hfront⟩
    exact ⟨ps, .inr hps, h, hfront⟩

theorem opensWith_iter : g.OpensWith n (.iter p e) ↔ g.OpensWith n e := by
  constructor
  · rintro ⟨_, ⟨rounds, rfl, hrounds⟩, h, hfront⟩
    induction rounds with
    | nil => exact hfront.elim
    | cons qs rounds ih =>
      obtain ⟨hqs, hrounds⟩ := List.forall_mem_cons.1 hrounds
      rcases front_append.1 hfront with hfront | ⟨_, hfront⟩
      · exact ⟨qs, hqs, h, hfront⟩
      · exact ih hrounds hfront
  · rintro ⟨ps, hps, h, hfront⟩
    exact ⟨ps, ⟨[ps], by simp, by simpa using hps⟩, h, hfront⟩

/-! ## Derivations -/

/-- A sentential form that begins with the terminal can be derived from the phrase. -/
def Starts (g : Grammar) (pool : List Phrase) (e : Phrase) (n : Nat) : Prop :=
  ∃ ps ∈ e.walks, ∃ α, g.Derives pool (ps.flatMap g.letters) (.terminal n :: α)

namespace Composed

variable (hg : g.Composed pool)
include hg

theorem opensWith_of_starts (hclosed : g.Closed) (h : g.Starts pool f n) : g.OpensWith n f := by
  obtain ⟨ps, hps, α, hα⟩ := h
  exact ⟨ps, hps, frontOf_of_formBegins (hg.canBegin_of_derives hclosed hα)⟩

/-- The terminals at the front of leaf sequences are those with which derived forms begin. -/
theorem starts_iff_opensWith (hclosed : g.Closed) (hflags : g.FlagsSound pool) (he : e ∈ pool)
    (hshows : g.Shows f k up) (hnodes : f.nodes ⊆ e.nodes) :
    g.Starts pool f n ↔ g.OpensWith n f := by
  refine ⟨hg.opensWith_of_starts hclosed, fun ⟨ps, hps, h, hfront⟩ => ⟨ps, hps, ?_⟩⟩
  refine hg.derives_of_front hflags he (fun p hp => ?_)
    (fun h' _ s hs q hq hb => hg.derives_of_opens hflags hs hq hb) hfront
  exact (hshows.leaf_of_mem_walks hps hp).imp_left fun hmem => hnodes hmem

/-- The search finds the terminals with which a part begins that is not nullable, or behind which its
production ends. -/
theorem mem_first_entry (hexact : g.KnownExact) (he : e ∈ pool) (hshows : g.Shows f k up)
    (hnodup : f.nodes.Nodup) (hnodes : f.nodes ⊆ e.nodes)
    (hends : f.nullable g.leafDeletable = false ∨ k = none) :
    n ∈ g.first (some f.entry) ↔ g.OpensWith n f := by
  rw [hg.mem_first_iff hexact he (hnodes f.entry_mem_nodes)]
  constructor
  · rintro ⟨h, hb⟩
    rcases front_of_opens hshows hnodup hb with ⟨ps, hps, hfront⟩ | ⟨hnull, q, hq, _⟩
    · exact ⟨ps, hps, h, hfront⟩
    · rcases hends with hends | hends
      · exact absurd hnull (by simp [hends])
      · cases hends.symm.trans hq
  · rintro ⟨ps, hps, h, hfront⟩
    exact canBegin_of_front hshows hnodup hps hfront

end Composed

end Grammar

end Ebnf
