import Ebnf.Proofs.Analysis.Sets

/-!
# Synchronisation sets are complete

All productions are gone through in one walk, in which no node is met twice.  Each SYNC
node is nevertheless met, and with the nonterminal in whose production it stands.
Setting its set changes nothing on which the sets of the others depend.

Main results:

- Theorem `Grammar.set_syncAll`: a node that is met with one nonterminal only gets the set
  that belongs to it there.
- Theorem `Grammar.Orderly.mem_computeSyncs`: the set of each SYNC node holds what can come
  next and the end of the input, and the union of these sets is computed along with them.
-/

namespace Ebnf

namespace Grammar

variable {g g' : Grammar} {pool : List Phrase} {cur s : SymbolId} {p : NodeId} {n : Nat}
  {entries : List (SymbolId × NodeId)}

/-- The terminals with which a parser goes on at a SYNC in the production of `cur`: what can come
next, and the end of the input. -/
def resumption (g : Grammar) (cur : SymbolId) (p : NodeId) : BitSet :=
  (g.expected (g.node p).next cur).insert (g.sym g.eof).number

theorem mem_resumption : n ∈ g.resumption cur p ↔
    n ∈ g.expected (g.node p).next cur ∨ n = (g.sym g.eof).number :=
  BitSet.mem_insert.trans or_comm

/-! ## One SYNC -/

theorem node_syncNode {q : NodeId} : (g.syncNode cur p).node q =
    if (g.node q).kind = .sync ∧ q = p ∧ p < g.nodes.size then
      { g.node q with set := g.resumption cur p }
    else g.node q := by
  unfold syncNode
  by_cases hkind : (g.node p).kind = .sync
  · rw [if_pos hkind]
    refine (node_modifyNode (f := fun n => { n with set := g.resumption cur p })).trans ?_
    by_cases hqp : q = p
    · simp [hqp, hkind]
    · simp [hqp]
  · rw [if_neg hkind, if_neg]
    rintro ⟨hq, rfl, -⟩
    exact hkind hq

theorem mem_syncUnion_syncNode : n ∈ (g.syncNode cur p).syncUnion ↔
    n ∈ g.syncUnion ∨ (g.node p).kind = .sync ∧ n ∈ g.resumption cur p := by
  unfold syncNode
  by_cases hkind : (g.node p).kind = .sync
  · rw [if_pos hkind]
    refine (BitSet.mem_union (s := g.syncUnion) (t := g.resumption cur p)).trans ?_
    rw [and_iff_right hkind]
  · simp [hkind]

/-- What can come next depends on start sets and symbols only. -/
theorem SameFirsts.expected_eq (h : g.SameFirsts g') (hsymbols : g'.symbols = g.symbols)
    (k : Option NodeId) : g'.expected k cur = g.expected k cur := by
  unfold expected
  rw [h.toAgrees.deletableChain_eq, h.first_eq]
  unfold sym
  rw [hsymbols]

theorem SameFirsts.resumption_eq (h : g.SameFirsts g') (hsymbols : g'.symbols = g.symbols) :
    g'.resumption cur p = g.resumption cur p := by
  unfold resumption
  rw [h.expected_eq hsymbols, h.next_eq, h.eof_eq, h.number_eq]

/-! ## One SYNC after the other -/

/-- Computes the sets of the given nodes, as far as they are SYNC nodes. -/
def syncAll (g : Grammar) (entries : List (SymbolId × NodeId)) : Grammar :=
  entries.foldl (fun g entry => g.syncNode entry.1 entry.2) g

theorem syncNode_resumption (entry : SymbolId × NodeId) :
    (g.syncNode entry.1 entry.2).resumption cur p = g.resumption cur p :=
  (g.syncNode_sameFirsts entry.1 entry.2).resumption_eq (g.syncNode_symbols entry.1 entry.2)

/-- A node that is not met keeps its set. -/
theorem set_syncAll_of_not_mem (hp : ∀ b, (b, p) ∉ entries) :
    ((g.syncAll entries).node p).set = (g.node p).set := by
  induction entries generalizing g with
  | nil => rfl
  | cons entry entries ih =>
    have hhead : p ≠ entry.2 := fun heq => hp entry.1 (heq ▸ List.mem_cons_self)
    refine (ih fun b hb => hp b (List.mem_cons_of_mem _ hb)).trans ?_
    rw [node_syncNode, if_neg fun hand => hhead hand.2.1]

/-- A SYNC that is met with one nonterminal only gets the set that belongs to it there. -/
theorem set_syncAll (hmem : (s, p) ∈ entries) (honly : ∀ b, (b, p) ∈ entries → b = s)
    (hkind : (g.node p).kind = .sync) (hlt : p < g.nodes.size) :
    ((g.syncAll entries).node p).set = g.resumption s p := by
  induction entries generalizing g with
  | nil => cases hmem
  | cons entry entries ih =>
    obtain ⟨b, q⟩ := entry
    have hsame := g.syncNode_sameFirsts b q
    by_cases hlater : (s, p) ∈ entries
    · have hrest := ih hlater (fun c hc => honly c (List.mem_cons_of_mem _ hc))
        (hsame.kind_eq p ▸ hkind) (hsame.size_eq ▸ hlt)
      exact hrest.trans (syncNode_resumption (b, q))
    · -- it is met now, and not again with any other nonterminal
      obtain ⟨rfl, rfl⟩ := Prod.mk.inj ((List.mem_cons.1 hmem).resolve_right hlater)
      have hnever : ∀ c, (c, p) ∉ entries := fun c hc =>
        hlater (honly c (List.mem_cons_of_mem _ hc) ▸ hc)
      refine (set_syncAll_of_not_mem hnever).trans ?_
      rw [node_syncNode, if_pos ⟨hkind, rfl, hlt⟩]

theorem mem_syncUnion_syncAll : n ∈ (g.syncAll entries).syncUnion ↔
    n ∈ g.syncUnion ∨ ∃ b q, (b, q) ∈ entries ∧ (g.node q).kind = .sync ∧ n ∈ g.resumption b q := by
  induction entries generalizing g with
  | nil => simp [syncAll]
  | cons entry entries ih =>
    have hsame := g.syncNode_sameFirsts entry.1 entry.2
    have hrest := @ih (g.syncNode entry.1 entry.2)
    simp only [hsame.kind_eq, syncNode_resumption, mem_syncUnion_syncNode] at hrest
    refine hrest.trans ?_
    rw [or_assoc]
    refine or_congr_right ⟨?_, ?_⟩
    · rintro (hhead | ⟨b, q, hmem, hn⟩)
      · exact ⟨entry.1, entry.2, List.mem_cons_self, hhead⟩
      · exact ⟨b, q, List.mem_cons_of_mem _ hmem, hn⟩
    · rintro ⟨b, q, hmem, hn⟩
      rcases List.mem_cons.1 hmem with rfl | hmem
      · exact .inl hn
      · exact .inr ⟨b, q, hmem, hn⟩

/-! ## All productions -/

/-- The grammar in which no SYNC is met yet. -/
def clearSyncs (g : Grammar) : Grammar :=
  { g with syncUnion := .singleton (g.sym g.eof).number }

theorem clearSyncs_sameFirsts (g : Grammar) : g.SameFirsts g.clearSyncs :=
  ⟨⟨rfl, fun _ => rfl, fun _ => rfl, fun _ _ => rfl, rfl, fun _ => rfl, rfl, rfl⟩, fun _ => rfl⟩

theorem computeSyncs_eq : g.computeSyncs = g.clearSyncs.syncAll g.productionNodes :=
  rfl

theorem clearSyncs_resumption : g.clearSyncs.resumption cur p = g.resumption cur p :=
  g.clearSyncs_sameFirsts.resumption_eq rfl

namespace Orderly

variable (h : g.Orderly pool)
include h

theorem set_computeSyncs (hs : s ∈ g.nonterminals) (hp : g.InProduction pool s p)
    (hkind : (g.node p).kind = .sync) : (g.computeSyncs.node p).set = g.resumption s p := by
  have hmem : (s, p) ∈ g.productionNodes := h.mem_productionNodes.2 ⟨hs, hp⟩
  have honly : ∀ b, (b, p) ∈ g.productionNodes → b = s := by
    intro b hb
    obtain ⟨hb, hpb⟩ := h.mem_productionNodes.1 hb
    exact h.eq_of_inProduction hb hs hpb hp
  obtain ⟨e, he, _, hpe⟩ := hp
  exact (set_syncAll (g := g.clearSyncs) hmem honly hkind (h.lt_size he hpe)).trans
    clearSyncs_resumption

/-- The set of each SYNC holds what can come next and the end of the input, and the union of these
sets is computed along with them. -/
theorem mem_computeSyncs :
    (∀ s ∈ g.nonterminals, ∀ p, g.InProduction pool s p → (g.node p).kind = .sync →
      ∀ n, n ∈ (g.computeSyncs.node p).set ↔
        n ∈ g.computeSyncs.expected (g.computeSyncs.node p).next s ∨ n = (g.sym g.eof).number) ∧
      ∀ n, n ∈ g.computeSyncs.syncUnion ↔ n = (g.sym g.eof).number ∨
        ∃ s ∈ g.nonterminals, ∃ p, g.InProduction pool s p ∧ (g.node p).kind = .sync ∧
          n ∈ (g.computeSyncs.node p).set := by
  have hsame := computeSyncs_sameFirsts g
  have hunion : ∀ n, n ∈ g.computeSyncs.syncUnion ↔ n = (g.sym g.eof).number ∨
      ∃ b q, (b, q) ∈ g.productionNodes ∧ (g.node q).kind = .sync ∧ n ∈ g.resumption b q := by
    intro n
    rw [computeSyncs_eq, mem_syncUnion_syncAll]
    simp only [clearSyncs_resumption]
    exact or_congr_left BitSet.mem_singleton
  constructor
  · intro s hs p hp hkind n
    rw [h.set_computeSyncs hs hp hkind, mem_resumption, hsame.expected_eq g.computeSyncs_symbols,
      hsame.next_eq]
  · intro n
    rw [hunion]
    refine or_congr_right ⟨?_, ?_⟩
    · rintro ⟨s, p, hmem, hkind, hn⟩
      obtain ⟨hs, hp⟩ := h.mem_productionNodes.1 hmem
      exact ⟨s, hs, p, hp, hkind, (h.set_computeSyncs hs hp hkind).symm ▸ hn⟩
    · rintro ⟨s, hs, p, hp, hkind, hn⟩
      rw [h.set_computeSyncs hs hp hkind] at hn
      exact ⟨s, p, h.mem_productionNodes.2 ⟨hs, hp⟩, hkind, hn⟩

end Orderly

/-! ## A SYNC that ends a loop body -/

/-- The production `S = { a SYNC }`. -/
def resuming : Grammar :=
  (initial.declareProduction "S" (.iter (.seq (.terminal "a") [.sync])) 1).2.2

/-- The phrase of the production. -/
def resumingPhrase : Phrase :=
  .iter 2 (.seq (.leaf 0) (.leaf 1))

theorem resuming_orderly : resuming.Orderly [resumingPhrase] := by
  have hterminal : (NodeKind.terminal 1).isLeaf = true := rfl
  have hsync : NodeKind.sync.isLeaf = true := rfl
  have ha := (Assembled.start (initial.declareSymbol .terminal "a" 1).2).leaf hterminal 1 none
  have hboth := ha.leaf hsync 1 none
  have hloop := (hboth.perm (.swap _ _ [])).sequence.iteration
  have hall : Assembled resuming [resumingPhrase] :=
    (hloop.declareSymbol .nonterminal "S" 1).declare (by decide) (by decide)
  exact ⟨⟨hall, by decide, by decide⟩, by decide, by unfold Numbered; decide, by decide⟩

theorem Orderly.mem_computeSyncs_resuming :
    let g := resuming.computeDeletable.computeFirsts.computeFollows
    g.Orderly [resumingPhrase] ∧ 1 ∈ (g.computeSyncs.node 1).set ∧ 1 ∈ g.computeSyncs.syncUnion := by
  intro g
  have horderly : g.Orderly [resumingPhrase] :=
    (resuming_orderly.congr_starts).congr resuming_orderly.congr_starts.computeFollows_sameFirsts.toSameRules
  obtain ⟨hset, hunion⟩ := horderly.mem_computeSyncs
  have hS : 2 ∈ g.nonterminals := by decide
  have hp : g.InProduction [resumingPhrase] 2 1 :=
    ⟨resumingPhrase, List.mem_singleton_self _, by decide, by decide⟩
  have hn := (hset 2 hS 1 hp (by decide) 1).2 (.inl (by decide))
  exact ⟨horderly, hn, (hunion 1).2 (.inr ⟨2, hS, 1, hp, by decide, hn⟩)⟩

end Grammar

end Ebnf
