import Ebnf.Analysis
import Ebnf.Proofs.Analysis.Follow
import Ebnf.Proofs.Analysis.Narrow

/-!
# All symbol sets

The analyses of a grammar run one after the other, and none disturbs what an
earlier one found.  Where no production has a leaf that stands for any terminal,
there are no sets of such leaves to be narrowed.

Main results:

- Theorem `Grammar.computeAnys_eq`: without such leaves nothing is narrowed.
- Theorem `Grammar.Orderly.analysed_computeSets`: after all analyses flags are closed,
  start sets are exact, and follow sets are a solution.
-/

namespace Ebnf

namespace Grammar

variable {g g' : Grammar} {pool : List Phrase} {e : Phrase} {s : SymbolId} {p q : NodeId}

/-! ## Productions without ANY -/

/-- No leaf of a production stands for any terminal. -/
def WithoutAny (g : Grammar) (pool : List Phrase) : Prop :=
  ∀ s ∈ g.nonterminals, ∀ p, g.InProduction pool s p → (g.node p).kind ≠ .any

theorem Composed.linked (h : g.Composed pool) (s : SymbolId) :
    g.Linked fun p => g.InProduction pool s p where
  sub_mem _ := fun ⟨e, he, hprod, hp⟩ _ hq =>
    ⟨e, he, hprod, (h.shows_of_mem he).mem_of_contents hp (.inl hq)⟩
  down_mem _ := fun ⟨e, he, hprod, hp⟩ _ hq =>
    ⟨e, he, hprod, (h.shows_of_mem he).mem_of_contents hp (.inr hq)⟩
  next_mem _ := fun ⟨e, he, hprod, hp⟩ _ hq => ⟨e, he, hprod, h.mem_next he hp hq⟩

/-- While a production is gone through, only ANYs in it are narrowed. -/
theorem Composed.narrowAnys_narrows (h : g.Composed pool) (hs : s ∈ g.nonterminals) :
    Narrows (fun p => g.InProduction pool s p) g (g.narrowAnys (g.outline (g.sym s).production)) := by
  refine (Grammar.narrowAnys_narrows (h.linked s) ?_).1
  refine (h.linked s).mem_outlineWithin _ fun p hp => ?_
  obtain ⟨e, he, rfl⟩ := h.production s hs p hp
  exact ⟨e, he, hp, e.entry_mem_nodes⟩

theorem computeAnys_eq (h : g.Composed pool) (hany : g.WithoutAny pool) : g.computeAnys = g := by
  have hstep : ∀ s ∈ g.nonterminals, g.narrowAnys (g.outline (g.sym s).production) = g :=
    fun s hs => (h.narrowAnys_narrows hs).eq_of_forall (hany s hs)
  unfold computeAnys
  generalize g.nonterminals = ss at hstep
  induction ss with
  | nil => rfl
  | cons s ss ih =>
    obtain ⟨hs, hss⟩ := List.forall_mem_cons.1 hstep
    rw [List.foldl_cons, hs, ih hss]

/-! ## Synchronisation sets -/

theorem syncNode_sameFirsts (g : Grammar) (cur : SymbolId) (p : NodeId) :
    g.SameFirsts (g.syncNode cur p) := by
  unfold syncNode
  split
  · next hkind =>
    have hnode : ∀ set q, (g.modifyNode p fun n => { n with set }).node q =
        if q = p ∧ p < g.nodes.size then { g.node q with set } else g.node q :=
      fun _ _ => node_modifyNode
    refine ⟨⟨size_modifyNode, fun q => ?_, fun q => ?_, fun q hq => ?_, rfl, fun _ => rfl, rfl, rfl⟩,
      fun _ => rfl⟩
    · refine (congrArg Node.links (hnode _ q)).trans ?_
      split <;> rfl
    · refine (congrArg Node.state (hnode _ q)).trans ?_
      split <;> rfl
    · -- only the set of a SYNC changes
      refine (congrArg Node.set (hnode _ q)).trans ?_
      rw [if_neg]
      rintro ⟨rfl, -⟩
      rw [hkind] at hq
      cases hq
  · exact .refl g

theorem syncNode_symbols (g : Grammar) (cur : SymbolId) (p : NodeId) :
    (g.syncNode cur p).symbols = g.symbols := by
  unfold syncNode
  split <;> rfl

theorem computeSyncs_sameFirsts (g : Grammar) : g.SameFirsts g.computeSyncs := by
  have hclear : g.SameFirsts { g with syncUnion := .singleton (g.sym g.eof).number } :=
    ⟨⟨rfl, fun _ => rfl, fun _ => rfl, fun _ _ => rfl, rfl, fun _ => rfl, rfl, rfl⟩, fun _ => rfl⟩
  unfold computeSyncs
  refine hclear.trans (.foldl (fun g entry => ?_) g.productionNodes _)
  exact g.syncNode_sameFirsts entry.1 entry.2

theorem computeSyncs_symbols (g : Grammar) : g.computeSyncs.symbols = g.symbols :=
  List.foldlRecOn g.productionNodes _ (motive := fun g' : Grammar => g'.symbols = g.symbols) rfl
    fun g' h entry _ => (g'.syncNode_symbols entry.1 entry.2).trans h

/-! ## All analyses -/

/-- A grammar whose flags are closed, whose start sets are exact and whose follow sets are a
solution. -/
structure Analysed (g : Grammar) (pool : List Phrase) : Prop extends g.Orderly pool where
  closed : g.Closed
  exact : g.KnownExact
  solution : g.FollowSolution pool fun s n => n ∈ (g.sym s).follow

namespace SameFirsts

variable (h : g.SameFirsts g')
include h

theorem knownExact (hexact : g.KnownExact) : g'.KnownExact := by
  unfold KnownExact
  simp only [h.nonterminals_eq, h.firstKnown_eq, h.first_sym_eq, h.production_eq,
    h.canBegin_iff h.deletable_eq]
  exact hexact

theorem referenceIn {a b : SymbolId} (href : g'.ReferenceIn pool b p a) :
    g.ReferenceIn pool b p a where
  mem := h.nonterminals_eq ▸ href.mem
  inProduction := by
    have hin := href.inProduction
    unfold InProduction at hin ⊢
    rwa [h.production_eq] at hin
  kind_eq := h.kind_eq p ▸ href.kind_eq

theorem followSolution {follow : SymbolId → Nat → Prop} (hsol : g.FollowSolution pool follow) :
    g'.FollowSolution pool follow where
  eof := by
    rw [h.start_eq, h.eof_eq, h.number_eq]
    exact hsol.eof
  first b p a href n hn := by
    rw [h.next_eq, h.first_eq] at hn
    exact hsol.first b p a (h.referenceIn href) n hn
  inherit b p a href hdel := by
    rw [h.next_eq, h.toAgrees.deletableChain_eq] at hdel
    exact hsol.inherit b p a (h.referenceIn href) hdel

end SameFirsts

theorem WithoutAny.congr (h : g.WithoutAny pool) (hrules : g.SameRules g') :
    g'.WithoutAny pool := by
  unfold WithoutAny InProduction
  simp only [hrules.nonterminals_eq, hrules.production_eq, hrules.kind_eq]
  exact h

namespace Orderly

variable (h : g.Orderly pool) (hany : g.WithoutAny pool)
include h

theorem congr_starts : g.computeDeletable.computeFirsts.Orderly pool :=
  h.congr (g.computeDeletable_sameRules.trans (computeFirsts_sameRules _))

/-- What follows and synchronisation sets change nothing that was found before. -/
theorem computeSyncs_computeFollows_sameFirsts : g.SameFirsts g.computeFollows.computeSyncs :=
  h.computeFollows_sameFirsts.trans (computeSyncs_sameFirsts _)

include hany

theorem computeSets_eq :
    g.computeSets = g.computeDeletable.computeFirsts.computeFollows.computeSyncs := by
  have hrules := g.computeDeletable_sameRules.trans (computeFirsts_sameRules _)
  rw [computeSets, computeAnys_eq h.congr_starts.toComposed (hany.congr hrules)]

theorem computeSets_sameRules : g.SameRules g.computeSets := by
  have hrules := g.computeDeletable_sameRules.trans (computeFirsts_sameRules _)
  rw [h.computeSets_eq hany]
  exact hrules.trans h.congr_starts.computeSyncs_computeFollows_sameFirsts.toSameRules

/-- After all analyses flags are closed, start sets are exact, and follow sets are a solution. -/
theorem analysed_computeSets : g.computeSets.Analysed pool := by
  have hclosed : g.computeDeletable.computeFirsts.Closed :=
    computeDeletable_closed.congr (computeFirsts_sameRules _) computeFirsts_deletable
  have hexact : g.computeDeletable.computeFirsts.KnownExact :=
    (h.toComposed.congr g.computeDeletable_sameRules).knownExact_computeFirsts.1
  have horderly := h.congr_starts
  rw [h.computeSets_eq hany]
  generalize g.computeDeletable.computeFirsts = g₁ at hclosed hexact horderly
  have hsame := horderly.computeSyncs_computeFollows_sameFirsts
  have hsym : ∀ s, g₁.computeFollows.computeSyncs.sym s = g₁.computeFollows.sym s := by
    intro s
    unfold sym
    rw [computeSyncs_symbols]
  refine ⟨horderly.congr hsame.toSameRules, hclosed.congr hsame.toSameRules hsame.deletable_eq,
    hsame.knownExact hexact, ?_⟩
  simp only [hsym]
  exact hsame.followSolution horderly.followSolution_computeFollows

end Orderly

end Grammar

end Ebnf
