import Ebnf.Proofs.Check.Circular

/-!
# What the check for circular productions reports

Pairs of nonterminals of which the first derives the second alone are pruned until
each left side occurs on the right and each right side on the left.  The pairs of a
cycle stay, but so does every pair on a chain that leads from one cycle to another:
its ends are on other pairs, though it is part of no cycle itself.

Main results:

- Theorem `Grammar.paired_pruneWithin_of_supported`: pairs that support each other stay.
- Theorem `Grammar.paired_pruneWithin`: the pairs that stay are those between two cycles.
- Theorem `Grammar.Composed.paired_unitPairs_iff`: a pair is a step in which a nonterminal
  derives another one alone.
- Theorem `Grammar.Composed.mem_circularProductions`: the errors name the pairs that lie
  between two nonterminals each of which derives itself alone.
-/

namespace Ebnf

namespace Grammar

variable {g : Grammar} {pool : List Phrase} {s t : SymbolId} {α : List Letter}

/-! ## Pairs that stay -/

section Prune

variable {pairs : List (SymbolId × SymbolId)} {fuel : Nat}

/-- Pairs of which each has one of them before and behind it are not pruned. -/
theorem paired_pruneWithin_of_supported {kept : SymbolId → SymbolId → Prop}
    (hpaired : ∀ s t, kept s t → Paired pairs s t) (hnext : ∀ s t, kept s t → ∃ u, kept t u)
    (hprev : ∀ s t, kept s t → ∃ r, kept r s) (h : kept s t) :
    Paired (pruneWithin fuel pairs) s t := by
  induction fuel generalizing pairs with
  | zero => exact hpaired s t h
  | succ fuel ih =>
    have hstep : ∀ s t, kept s t → Paired (prune pairs) s t := by
      intro s t hst
      obtain ⟨u, hu⟩ := hnext s t hst
      obtain ⟨r, hr⟩ := hprev s t hst
      exact paired_prune.2 ⟨hpaired s t hst, ⟨u, hpaired t u hu⟩, r, hpaired r s hr⟩
    rw [pruneWithin]
    split
    · exact hstep s t h
    · exact ih hstep

/-- A pair on a chain that comes from a cycle and leads to a cycle. -/
def Between (pairs : List (SymbolId × SymbolId)) (s t : SymbolId) : Prop :=
  Paired pairs s t ∧
    (∃ c, Relation.TransGen (Paired pairs) c c ∧ Relation.ReflTransGen (Paired pairs) c s) ∧
    ∃ d, Relation.ReflTransGen (Paired pairs) t d ∧ Relation.TransGen (Paired pairs) d d

theorem Between.exists_next (h : Between pairs s t) : ∃ u, Between pairs t u := by
  obtain ⟨hst, ⟨c, hc, hcs⟩, d, htd, hd⟩ := h
  rcases htd.cases_head with rfl | ⟨u, htu, hud⟩
  · -- the cycle begins at once
    obtain ⟨u, htu, hut⟩ := Relation.TransGen.head'_iff.1 hd
    exact ⟨u, htu, ⟨c, hc, hcs.tail hst⟩, t, hut, hd⟩
  · exact ⟨u, htu, ⟨c, hc, hcs.tail hst⟩, d, hud, hd⟩

theorem Between.exists_prev (h : Between pairs s t) : ∃ r, Between pairs r s := by
  obtain ⟨hst, ⟨c, hc, hcs⟩, d, htd, hd⟩ := h
  rcases hcs.cases_tail with rfl | ⟨r, hcr, hrs⟩
  · obtain ⟨r, hsr, hrs⟩ := Relation.TransGen.tail'_iff.1 hc
    exact ⟨r, hrs, ⟨s, hc, hsr⟩, d, htd.head hst, hd⟩
  · exact ⟨r, hrs, ⟨c, hc, hcr⟩, d, htd.head hst, hd⟩

/-- From where each pair leads to a further one, a chain leads to a cycle. -/
theorem exists_cycle_behind (hnext : ∀ s t, Paired pairs s t → ∃ u, Paired pairs t u)
    (hst : Paired pairs s t) :
    ∃ d, Relation.ReflTransGen (Paired pairs) t d ∧ Relation.TransGen (Paired pairs) d d := by
  classical
  -- of all pairs those to which a chain leads
  let reached := pairs.filter fun pair => Relation.ReflTransGen (Paired pairs) t pair.1
  have hreached : ∀ a b, Paired reached a b ↔
      Paired pairs a b ∧ Relation.ReflTransGen (Paired pairs) t a := by
    intro a b
    simp [Paired, reached]
  obtain ⟨u, htu⟩ := hnext s t hst
  have hne : reached ≠ [] := List.ne_nil_of_mem ((hreached t u).2 ⟨htu, .refl⟩)
  obtain ⟨d, hd⟩ := exists_cycle hne fun a b hab => by
    obtain ⟨hab, hta⟩ := (hreached a b).1 hab
    obtain ⟨c, hbc⟩ := hnext a b hab
    exact ⟨c, (hreached b c).2 ⟨hbc, hta.tail hab⟩⟩
  obtain ⟨e, hde, _⟩ := Relation.TransGen.head'_iff.1 hd
  exact ⟨d, ((hreached d e).1 hde).2, Relation.TransGen.mono (fun a b hab => ((hreached a b).1 hab).1)
    d d hd⟩

theorem paired_map_swap : Paired (pairs.map Prod.swap) s t ↔ Paired pairs t s := by
  simp [Paired]

/-- To where each pair comes from another one, a chain comes from a cycle. -/
theorem exists_cycle_before (hprev : ∀ s t, Paired pairs s t → ∃ r, Paired pairs r s)
    (hst : Paired pairs s t) :
    ∃ c, Relation.TransGen (Paired pairs) c c ∧ Relation.ReflTransGen (Paired pairs) c s := by
  have hswap : Paired (pairs.map Prod.swap) = Function.swap (Paired pairs) := by
    funext a b
    exact propext paired_map_swap
  have hback := @exists_cycle_behind t s (pairs.map Prod.swap) (fun a b hab => by
    obtain ⟨r, hr⟩ := hprev b a (paired_map_swap.1 hab)
    exact ⟨r, paired_map_swap.2 hr⟩) (paired_map_swap.2 hst)
  rw [hswap] at hback
  obtain ⟨c, hsc, hc⟩ := hback
  exact ⟨c, Relation.transGen_swap.1 hc, Relation.reflTransGen_swap.1 hsc⟩

/-- With enough rounds the pairs stay that lie between two cycles. -/
theorem paired_pruneWithin (hfuel : pairs.length ≤ fuel) :
    Paired (pruneWithin fuel pairs) s t ↔ Between pairs s t := by
  constructor
  · intro h
    have hfixed := prune_pruneWithin hfuel
    have hsub : ∀ a b, Paired (pruneWithin fuel pairs) a b → Paired pairs a b :=
      fun a b hab => (pruneWithin_sublist fuel pairs).subset hab
    have hends : ∀ a b, Paired (pruneWithin fuel pairs) a b →
        (∃ u, Paired (pruneWithin fuel pairs) b u) ∧ ∃ r, Paired (pruneWithin fuel pairs) r a :=
      fun a b hab => (paired_prune.1 (hfixed.symm ▸ hab)).2
    obtain ⟨c, hc, hcs⟩ := exists_cycle_before (fun a b hab => (hends a b hab).2) h
    obtain ⟨d, htd, hd⟩ := exists_cycle_behind (fun a b hab => (hends a b hab).1) h
    exact ⟨hsub s t h,
      ⟨c, Relation.TransGen.mono hsub c c hc, Relation.ReflTransGen.mono hsub c s hcs⟩,
      d, Relation.ReflTransGen.mono hsub t d htd, Relation.TransGen.mono hsub d d hd⟩
  · exact paired_pruneWithin_of_supported (fun _ _ hst => hst.1) (fun _ _ => Between.exists_next)
      fun _ _ => Between.exists_prev

end Prune

/-! ## Steps in which a single nonterminal is derived -/

/-- In one step the nonterminal is rewritten to a form in which another one stands, and all around it
derives the empty form. -/
def DerivesAlone (g : Grammar) (pool : List Phrase) (s t : SymbolId) : Prop :=
  ∃ α β, g.Rewrites pool [.nonterminal s] (α ++ .nonterminal t :: β) ∧
    g.Derives pool α [] ∧ g.Derives pool β []

theorem SameRules.derivesAlone_eq {g' : Grammar} (h : g.SameRules g') :
    g'.DerivesAlone pool = g.DerivesAlone pool := by
  funext s t
  simp only [DerivesAlone, h.rewrites_eq, h.derives_iff]

namespace Composed

variable (h : g.Composed pool) (hclosed : g.Closed) (hflags : g.FlagsSound pool)
include h hclosed hflags

theorem forall_flagged_iff : (∀ x ∈ α, g.Flagged x) ↔ g.Derives pool α [] := by
  refine ⟨fun hα => Derives.nil_of_forall fun x hx => ?_, h.flagged_of_derives hclosed⟩
  have hx := hα x hx
  cases x with
  | nonterminal s => exact hflags s hx
  | _ => exact hx.elim

theorem single_iff : g.Single t α ↔
    ∃ β γ, α = β ++ .nonterminal t :: γ ∧ g.Derives pool β [] ∧ g.Derives pool γ [] := by
  unfold Single Isolating
  constructor
  · rintro ⟨β, x, γ, rfl, rfl, hβ, hγ⟩
    exact ⟨β, γ, rfl, (h.forall_flagged_iff hclosed hflags).1 hβ,
      (h.forall_flagged_iff hclosed hflags).1 hγ⟩
  · rintro ⟨β, γ, rfl, hβ, hγ⟩
    exact ⟨β, _, γ, rfl, rfl, (h.forall_flagged_iff hclosed hflags).2 hβ,
      (h.forall_flagged_iff hclosed hflags).2 hγ⟩

/-- The pairs are the steps in which a nonterminal derives another one alone. -/
theorem paired_unitPairs_iff : Paired g.unitPairs s t ↔ g.DerivesAlone pool s t := by
  rw [h.paired_unitPairs]
  constructor
  · rintro ⟨hs, e, he, hprod, ps, hps, hsingle⟩
    obtain ⟨β, γ, heq, hβ, hγ⟩ := (h.single_iff hclosed hflags).1 hsingle
    refine ⟨β, γ, ?_, hβ, hγ⟩
    rw [← heq]
    simpa using Rewrites.expand [] [] hs he hprod hps
  · rintro ⟨β, γ, hstep, hβ, hγ⟩
    obtain ⟨hs, e, he, hprod, ps, hps, heq⟩ := rewrites_singleton hstep
    exact ⟨hs, e, he, hprod, ps, hps, (h.single_iff hclosed hflags).2 ⟨β, γ, heq.symm, hβ, hγ⟩⟩

end Composed

/-! ## What is reported -/

/-- The error about a pair. -/
def circularError (g : Grammar) (pair : SymbolId × SymbolId) : Diagnostic :=
  .errorOn (g.sym pair.1).line (.circular (g.sym pair.1).name (g.sym pair.2).name)

/-- When the deletable nonterminals are flagged, the pairs are the steps of the grammar in which a
nonterminal derives another one alone. -/
theorem Composed.paired_computeDeletable (h : g.Composed pool) (hflags : g.FlagsSound pool) :
    Paired g.computeDeletable.unitPairs = g.DerivesAlone pool := by
  have hrules := g.computeDeletable_sameRules
  have hflags' := h.flagsSound_computeDeletable hflags
  funext s t
  rw [← hrules.derivesAlone_eq]
  exact propext ((h.congr hrules).paired_unitPairs_iff computeDeletable_closed hflags')

/-- When the deletable nonterminals are flagged, the check for circular productions adds errors that name
exactly the pairs of which the first nonterminal derives the second alone in one step, while some
nonterminal that derives itself alone derives the first one, and the second one derives a nonterminal
that derives itself alone. -/
theorem Composed.mem_circularProductions (h : g.Composed pool) (hflags : g.FlagsSound pool) :
    ∃ pairs : List (SymbolId × SymbolId),
      (g.computeDeletable.runCheck circularProductions).2 =
        g.computeDeletable.reportAll (pairs.map g.circularError) ∧
      ∀ s t, (s, t) ∈ pairs ↔ g.DerivesAlone pool s t ∧
        (∃ c, Relation.TransGen (g.DerivesAlone pool) c c ∧
          Relation.ReflTransGen (g.DerivesAlone pool) c s) ∧
        ∃ d, Relation.ReflTransGen (g.DerivesAlone pool) t d ∧
          Relation.TransGen (g.DerivesAlone pool) d d := by
  refine ⟨g.computeDeletable.circularPairs, ?_, fun s t => ?_⟩
  · have hkeeps := Reflags.closeDeletable (g.nonterminals.length + 1) g
    have herror : g.computeDeletable.circularError = g.circularError := by
      funext pair
      unfold circularError
      rw [← hkeeps.line_eq, ← hkeeps.name_eq, ← hkeeps.name_eq]
      rfl
    rw [← herror]
    rfl
  · have hbetween : Paired g.computeDeletable.circularPairs s t ↔
        Between g.computeDeletable.unitPairs s t := paired_pruneWithin (Nat.le_refl _)
    simp only [Between, h.paired_computeDeletable hflags] at hbetween
    exact hbetween

/-! ## A step from one circle to another -/

/-- The productions `A = ( A | B )` and `B = ( B | b )`. -/
def bridging : Grammar :=
  let g := (initial.declareProduction "A" (.alt (.nonterminal "A") [.nonterminal "B"]) 1).2.2
  (g.declareProduction "B" (.alt (.nonterminal "B") [.terminal "b"]) 2).2.2

/-- The phrases of the productions. -/
def bridgingPhrases : List Phrase :=
  [.alt 6 (.leaf 4) (.arm 7 (.leaf 5)), .alt 2 (.leaf 0) (.arm 3 (.leaf 1))]

theorem bridging_composed : bridging.Composed bridgingPhrases := by
  have hterminal : (NodeKind.terminal 3).isLeaf = true := rfl
  have hA : (NodeKind.nonterminal 1).isLeaf = true := rfl
  have hB : (NodeKind.nonterminal 2).isLeaf = true := rfl
  have hself := (Assembled.start (initial.declareSymbol .nonterminal "A" 1).2).leaf hA 1 none
  have hother := (hself.declareSymbol .nonterminal "B" 1).leaf hB 1 none
  have hfirst := (hother.perm (.swap _ _ [])).firstArm.addArm rfl
  have hloop := (hfirst.leaf hB 2 none).declareSymbol .terminal "b" 2
  have hboth := ((hloop.leaf hterminal 2 none).perm (.swap _ _ _)).firstArm.addArm rfl
  have hall : Assembled bridging bridgingPhrases := hboth.declare (by decide) (by decide)
  exact ⟨hall, by decide, by decide⟩

theorem bridging_flagsSound : bridging.FlagsSound bridgingPhrases :=
  flagsSound_of_forall (by decide)

theorem bridging_derivesAlone :
    bridging.DerivesAlone bridgingPhrases s t ↔ (s, t) ∈ [(1, 1), (1, 2), (2, 2)] := by
  have hpairs : bridging.computeDeletable.unitPairs = [(1, 1), (1, 2), (2, 2)] := by decide
  rw [← bridging_composed.paired_computeDeletable bridging_flagsSound, hpairs]
  rfl

/-- The step from `A` to `B` is reported, as both derive themselves alone. -/
theorem Composed.mem_circularProductions_bridging :
    bridging.Composed bridgingPhrases ∧ bridging.FlagsSound bridgingPhrases ∧
      bridging.DerivesAlone bridgingPhrases 1 2 ∧
      bridging.circularError (1, 2) ∈
        (bridging.computeDeletable.runCheck circularProductions).2.diags := by
  obtain ⟨pairs, hreport, hpairs⟩ :=
    bridging_composed.mem_circularProductions bridging_flagsSound
  have hstep : bridging.DerivesAlone bridgingPhrases 1 2 := bridging_derivesAlone.2 (by decide)
  have hA : Relation.TransGen (bridging.DerivesAlone bridgingPhrases) 1 1 :=
    .single (bridging_derivesAlone.2 (by decide))
  have hB : Relation.TransGen (bridging.DerivesAlone bridgingPhrases) 2 2 :=
    .single (bridging_derivesAlone.2 (by decide))
  have hmem := (hpairs 1 2).2 ⟨hstep, ⟨1, hA, .refl⟩, 2, .refl, hB⟩
  refine ⟨bridging_composed, bridging_flagsSound, hstep, ?_⟩
  rw [hreport]
  exact List.mem_append_right _ (List.mem_map_of_mem hmem)

/-- But `B` does not derive `A` again. -/
theorem not_cyclic_bridging :
    bridging.Composed bridgingPhrases ∧ bridging.FlagsSound bridgingPhrases ∧
      .errorOn 1 (.circular "A" "B") ∈
        (bridging.computeDeletable.runCheck circularProductions).2.diags ∧
      (bridging.sym 1).name = "A" ∧ (bridging.sym 2).name = "B" ∧
      ¬ Relation.ReflTransGen (bridging.DerivesAlone bridgingPhrases) 2 1 := by
  refine ⟨bridging_composed, bridging_flagsSound, by decide, by decide, by decide, fun hderives => ?_⟩
  -- what `B` derives alone is `B`
  have hB : ∀ t, Relation.ReflTransGen (bridging.DerivesAlone bridgingPhrases) 2 t → t = 2 := by
    intro t ht
    induction ht with
    | refl => rfl
    | tail _ hstep ih =>
      subst ih
      simpa using bridging_derivesAlone.1 hstep
  exact absurd (hB 1 hderives) (by decide)

end Grammar

end Ebnf
