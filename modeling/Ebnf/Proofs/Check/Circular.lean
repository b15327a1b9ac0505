import Mathlib.Data.Fintype.Order
import Mathlib.Order.WellFounded
import Ebnf.Check
import Ebnf.Declaration
import Ebnf.Proofs.Analysis.Deletable

/-!
# Circular derivations are found

A nonterminal derives another one alone if a leaf sequence of its production can
be deleted but for one leaf that refers to the other one.  The search for such
pairs goes over the outline of the production, and asks at the end of a structure
what follows the structure that encloses it.  Of the pairs, those that lead nowhere
or come from nowhere are pruned; what remains is empty if there is no cycle.

Main results:

- Theorem `Grammar.mem_unitSymbols_outline`: the search finds the leaves that can be
  isolated.
- Theorem `Grammar.pruneWithin_eq_nil_iff`: all pairs are pruned if they form no cycle.
- Theorem `Grammar.Composed.transGen_rewrites_iff`: a nonterminal derives another one
  alone if a chain of pairs leads to it.
- Theorem `Grammar.Composed.runCheck_circularProductions`: the check succeeds if no
  nonterminal derives itself alone.
-/

namespace Ebnf

/-! ## Lists that can be passed but for one element -/

section Isolating

variable {α : Type} {del P : α → Prop} {x : α} {xs ys : List α}

/-- One element of a list has the property `P`, and all others the property `del`. -/
def Isolating (del P : α → Prop) (xs : List α) : Prop :=
  ∃ before x behind, xs = before ++ x :: behind ∧ P x ∧ (∀ y ∈ before, del y) ∧ ∀ y ∈ behind, del y

theorem not_isolating_nil : ¬ Isolating del P [] := by
  rintro ⟨before, x, behind, heq, _⟩
  simp at heq

theorem isolating_append : Isolating del P (xs ++ ys) ↔
    Isolating del P xs ∧ (∀ y ∈ ys, del y) ∨ (∀ x ∈ xs, del x) ∧ Isolating del P ys := by
  constructor
  · rintro ⟨before, x, behind, heq, hx, hbefore, hbehind⟩
    rcases List.append_eq_append_iff.1 heq with ⟨zs, rfl, rfl⟩ | ⟨zs, rfl, hzs⟩
    · obtain ⟨hxs, hzs⟩ := List.forall_mem_append.1 hbefore
      exact .inr ⟨hxs, zs, x, behind, rfl, hx, hzs, hbehind⟩
    · cases zs with
      | nil => exact .inr ⟨by simpa using hbefore, [], x, behind, hzs.symm, hx, by simp, hbehind⟩
      | cons z zs =>
        rw [List.cons_append, List.cons.injEq] at hzs
        obtain ⟨rfl, rfl⟩ := hzs
        obtain ⟨hzs, hys⟩ := List.forall_mem_append.1 hbehind
        exact .inl ⟨⟨before, x, zs, rfl, hx, hbefore, hzs⟩, hys⟩
  · rintro (⟨⟨before, x, behind, rfl, hx, hbefore, hbehind⟩, hys⟩ |
      ⟨hxs, before, x, behind, rfl, hx, hbefore, hbehind⟩)
    · exact ⟨before, x, behind ++ ys, by simp, hx, hbefore, List.forall_mem_append.2 ⟨hbehind, hys⟩⟩
    · exact ⟨xs ++ before, x, behind, by simp, hx, List.forall_mem_append.2 ⟨hxs, hbefore⟩, hbehind⟩

theorem isolating_singleton : Isolating del P [x] ↔ P x := by
  constructor
  · rintro ⟨before, y, behind, heq, hy, _⟩
    cases before with
    | nil =>
      rw [List.nil_append, List.cons.injEq] at heq
      rw [heq.1]
      exact hy
    | cons z before => simp at heq
  · intro hx
    exact ⟨[], x, [], rfl, hx, by simp, by simp⟩

theorem isolating_cons : Isolating del P (x :: xs) ↔
    P x ∧ (∀ y ∈ xs, del y) ∨ del x ∧ Isolating del P xs := by
  rw [← List.singleton_append, isolating_append, isolating_singleton, List.forall_mem_singleton]

/-- Of several lists one after the other, one is isolating itself. -/
theorem exists_isolating_of_flatten {xss : List (List α)} (h : Isolating del P xss.flatten) :
    ∃ xs ∈ xss, Isolating del P xs := by
  induction xss with
  | nil => exact absurd h not_isolating_nil
  | cons xs xss ih =>
    rcases isolating_append.1 h with h | h
    · exact ⟨xs, List.mem_cons_self, h.1⟩
    · obtain ⟨ys, hys, hiso⟩ := ih h.2
      exact ⟨ys, List.mem_cons_of_mem xs hys, hiso⟩

end Isolating

namespace Phrase

/-- All of a phrase can be passed but for one leaf with a property. -/
def Isolates (del : NodeId → Bool) (P : NodeId → Prop) : Phrase → Prop
  | leaf p => P p
  | seq a b => a.Isolates del P ∧ b.nullable del = true ∨ a.nullable del = true ∧ b.Isolates del P
  | arm _ e | opt _ e | iter _ e => e.Isolates del P
  | alt _ e r => e.Isolates del P ∨ r.Isolates del P

variable {del : NodeId → Bool} {P : NodeId → Prop} {e : Phrase}

theorem isolates_iff :
    e.Isolates del P ↔ ∃ ps ∈ e.walks, Isolating (fun p => del p = true) P ps := by
  induction e with
  | leaf p =>
    constructor
    · intro hp
      exact ⟨[p], rfl, isolating_singleton.2 hp⟩
    · rintro ⟨_, rfl, hiso⟩
      have hp : P p := isolating_singleton.1 hiso
      exact hp
  | seq a b iha ihb =>
    rw [Isolates, iha, ihb, nullable_iff, nullable_iff]
    constructor
    · rintro (⟨⟨ps, hps, hiso⟩, qs, hqs, hdel⟩ | ⟨⟨ps, hps, hdel⟩, qs, hqs, hiso⟩)
      · exact ⟨ps ++ qs, Language.append_mem_mul hps hqs, isolating_append.2 (.inl ⟨hiso, hdel⟩)⟩
      · exact ⟨ps ++ qs, Language.append_mem_mul hps hqs, isolating_append.2 (.inr ⟨hdel, hiso⟩)⟩
    · rintro ⟨_, ⟨ps, hps, qs, hqs, rfl⟩, hiso⟩
      rcases isolating_append.1 hiso with ⟨hiso, hdel⟩ | ⟨hdel, hiso⟩
      · exact .inl ⟨⟨ps, hps, hiso⟩, qs, hqs, hdel⟩
      · exact .inr ⟨⟨ps, hps, hdel⟩, qs, hqs, hiso⟩
  | arm p e ih => exact ih
  | alt p e r ihe ihr =>
    simp only [Isolates, ihe, ihr, walks, Language.mem_add, or_and_right, exists_or]
  | opt p e ih =>
    rw [Isolates, ih]
    constructor
    · rintro ⟨ps, hps, hiso⟩
      exact ⟨ps, .inr hps, hiso⟩
    · rintro ⟨ps, hps | hps, hiso⟩
      · rw [Set.mem_singleton_iff.1 hps] at hiso
        exact absurd hiso not_isolating_nil
      · exact ⟨ps, hps, hiso⟩
  | iter p e ih =>
    rw [Isolates, ih]
    constructor
    · rintro ⟨ps, hps, hiso⟩
      exact ⟨ps, (le_kstar : e.walks ≤ _) hps, hiso⟩
    · rintro ⟨_, ⟨pss, rfl, hpss⟩, hiso⟩
      obtain ⟨ps, hps, hiso⟩ := exists_isolating_of_flatten hiso
      exact ⟨ps, hpss ps hps, hiso⟩

end Phrase

namespace Grammar

variable {g : Grammar} {pool : List Phrase} {e : Phrase} {k : Option NodeId} {up : Bool}
  {p : NodeId} {s t : SymbolId} {α β γ : List Letter}

/-! ## The search -/

/-- The node refers to a nonterminal. -/
def References (g : Grammar) (t : SymbolId) (p : NodeId) : Prop :=
  (g.node p).kind.reference? = some t

/-- At the end of a structure the question what follows was asked before. -/
theorem Holds.endsChain {kind : NodeKind} {sub down : Option NodeId}
    (h : g.Holds p kind sub down k up) (hup : up = true → g.deletableChain k = true) :
    g.endsChain p = g.deletableChain k := by
  unfold Grammar.endsChain
  rw [h.leaves_eq, h.next_eq]
  cases up with
  | false => rfl
  | true => rw [hup rfl, Bool.true_or]

/-- The search over the outline of a phrase finds a nonterminal if a leaf of the phrase that refers
to it can be isolated, or if it is found behind the phrase. -/
theorem mem_unitSymbols_outline {rest : Outline} (h : g.Shows e k up) (hnodup : e.nodes.Nodup)
    (hfinite : g.Finite e k) (hup : up = true → g.deletableChain k = true) :
    t ∈ g.unitSymbols (e.outline rest) ↔
      g.deletableChain k = true ∧ e.Isolates g.leafDeletable (g.References t) ∨
        e.nullable g.leafDeletable = true ∧ t ∈ g.unitSymbols rest := by
  -- within a structure nothing is found behind the contents
  have hdone : t ∉ g.unitSymbols .done := by simp [unitSymbols]
  induction e generalizing k up rest with
  | leaf p =>
    rw [Phrase.outline, unitSymbols, List.mem_append, h.2.endsChain hup, List.mem_ite_nil_right,
      Phrase.nullable]
    refine or_congr_left ?_
    unfold Phrase.Isolates References
    cases hk : (g.node p).kind with
    | nonterminal s =>
      rw [List.mem_ite_nil_right, List.mem_singleton, NodeKind.reference?, Option.some.injEq,
        @eq_comm _ s t]
    | _ => simp [NodeKind.reference?]
  | seq a b iha ihb =>
    obtain ⟨ha, hb, _⟩ := List.nodup_append'.1 hnodup
    have hpart : g.Finite b k := hfinite.part (by simp [Phrase.nodes])
    have hfirst : t ∈ g.unitSymbols (a.outline (b.outline rest)) ↔ _ :=
      iha h.1 ha (hfinite.first h) (by simp)
    have hsecond : t ∈ g.unitSymbols (b.outline rest) ↔ _ := ihb h.2 hb hpart hup
    rw [Phrase.outline, hfirst, hsecond, deletableChain_entry h.2 hb hpart]
    simp only [Phrase.Isolates, Phrase.nullable, Bool.and_eq_true]
    grind only
  | arm p e ih =>
    have hnode := (deletableNode_entry h hnodup (by simp)).1
    have hpart : g.Finite e k := hfinite.part (by simp [Phrase.nodes])
    rw [Phrase.entry] at hnode
    rw [Phrase.outline, unitSymbols, List.mem_append, h.1.endsChain hup, List.mem_ite_nil_right,
      List.mem_ite_nil_right, hnode, Phrase.Isolates]
    refine or_congr_left (and_congr_right fun hk => ?_)
    simp [ih h.2 (List.nodup_cons.1 hnodup).2 hpart fun _ => hk, hk, unitSymbols]
  | alt p e r ihe ihr =>
    obtain ⟨he, hr, _⟩ := List.nodup_append'.1 (List.nodup_cons.1 hnodup).2
    have hnode := (deletableNode_entry h hnodup (by simp)).1
    have hparte : g.Finite e k := hfinite.part (by simp [Phrase.nodes]; omega)
    have hpartr : g.Finite r k := hfinite.part (by simp [Phrase.nodes]; omega)
    rw [Phrase.entry] at hnode
    rw [Phrase.outline, unitSymbols, List.mem_append, h.2.1.endsChain hup, List.mem_ite_nil_right,
      List.mem_ite_nil_right, hnode, Phrase.Isolates]
    refine or_congr_left (and_congr_right fun hk => ?_)
    simp [ihe h.2.2.1 he hparte fun _ => hk, ihr h.2.2.2 hr hpartr fun _ => hk, hk, hdone]
  | opt p e ih =>
    have hpart : g.Finite e k := hfinite.part (by simp [Phrase.nodes])
    rw [Phrase.outline, unitSymbols, List.mem_append, h.1.endsChain hup, List.mem_ite_nil_right,
      Phrase.Isolates, Phrase.nullable]
    refine or_congr (and_congr_right fun hk => ?_) (by simp)
    simp [ih h.2 (List.nodup_cons.1 hnodup).2 hpart fun _ => hk, hk, hdone]
  | iter p e ih =>
    -- what follows the body is the iteration, which can be passed if what follows it can
    have hloop : g.deletableChain (some p) = g.deletableChain k := by
      have hentry := deletableChain_entry h hnodup hfinite
      rwa [Phrase.entry, Phrase.nullable, Bool.true_and] at hentry
    rw [Phrase.outline, unitSymbols, List.mem_append, h.1.endsChain hup, List.mem_ite_nil_right,
      Phrase.Isolates, Phrase.nullable]
    refine or_congr (and_congr_right fun hk => ?_) (by simp)
    simp [ih h.2 (List.nodup_cons.1 hnodup).2 (hfinite.round h) fun _ => hloop.trans hk, hloop, hk,
      hdone]

/-! ## Pruning -/

section Prune

variable {pairs : List (SymbolId × SymbolId)} {fuel : Nat}

/-- One pair leads from a nonterminal to another one. -/
def Paired (pairs : List (SymbolId × SymbolId)) (s t : SymbolId) : Prop :=
  (s, t) ∈ pairs

theorem paired_prune : Paired (prune pairs) s t ↔
    Paired pairs s t ∧ (∃ u, Paired pairs t u) ∧ ∃ r, Paired pairs r s := by
  simp [Paired, prune]

theorem prune_sublist : (prune pairs).Sublist pairs :=
  List.filter_sublist

theorem pruneWithin_sublist (fuel : Nat) (pairs : List (SymbolId × SymbolId)) :
    (pruneWithin fuel pairs).Sublist pairs := by
  induction fuel generalizing pairs with
  | zero => exact .refl pairs
  | succ fuel ih =>
    rw [pruneWithin]
    split
    · exact prune_sublist
    · exact (ih _).trans prune_sublist

/-- With enough rounds there is nothing left to prune. -/
theorem prune_pruneWithin (hfuel : pairs.length ≤ fuel) :
    prune (pruneWithin fuel pairs) = pruneWithin fuel pairs := by
  induction fuel generalizing pairs with
  | zero =>
    rw [List.length_eq_zero_iff.1 (Nat.le_zero.1 hfuel)]
    rfl
  | succ fuel ih =>
    rw [pruneWithin]
    have hle : (prune pairs).length ≤ pairs.length := prune_sublist.length_le
    split
    · next hlen =>
      have hsame : prune pairs = pairs := prune_sublist.eq_of_length hlen
      rw [hsame, hsame]
    · next hlen => exact ih (by omega)

/-- A chain of pairs whose ends are on further pairs is not pruned. -/
theorem transGen_prune (h : Relation.TransGen (Paired pairs) s t) (hs : ∃ r, Paired pairs r s)
    (ht : ∃ u, Paired pairs t u) : Relation.TransGen (Paired (prune pairs)) s t := by
  induction h with
  | single hst => exact .single (paired_prune.2 ⟨hst, ht, hs⟩)
  | @tail t u hst htu ih =>
    have hchain := ih ⟨u, htu⟩
    obtain ⟨r, _, hr⟩ := Relation.TransGen.tail'_iff.1 hst
    exact hchain.tail (paired_prune.2 ⟨htu, ht, r, hr⟩)

/-- Cycles stay. -/
theorem cycle_pruneWithin (h : Relation.TransGen (Paired pairs) s s) :
    Relation.TransGen (Paired (pruneWithin fuel pairs)) s s := by
  induction fuel generalizing pairs with
  | zero => exact h
  | succ fuel ih =>
    obtain ⟨t, ht, _⟩ := Relation.TransGen.head'_iff.1 h
    obtain ⟨r, _, hr⟩ := Relation.TransGen.tail'_iff.1 h
    have hrest := transGen_prune h ⟨r, hr⟩ ⟨t, ht⟩
    rw [pruneWithin]
    split
    · exact hrest
    · exact ih hrest

/-- Pairs each of which leads to a further one form a cycle, as there are finitely many. -/
theorem exists_cycle (hne : pairs ≠ []) (hnext : ∀ s t, Paired pairs s t → ∃ u, Paired pairs t u) :
    ∃ s, Relation.TransGen (Paired pairs) s s := by
  by_contra hacyclic
  -- the left sides, of which a last one would have to exist
  let Left := { s // s ∈ pairs.map Prod.fst }
  let after : Left → Left → Prop := fun t s => Relation.TransGen (Paired pairs) s t
  have htrans : IsTrans Left after := ⟨fun _ _ _ hab hbc => hbc.trans hab⟩
  have hirrefl : Std.Irrefl after := ⟨fun s hs => hacyclic ⟨s, hs⟩⟩
  have hwf : WellFounded after := Finite.wellFounded_of_trans_of_irrefl after
  obtain ⟨pair, hpair⟩ := List.exists_mem_of_ne_nil pairs hne
  let first : Left := ⟨pair.1, List.mem_map_of_mem hpair⟩
  obtain ⟨last, -, hlast⟩ := hwf.has_min Set.univ ⟨first, Set.mem_univ first⟩
  obtain ⟨⟨s, t⟩, hst, hs⟩ := List.mem_map.1 last.2
  obtain ⟨u, htu⟩ := hnext s t hst
  refine hlast ⟨t, List.mem_map_of_mem htu⟩ (Set.mem_univ _) (.single ?_)
  rw [← hs]
  exact hst

/-- All pairs are pruned if they form no cycle. -/
theorem pruneWithin_eq_nil_iff (hfuel : pairs.length ≤ fuel) :
    pruneWithin fuel pairs = [] ↔ ∀ s, ¬ Relation.TransGen (Paired pairs) s s := by
  constructor
  · intro hnil s hcycle
    have hrest : Relation.TransGen (Paired (pruneWithin fuel pairs)) s s := cycle_pruneWithin hcycle
    rw [hnil] at hrest
    obtain ⟨t, ht, _⟩ := Relation.TransGen.head'_iff.1 hrest
    cases ht
  · intro hacyclic
    by_contra hne
    have hfixed := prune_pruneWithin hfuel
    obtain ⟨s, hs⟩ := exists_cycle hne fun s t hst => (paired_prune.1 (hfixed.symm ▸ hst)).2.1
    have hsub : ∀ a b, Paired (pruneWithin fuel pairs) a b → Paired pairs a b :=
      fun a b hab => (pruneWithin_sublist fuel pairs).subset hab
    exact hacyclic s (Relation.TransGen.mono hsub s s hs)

end Prune

/-! ## Derivations of a single nonterminal -/

/-- The form is a nonterminal among flagged letters. -/
def Single (g : Grammar) (t : SymbolId) (α : List Letter) : Prop :=
  Isolating g.Flagged (fun x => x = .nonterminal t) α

theorem references_iff : g.References t p ↔ g.Single t (g.letters p) := by
  unfold References Single letters
  cases (g.node p).kind <;> simp [NodeKind.reference?, isolating_singleton, not_isolating_nil]

theorem isolating_leaves {ps : List NodeId} :
    Isolating (fun p => g.leafDeletable p = true) (g.References t) ps ↔
      g.Single t (ps.flatMap g.letters) := by
  induction ps with
  | nil => exact iff_of_false not_isolating_nil not_isolating_nil
  | cons p ps ih =>
    rw [Single, List.flatMap_cons, isolating_append, isolating_cons, forall_leafDeletable_iff, ih,
      references_iff, leafDeletable_iff]
    rfl

namespace Composed

variable (h : g.Composed pool)
include h

theorem mem_unitSymbols_iff (he : e ∈ pool) : t ∈ g.unitSymbols (g.outline (some e.entry)) ↔
    ∃ ps ∈ e.walks, g.Single t (ps.flatMap g.letters) := by
  have hshows := h.shows_of_mem he
  have hnodup := h.nodup he
  rw [outline_entry hshows hnodup (.inr rfl),
    mem_unitSymbols_outline hshows hnodup (hshows.finite hnodup) (by simp)]
  simp only [unitSymbols, deletableChain_none, true_and, List.not_mem_nil, and_false, or_false,
    Phrase.isolates_iff, isolating_leaves]

/-- A pair is a nonterminal and one that is single on a leaf sequence of its production. -/
theorem paired_unitPairs : Paired g.unitPairs s t ↔ s ∈ g.nonterminals ∧ ∃ e ∈ pool,
    (g.sym s).production = some e.entry ∧ ∃ ps ∈ e.walks, g.Single t (ps.flatMap g.letters) := by
  have hpair : Paired g.unitPairs s t ↔
      s ∈ g.nonterminals ∧ t ∈ g.unitSymbols (g.outline (g.sym s).production) := by
    simp [Paired, unitPairs]
  rw [hpair]
  refine and_congr_right fun hs => ⟨fun ht => ?_, ?_⟩
  · cases hprod : (g.sym s).production with
    | none =>
      rw [hprod, outline, outlineWithin_none] at ht
      cases ht
    | some p =>
      obtain ⟨e, he, rfl⟩ := h.production s hs p hprod
      rw [hprod, h.mem_unitSymbols_iff he] at ht
      exact ⟨e, he, rfl, ht⟩
  · rintro ⟨e, he, hprod, hsingle⟩
    rw [hprod]
    exact (h.mem_unitSymbols_iff he).2 hsingle

/-- Before a step to a single nonterminal there was one from which it can be reached. -/
theorem single_of_rewrites (hclosed : g.Closed) (hstep : g.Rewrites pool α β)
    (hβ : g.Single t β) :
    ∃ s, g.Single s α ∧ Relation.ReflTransGen (Paired g.unitPairs) s t := by
  cases hstep with
  | @expand s e ps γ δ hs he hprod hps =>
    -- the nonterminal is flagged where its production adds flagged letters only
    have hflagged : (∀ x ∈ ps.flatMap g.letters, g.Flagged x) → g.Flagged (.nonterminal s) :=
      fun hall => h.flagged_of_rewrites hclosed (.expand [] [] hs he hprod hps) (by simpa using hall)
        _ List.mem_cons_self
    rcases isolating_append.1 hβ with ⟨hfront, hδ⟩ | ⟨hfront, hδ⟩
    · rcases isolating_append.1 hfront with ⟨hγ, hmid⟩ | ⟨hγ, hmid⟩
      · refine ⟨t, isolating_append.2 (.inl ⟨hγ, ?_⟩), .refl⟩
        exact List.forall_mem_cons.2 ⟨hflagged hmid, hδ⟩
      · refine ⟨s, ⟨γ, _, δ, rfl, rfl, hγ, hδ⟩, .single ?_⟩
        exact h.paired_unitPairs.2 ⟨hs, e, he, hprod, ps, hps, hmid⟩
    · obtain ⟨hγ, hmid⟩ := List.forall_mem_append.1 hfront
      refine ⟨t, isolating_append.2 (.inr ⟨hγ, ?_⟩), .refl⟩
      exact isolating_cons.2 (.inr ⟨hflagged hmid, hδ⟩)
  | choose γ δ hp hn =>
    -- a terminal is neither flagged nor a nonterminal
    rcases isolating_append.1 hβ with ⟨_, hδ⟩ | ⟨_, hδ⟩
    · exact (hδ _ List.mem_cons_self).elim
    · rcases isolating_cons.1 hδ with ⟨heq, _⟩ | ⟨hflag, _⟩
      · cases heq
      · exact hflag.elim

theorem single_of_derives (hclosed : g.Closed) (hderives : g.Derives pool α [.nonterminal t]) :
    ∃ s, g.Single s α ∧ Relation.ReflTransGen (Paired g.unitPairs) s t := by
  induction hderives using Relation.ReflTransGen.head_induction_on with
  | refl => exact ⟨t, isolating_singleton.2 rfl, .refl⟩
  | head hstep _ ih =>
    obtain ⟨s, hs, hchain⟩ := ih
    obtain ⟨r, hr, hfirst⟩ := h.single_of_rewrites hclosed hstep hs
    exact ⟨r, hr, hfirst.trans hchain⟩

end Composed

/-- A single nonterminal is derived by deleting the letters around it. -/
theorem derives_of_single (hflags : g.FlagsSound pool) (hα : g.Single t α) :
    g.Derives pool α [.nonterminal t] := by
  obtain ⟨before, x, behind, rfl, rfl, hbefore, hbehind⟩ := hα
  have hnil : ∀ {γ : List Letter}, (∀ x ∈ γ, g.Flagged x) → g.Derives pool γ [] := by
    intro γ hγ
    refine Derives.nil_of_forall fun x hx => ?_
    cases x with
    | nonterminal s => exact hflags s (hγ _ hx)
    | _ => exact (hγ _ hx).elim
  have hlast : g.Derives pool (.nonterminal t :: behind) [.nonterminal t] := by
    simpa using (hnil hbehind).context [.nonterminal t] []
  exact (hnil hbefore).append hlast

/-- A nonterminal derives another one alone if a chain of pairs leads to it. -/
theorem Composed.transGen_rewrites_iff (h : g.Composed pool) (hclosed : g.Closed)
    (hflags : g.FlagsSound pool) :
    Relation.TransGen (g.Rewrites pool) [.nonterminal s] [.nonterminal t] ↔
      Relation.TransGen (Paired g.unitPairs) s t := by
  constructor
  · intro hderives
    obtain ⟨β, hstep, hrest⟩ := Relation.TransGen.head'_iff.1 hderives
    obtain ⟨hs, e, he, hprod, ps, hps, rfl⟩ := rewrites_singleton hstep
    obtain ⟨u, hu, hchain⟩ := h.single_of_derives hclosed hrest
    exact .head' (h.paired_unitPairs.2 ⟨hs, e, he, hprod, ps, hps, hu⟩) hchain
  · refine Relation.TransGen.lift' (fun s => [Letter.nonterminal s]) (fun s t hst => ?_) s t
    obtain ⟨hs, e, he, hprod, ps, hps, hsingle⟩ := h.paired_unitPairs.1 hst
    have hstep : g.Rewrites pool [.nonterminal s] (ps.flatMap g.letters) := by
      simpa using Rewrites.expand [] [] hs he hprod hps
    exact .head' hstep (derives_of_single hflags hsingle)

/-- The check finds nothing if no nonterminal derives itself alone. -/
theorem Composed.circularProductions_eq_nil_iff (h : g.Composed pool) (hclosed : g.Closed)
    (hflags : g.FlagsSound pool) : g.circularProductions = [] ↔
      ∀ s, ¬ Relation.TransGen (g.Rewrites pool) [.nonterminal s] [.nonterminal s] := by
  unfold circularProductions circularPairs
  rw [List.map_eq_nil_iff, pruneWithin_eq_nil_iff (Nat.le_refl _)]
  simp only [h.transGen_rewrites_iff hclosed hflags]

/-- When the deletable nonterminals are flagged, the check for circular productions succeeds if no
nonterminal derives itself alone, in one or more steps. -/
theorem Composed.runCheck_circularProductions (h : g.Composed pool) (hflags : g.FlagsSound pool) :
    (g.computeDeletable.runCheck circularProductions).1 = true ↔
      ∀ s, ¬ Relation.TransGen (g.Rewrites pool) [.nonterminal s] [.nonterminal s] := by
  have hrules := g.computeDeletable_sameRules
  have hflags' := h.flagsSound_computeDeletable hflags
  rw [runCheck, List.isEmpty_iff,
    (h.congr hrules).circularProductions_eq_nil_iff computeDeletable_closed hflags']
  simp only [hrules.rewrites_eq]

/-! ## A circle through deletable parts -/

/-- The productions `A = { b } B` and `B = ( [ b ] A | b )`. -/
def circling : Grammar :=
  let g := (initial.declareProduction "A"
    (.seq (.iter (.terminal "b")) [.nonterminal "B"]) 1).2.2
  (g.declareProduction "B" (.alt (.seq (.opt (.terminal "b")) [.nonterminal "A"])
    [.terminal "b"]) 2).2.2

/-- The phrases of the productions. -/
def circlingPhrases : List Phrase :=
  [.alt 7 (.seq (.opt 4 (.leaf 3)) (.leaf 5)) (.arm 8 (.leaf 6)), .seq (.iter 1 (.leaf 0)) (.leaf 2)]

theorem circling_composed : circling.Composed circlingPhrases := by
  have hterminal : (NodeKind.terminal 1).isLeaf = true := rfl
  have hfirst : (NodeKind.nonterminal 2).isLeaf = true := rfl
  have hsecond : (NodeKind.nonterminal 3).isLeaf = true := rfl
  have hrounds := ((Assembled.start .initial).leaf hterminal 1 none).iteration
  have hA := ((hrounds.leaf hfirst 1 none).perm (.swap _ _ _)).sequence
  have hmaybe := (hA.leaf hterminal 2 none).option
  have harm := ((hmaybe.leaf hsecond 2 none).perm (.swap _ _ _)).sequence
  have hboth := ((harm.leaf hterminal 2 none).perm (.swap _ _ _)).firstArm.addArm rfl
  have hall : Assembled circling circlingPhrases := hboth.declare (by decide) (by decide)
  exact ⟨hall, by decide, by decide⟩

theorem Composed.runCheck_circularProductions_circling :
    circling.Composed circlingPhrases ∧
      (circling.computeDeletable.runCheck circularProductions).1 = false ∧
      ∃ s, Relation.TransGen (circling.Rewrites circlingPhrases) [.nonterminal s] [.nonterminal s] := by
  have hcheck : (circling.computeDeletable.runCheck circularProductions).1 = false := by decide
  refine ⟨circling_composed, hcheck, ?_⟩
  by_contra hnone
  have hok := (circling_composed.runCheck_circularProductions (flagsSound_of_forall (by decide))).2
    (not_exists.1 hnone)
  rw [hcheck] at hok
  cases hok

end Grammar

end Ebnf
