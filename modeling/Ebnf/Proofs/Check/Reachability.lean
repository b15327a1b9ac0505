import Ebnf.Proofs.Analysis.Follow
import Ebnf.Proofs.Check.Verdict
import Ebnf.Proofs.Phrase.Context

/-!
# Nonterminals that nothing leads to are found

The search marks the numbers of nonterminals.  From a number it goes on to those of
the nonterminals that occur in the production, and these are found by a walk that
does not leave the structures it enters.  For a production that was put together from
fragments, this walk meets every node.

Main results:

- Theorem `Grammar.Composed.mem_occurring`: the nonterminals that are found in a
  production are those to which one of its nodes refers.
- Theorem `Grammar.Composed.mem_reachedNumbers`: the marked numbers are those of the
  nonterminals to which references lead from the start symbol.
- Theorem `Grammar.Composed.runCheck_unreachableSymbols`: the check warns about exactly
  the others, each once.
-/

namespace Ebnf

namespace Grammar

variable {g : Grammar} {pool : List Phrase} {r s t : SymbolId} {p : NodeId} {n : Nat}

/-! ## References -/

/-- In the production of `s` a node refers to `t`. -/
def Occurs (g : Grammar) (pool : List Phrase) (s t : SymbolId) : Prop :=
  ∃ p, g.ReferenceIn pool s p t

/-- References lead from the start symbol to the nonterminal. -/
def Reachable (g : Grammar) (pool : List Phrase) (s : SymbolId) : Prop :=
  ∃ r ∈ g.start, Relation.ReflTransGen (g.Occurs pool) r s

/-- The nonterminal is not the start symbol, and occurs in no production that can be reached. -/
def Stray (g : Grammar) (pool : List Phrase) (s : SymbolId) : Prop :=
  s ∉ g.start ∧ ∀ r, g.Reachable pool r → ¬ g.Occurs pool r s

theorem Reachable.occurs (h : g.Reachable pool r) (hoccurs : g.Occurs pool r s) :
    g.Reachable pool s := by
  obtain ⟨start, hstart, hpath⟩ := h
  exact ⟨start, hstart, hpath.tail hoccurs⟩

theorem stray_iff : g.Stray pool s ↔ ¬ g.Reachable pool s := by
  constructor
  · rintro ⟨hother, hnone⟩ ⟨start, hstart, hpath⟩
    -- the last reference on the way is the one that cannot be
    rcases hpath.cases_tail with heq | ⟨r, hpath, hoccurs⟩
    · exact hother (heq ▸ hstart)
    · exact hnone r ⟨start, hstart, hpath⟩ hoccurs
  · intro hnot
    exact ⟨fun hs => hnot ⟨s, hs, .refl⟩, fun r hr hoccurs => hnot (hr.occurs hoccurs)⟩

theorem Numbered.nonterminal_number (h : g.Numbered) (hs : s ∈ g.nonterminals) :
    g.nonterminal (g.sym s).number = s := by
  rw [nonterminal, List.getD_eq_getElem?_getD, h s hs, Option.getD_some]

namespace Composed

variable (h : g.Composed pool)
include h

theorem mem_of_occurs (hoccurs : g.Occurs pool s t) : t ∈ g.nonterminals := by
  obtain ⟨p, href⟩ := hoccurs
  obtain ⟨e, he, _, hp⟩ := href.inProduction
  exact h.mem_of_kind he hp href.kind_eq

/-- The walk that stays within structures meets exactly the nodes of the production. -/
theorem mem_nodesWithin_production (hs : s ∈ g.nonterminals) :
    p ∈ g.nodesWithin (g.sym s).production ↔ g.InProduction pool s p := by
  constructor
  · intro hp
    cases hprod : (g.sym s).production with
    | none =>
      rw [hprod] at hp
      exact (Reached.not_nil (mem_explore.1 hp)).elim
    | some q =>
      obtain ⟨e, he, rfl⟩ := h.production s hs q hprod
      rw [hprod] at hp
      have hreach := (mem_explore.1 hp).mono fun _ _ => mem_edges_of_mem_innerEdges
      exact ⟨e, he, hprod, (h.shows_of_mem he).mem_of_reached hreach⟩
  · rintro ⟨e, he, hprod, hp⟩
    rw [hprod]
    exact (h.shows_of_mem he).mem_nodesWithin p hp

/-- The nonterminals that are found in a production are those that occur in it. -/
theorem mem_occurring (hs : s ∈ g.nonterminals) : t ∈ g.occurring s ↔ g.Occurs pool s t := by
  rw [occurring, List.mem_filterMap]
  constructor
  · rintro ⟨p, hp, hkind⟩
    refine ⟨p, hs, (h.mem_nodesWithin_production hs).1 hp, ?_⟩
    split at hkind
    · next heq => rw [heq, Option.some.inj hkind]
    · cases hkind
  · rintro ⟨p, href⟩
    refine ⟨p, (h.mem_nodesWithin_production hs).2 href.inProduction, ?_⟩
    rw [href.kind_eq]

theorem mem_of_reachable (hstart : ∀ s ∈ g.start, s ∈ g.nonterminals)
    (hs : g.Reachable pool s) : s ∈ g.nonterminals := by
  obtain ⟨r, hr, hpath⟩ := hs
  rcases hpath.cases_tail with rfl | ⟨t, _, hoccurs⟩
  · exact hstart s hr
  · exact h.mem_of_occurs hoccurs

/-! ## The search -/

variable (hnum : g.Numbered) (hstart : ∀ s ∈ g.start, s ∈ g.nonterminals)
include hnum hstart

/-- The marked numbers are those of the nonterminals that can be reached. -/
theorem mem_reachedNumbers :
    n ∈ g.reachedNumbers ↔ ∃ s, g.Reachable pool s ∧ (g.sym s).number = n := by
  rw [reachedNumbers, mem_explore]
  constructor
  · intro hreach
    induction hreach with
    | root hmem _ =>
      obtain ⟨s, hs, rfl⟩ := Option.map_eq_some_iff.1 (Option.mem_toList.1 hmem)
      exact ⟨s, ⟨s, hs, .refl⟩, rfl⟩
    | step _ hedge _ ih =>
      obtain ⟨s, hs, rfl⟩ := ih
      have hmem := h.mem_of_reachable hstart hs
      rw [hnum.nonterminal_number hmem] at hedge
      obtain ⟨t, ht, rfl⟩ := List.mem_map.1 hedge
      exact ⟨t, hs.occurs ((h.mem_occurring hmem).1 ht), rfl⟩
  · rintro ⟨s, ⟨r, hr, hpath⟩, rfl⟩
    have hfresh : ∀ t ∈ g.nonterminals,
        isFresh (allFresh g.nonterminals.length) (g.sym t).number = true :=
      fun t ht => isFresh_allFresh.2 (hnum.lt_length ht)
    induction hpath with
    | refl =>
      refine .root (Option.mem_toList.2 ?_) (hfresh r (hstart r hr))
      exact Option.map_eq_some_iff.2 ⟨r, hr, rfl⟩
    | @tail s t _ hoccurs ih =>
      have hs : s ∈ g.nonterminals := hoccurs.choose_spec.mem
      refine ih.step ?_ (hfresh t (h.mem_of_occurs hoccurs))
      rw [hnum.nonterminal_number hs]
      exact List.mem_map.2 ⟨t, (h.mem_occurring hs).2 hoccurs, rfl⟩

/-- A nonterminal is marked by its number if it can be reached. -/
theorem number_mem_reachedNumbers (hs : s ∈ g.nonterminals) :
    (g.sym s).number ∈ g.reachedNumbers ↔ g.Reachable pool s := by
  rw [h.mem_reachedNumbers hnum hstart]
  constructor
  · rintro ⟨t, ht, heq⟩
    exact hnum.eq_of_number (h.mem_of_reachable hstart ht) hs heq ▸ ht
  · exact fun hs => ⟨s, hs, rfl⟩

/-! ## What is reported -/

/-- There is one warning for each nonterminal that nothing leads to. -/
theorem unreachableSymbols_eq : g.unreachableSymbols =
    (g.nonterminalsWhere (g.Stray pool)).map fun s =>
      .warningOn (g.sym s).line (.unreachable (g.sym s).name) := by
  unfold unreachableSymbols
  refine congrArg (List.map _) (filter_nonterminals fun s hs => ?_)
  rw [Bool.not_eq_true', ← Bool.not_eq_true, List.contains_iff_mem,
    h.number_mem_reachedNumbers hnum hstart hs, stray_iff]

/-- The check warns about the nonterminals other than the start symbol that occur in no production
that can be reached, each once.  It adds no error, and succeeds exactly if there is none. -/
theorem runCheck_unreachableSymbols :
    (g.runCheck unreachableSymbols).2 =
      g.reportAll ((g.nonterminalsWhere (g.Stray pool)).map fun s =>
        .warningOn (g.sym s).line (.unreachable (g.sym s).name)) ∧
    (g.runCheck unreachableSymbols).2.diags.errors = g.diags.errors ∧
    ((g.runCheck unreachableSymbols).1 = true ↔ ∀ s ∈ g.nonterminals, ¬ g.Stray pool s) := by
  refine ⟨?_, errors_runCheck_warning fun _ => severity_unreachableSymbols, ?_⟩
  · rw [runCheck, h.unreachableSymbols_eq hnum hstart]
  · rw [runCheck_fst_iff, h.unreachableSymbols_eq hnum hstart, List.map_eq_nil_iff,
      nonterminalsWhere_eq_nil_iff]

end Composed

/-- Nothing leads to `U` and `V`, which refer to each other. -/
theorem Composed.runCheck_unreachableSymbols_stranded :
    stranded.Composed strandedPhrases ∧ stranded.Numbered ∧
      (∀ s ∈ stranded.start, s ∈ stranded.nonterminals) ∧
      (stranded.runCheck unreachableSymbols).1 = false ∧
      ((stranded.nonterminalsWhere (stranded.Stray strandedPhrases)).map fun s =>
        Diagnostic.warningOn (stranded.sym s).line (.unreachable (stranded.sym s).name)) =
          [.warningOn 2 (.unreachable "V"), .warningOn 2 (.unreachable "U")] := by
  have hstart : ∀ s ∈ stranded.start, s ∈ stranded.nonterminals := by decide
  have hfound : (stranded.runCheck unreachableSymbols).2.diags =
      [.warningOn 2 (.unreachable "V"), .warningOn 2 (.unreachable "U")] := by decide
  obtain ⟨hreport, -, -⟩ := stranded_composed.runCheck_unreachableSymbols stranded_numbered hstart
  rw [hreport] at hfound
  exact ⟨stranded_composed, stranded_numbered, hstart, by decide, hfound⟩

end Grammar

end Ebnf
