import Ebnf.Analysis.Follow
import Ebnf.Proofs.Analysis.First

/-!
# Inherited follow sets

Follow sets are completed by one depth-first search for each nonterminal.  A
search adds sets on the way back and stops at what it has visited, so that the
sets of nonterminals on a cycle are not complete when it leaves them.  But the
one at which it began gets the sets of all that it visited, and what it visited
is closed under inheritance, up to nonterminals completed by earlier searches.

Main results:

- Theorem `Grammar.completed_complete`: what a search does below the nonterminal at
  which it began.
- Theorem `Grammar.mem_follow_completeAll`: after all searches a nonterminal has what
  follows any nonterminal from which it inherits, directly or not.
-/

namespace Ebnf

/-- The part of a symbol on which start sets depend. -/
def Symbol.starts (s : Symbol) : Bool × Bool × BitSet :=
  (s.deletable, s.firstKnown, s.first)

namespace Grammar

variable {g g' g'' g₀ : Grammar} {f : Symbol → Symbol} {cur s t x : SymbolId} {n i : Nat}
  {inherited : SymbolId → BitSet} {is : List Nat} {fresh : Array Bool}
  {before middle after : Grammar × Array Bool}

/-! ## Grammars with the same start sets -/

/-- The two grammars have the same rules and start sets; follow sets may differ. -/
structure SameFirsts (g g' : Grammar) : Prop extends g.SameRules g' where
  starts_eq : ∀ s, (g'.sym s).starts = (g.sym s).starts

namespace SameFirsts

theorem refl (g : Grammar) : g.SameFirsts g :=
  ⟨.refl g, fun _ => rfl⟩

theorem trans (h : g.SameFirsts g') (h' : g'.SameFirsts g'') : g.SameFirsts g'' :=
  ⟨h.toSameRules.trans h'.toSameRules, fun s => (h'.starts_eq s).trans (h.starts_eq s)⟩

theorem modifySym (hf : ∀ sym, (f sym).heading = sym.heading ∧ (f sym).starts = sym.starts) :
    g.SameFirsts (g.modifySym s f) :=
  ⟨.modifySym fun sym => (hf sym).1, fun _ => modifySym_keeps Symbol.starts fun sym => (hf sym).2⟩

/-- A step that keeps the start sets keeps them however often it is taken. -/
theorem foldl {α : Type} {step : Grammar → α → Grammar}
    (hstep : ∀ (g : Grammar) (a : α), g.SameFirsts (step g a)) (as : List α) (g : Grammar) :
    g.SameFirsts (as.foldl step g) := by
  induction as generalizing g with
  | nil => exact refl g
  | cons a as ih => exact (hstep g a).trans (ih _)

variable (h : g.SameFirsts g')
include h

theorem deletable_eq (s : SymbolId) : (g'.sym s).deletable = (g.sym s).deletable :=
  congrArg Prod.fst (h.starts_eq s)

theorem firstKnown_eq (s : SymbolId) : (g'.sym s).firstKnown = (g.sym s).firstKnown :=
  congrArg (·.2.1) (h.starts_eq s)

theorem first_sym_eq (s : SymbolId) : (g'.sym s).first = (g.sym s).first :=
  congrArg (·.2.2) (h.starts_eq s)

theorem toAgrees : g.Agrees g' :=
  h.agrees h.deletable_eq

theorem startEdges_eq : g'.startEdges = g.startEdges := by
  funext p
  simp only [startEdges, h.kind_eq, h.firstKnown_eq, h.production_eq, h.toAgrees.sub_eq,
    h.toAgrees.down_eq, h.toAgrees.next_eq, h.toAgrees.deletableNode_eq]

theorem startTerminals_eq (p : NodeId) : g'.startTerminals p = g.startTerminals p := by
  unfold startTerminals
  rw [h.kind_eq]
  cases hkind : (g.node p).kind <;> simp only [h.number_eq, h.firstKnown_eq, h.first_sym_eq]
  exact h.anys_eq p hkind

theorem first_eq (p : Option NodeId) : g'.first p = g.first p := by
  unfold first
  rw [h.startEdges_eq, h.size_eq, funext h.startTerminals_eq]

end SameFirsts

/-! ## One search -/

/-- By the given sets of numbers, `s` inherits what follows `t`. -/
def Heir (g₀ : Grammar) (inherited : SymbolId → BitSet) (s t : SymbolId) : Prop :=
  ∃ i ∈ inherited s, g₀.nonterminals[i]? = some t

/-- The nonterminal was visited in between. -/
def Visited (g₀ : Grammar) (before after : Grammar × Array Bool) (x : SymbolId) : Prop :=
  x ∈ g₀.nonterminals ∧ isFresh before.2 (g₀.sym x).number = true ∧
    isFresh after.2 (g₀.sym x).number = false

/-- What a search, or a part of it, does on behalf of the nonterminal `s`. -/
structure Completed (g₀ : Grammar) (inherited : SymbolId → BitSet) (s : SymbolId)
    (before after : Grammar × Array Bool) : Prop where
  same : before.1.SameFirsts after.1
  follow_mono : ∀ x n, n ∈ (before.1.sym x).follow → n ∈ (after.1.sym x).follow
  /-- nothing is added but what is inherited -/
  follow_bound : ∀ bound : SymbolId → Nat → Prop,
    (∀ x y, g₀.Heir inherited x y → ∀ n, bound y n → bound x n) →
    (∀ x n, n ∈ (before.1.sym x).follow → bound x n) →
    ∀ x n, n ∈ (after.1.sym x).follow → bound x n
  fresh_of : ∀ i, isFresh after.2 i = true → isFresh before.2 i = true
  count_le : after.2.count true ≤ before.2.count true
  /-- from what is visited one inherits only from what is visited -/
  closed : ∀ x, g₀.Visited before after x → ∀ y, g₀.Heir inherited x y →
    isFresh after.2 (g₀.sym y).number = false
  /-- what follows a visited nonterminal now follows `s` -/
  gathers : ∀ x, g₀.Visited before after x → ∀ n, n ∈ (before.1.sym x).follow →
    n ∈ (after.1.sym s).follow

namespace Completed

theorem refl (before : Grammar × Array Bool) : Completed g₀ inherited s before before where
  same := .refl _
  follow_mono _ _ hn := hn
  follow_bound _ _ hbound := hbound
  fresh_of _ hi := hi
  count_le := Nat.le_refl _
  closed _ hx := absurd (hx.2.1.symm.trans hx.2.2) nofun
  gathers _ hx := absurd (hx.2.1.symm.trans hx.2.2) nofun

theorem not_fresh_mono (h : Completed g₀ inherited s before after)
    (hi : isFresh before.2 i = false) : isFresh after.2 i = false :=
  Bool.eq_false_of_not_eq_true fun hfresh => by
    rw [h.fresh_of i hfresh] at hi
    cases hi

theorem trans (h : Completed g₀ inherited s before middle)
    (h' : Completed g₀ inherited s middle after) : Completed g₀ inherited s before after := by
  -- what is visited is visited in one of the two parts
  have hvisited : ∀ x, g₀.Visited before after x →
      g₀.Visited before middle x ∨ g₀.Visited middle after x := by
    rintro x ⟨hx, hbefore, hafter⟩
    cases hmiddle : isFresh middle.2 (g₀.sym x).number with
    | false => exact .inl ⟨hx, hbefore, hmiddle⟩
    | true => exact .inr ⟨hx, hmiddle, hafter⟩
  refine ⟨h.same.trans h'.same, fun x n hn => h'.follow_mono x n (h.follow_mono x n hn),
    fun bound hheir hbound => h'.follow_bound bound hheir (h.follow_bound bound hheir hbound),
    fun i hi => h.fresh_of i (h'.fresh_of i hi), Nat.le_trans h'.count_le h.count_le, ?_, ?_⟩
  · intro x hx y hy
    rcases hvisited x hx with hx | hx
    · exact h'.not_fresh_mono (h.closed x hx y hy)
    · exact h'.closed x hx y hy
  · intro x hx n hn
    rcases hvisited x hx with hx | hx
    · exact h'.follow_mono s n (h.gathers x hx n hn)
    · exact h'.gathers x hx n (h.follow_mono x n hn)

end Completed

theorem inheritFrom_sameFirsts : g.SameFirsts (g.inheritFrom cur s i t) :=
  .modifySym fun _ => ⟨rfl, rfl⟩

theorem mem_follow_inheritFrom (hs : s < g.symbols.size) :
    n ∈ ((g.inheritFrom cur s i t).sym x).follow ↔
      n ∈ (g.sym x).follow ∨ x = s ∧ n ∈ (g.sym t).follow := by
  simp only [inheritFrom, sym_modifySym]
  by_cases hx : x = s
  · simp [hx, hs]
  · simp [hx]

theorem mem_inherits_inheritFrom {j : Nat} (hs : s < g.symbols.size) :
    j ∈ ((g.inheritFrom cur s i t).sym x).inherits ↔
      j ∈ (g.sym x).inherits ∧ ¬ (x = s ∧ s = cur ∧ j = i) := by
  simp only [inheritFrom, sym_modifySym]
  by_cases hx : x = s
  · by_cases hcur : s = cur
    · subst hcur
      simp [hx, hs]
    · simp [hx, hs, hcur]
  · simp [hx]

/-- After a search on behalf of `t` what follows `t` is added to what follows `s`. -/
theorem Completed.inheritFrom (h : Completed g₀ inherited t before after)
    (hheir : g₀.Heir inherited s t) (hs : s < after.1.symbols.size) :
    Completed g₀ inherited s before (after.1.inheritFrom cur s i t, after.2) := by
  refine ⟨h.same.trans inheritFrom_sameFirsts, fun x n hn => ?_, fun bound hclosed hbound x n hn => ?_,
    h.fresh_of, h.count_le, h.closed, fun x hx n hn => ?_⟩
  · exact (mem_follow_inheritFrom hs).2 (.inl (h.follow_mono x n hn))
  · have hafter := h.follow_bound bound hclosed hbound
    rcases (mem_follow_inheritFrom hs).1 hn with hx | ⟨rfl, ht⟩
    · exact hafter x n hx
    · exact hclosed x t hheir n (hafter t n ht)
  · exact (mem_follow_inheritFrom hs).2 (.inr ⟨rfl, h.gathers x hx n hn⟩)

/-! ## The loop of a search -/

/-- One round of the loop: the nonterminal with the number `i`, if `s` inherits from it. -/
def completeStep (nts : Array SymbolId) (cur : SymbolId) (fuel : Nat) (s : SymbolId)
    (state : Grammar × Array Bool) (i : Nat) : Grammar × Array Bool :=
  if (state.1.sym s).inherits.contains i then
    ((complete nts cur fuel (nts.getD i 0) state).1.inheritFrom cur s i (nts.getD i 0),
      (complete nts cur fuel (nts.getD i 0) state).2)
  else state

theorem complete_succ {nts : Array SymbolId} {fuel : Nat} :
    complete nts cur (fuel + 1) s (g, fresh) =
      if isFresh fresh (g.sym s).number then
        (List.range nts.size).foldl (completeStep nts cur fuel s) (g, visit fresh (g.sym s).number)
      else (g, fresh) :=
  rfl

/-- What holds of a state of the search: it differs from the beginning in follow sets, and the
nonterminal `cur`, which was visited first, may inherit less. -/
structure Searching (g₀ : Grammar) (inherited : SymbolId → BitSet) (cur : SymbolId) (fuel : Nat)
    (state : Grammar × Array Bool) : Prop where
  same : g₀.SameFirsts state.1
  inherits_eq : ∀ x, x ≠ cur → (state.1.sym x).inherits = inherited x
  not_fresh : isFresh state.2 (g₀.sym cur).number = false
  count_le : state.2.count true ≤ fuel

/-- What is claimed of a search with a bound: it does its work, visits its root, and changes no
inheritance. -/
def SearchSpec (g₀ : Grammar) (inherited : SymbolId → BitSet) (cur : SymbolId) (fuel : Nat) : Prop :=
  ∀ s ∈ g₀.nonterminals, ∀ before, Searching g₀ inherited cur fuel before →
    ∀ after, complete g₀.nonterminals.toArray cur fuel s before = after →
      Completed g₀ inherited s before after ∧ isFresh after.2 (g₀.sym s).number = false ∧
        ∀ x, (after.1.sym x).inherits = (before.1.sym x).inherits

section Loop

variable {fuel : Nat} (hspec : SearchSpec g₀ inherited cur fuel) (hs : s ∈ g₀.nonterminals)
include hspec hs

theorem completed_completeStep (hi : i < g₀.nonterminals.length)
    (hsearch : Searching g₀ inherited cur fuel before)
    (hinh : i ∈ (before.1.sym s).inherits ↔ i ∈ inherited s)
    (hafter : completeStep g₀.nonterminals.toArray cur fuel s before i = after) :
    Completed g₀ inherited s before after ∧
      (i ∈ inherited s → ∀ t, g₀.nonterminals[i]? = some t →
        isFresh after.2 (g₀.sym t).number = false) ∧
      ∀ x j, j ∈ (after.1.sym x).inherits ↔
        j ∈ (before.1.sym x).inherits ∧ ¬ (x = s ∧ s = cur ∧ j = i) := by
  have hget : g₀.nonterminals.toArray.getD i 0 = g₀.nonterminals[i] := by simp [hi]
  have hmem : g₀.nonterminals[i] ∈ g₀.nonterminals := List.getElem_mem hi
  have hsome : g₀.nonterminals[i]? = some g₀.nonterminals[i] := List.getElem?_eq_getElem hi
  generalize g₀.nonterminals[i] = t at hget hmem hsome
  rw [completeStep, hget] at hafter
  by_cases hcontains : i ∈ (before.1.sym s).inherits
  · rw [if_pos (BitSet.contains_iff.2 hcontains)] at hafter
    obtain ⟨hcomplete, hvisited, hinherits⟩ := hspec t hmem before hsearch _ rfl
    have hlt : s < (complete g₀.nonterminals.toArray cur fuel t before).1.symbols.size := by
      rw [hcomplete.same.symbols_size_eq, hsearch.same.symbols_size_eq]
      exact (mem_nonterminals.1 hs).1
    subst hafter
    refine ⟨hcomplete.inheritFrom ⟨i, hinh.1 hcontains, hsome⟩ hlt, fun _ t' ht' => ?_,
      fun x j => ?_⟩
    · obtain rfl := Option.some.inj (hsome.symm.trans ht')
      exact hvisited
    · rw [mem_inherits_inheritFrom hlt, hinherits]
  · rw [if_neg fun h => hcontains (BitSet.contains_iff.1 h)] at hafter
    subst hafter
    refine ⟨.refl _, fun hmem => absurd (hinh.2 hmem) hcontains, fun x j => ?_⟩
    refine (and_iff_left_of_imp fun hj => ?_).symm
    rintro ⟨rfl, -, rfl⟩
    exact hcontains hj

theorem completed_loop (hnodup : is.Nodup) (hlt : ∀ i ∈ is, i < g₀.nonterminals.length)
    (hsearch : Searching g₀ inherited cur fuel before)
    (hinh : ∀ i ∈ is, i ∈ (before.1.sym s).inherits ↔ i ∈ inherited s)
    (hafter : is.foldl (completeStep g₀.nonterminals.toArray cur fuel s) before = after) :
    Completed g₀ inherited s before after ∧
      (∀ i ∈ is, i ∈ inherited s → ∀ t, g₀.nonterminals[i]? = some t →
        isFresh after.2 (g₀.sym t).number = false) ∧
      ∀ x j, j ∈ (after.1.sym x).inherits ↔
        j ∈ (before.1.sym x).inherits ∧ ¬ (x = s ∧ s = cur ∧ j ∈ is) := by
  induction is generalizing before with
  | nil =>
    subst hafter
    exact ⟨.refl _, by simp, by simp⟩
  | cons i is ih =>
    obtain ⟨hi, hlt⟩ := List.forall_mem_cons.1 hlt
    obtain ⟨hinh_i, hinh⟩ := List.forall_mem_cons.1 hinh
    obtain ⟨hnot, hnodup⟩ := List.nodup_cons.1 hnodup
    obtain ⟨hstep, hvisited, hinherits⟩ := completed_completeStep hspec hs hi hsearch hinh_i rfl
    generalize hmiddle : completeStep g₀.nonterminals.toArray cur fuel s before i = middle at *
    have hsearch' : Searching g₀ inherited cur fuel middle := by
      refine ⟨hsearch.same.trans hstep.same, fun x hx => ?_, hstep.not_fresh_mono hsearch.not_fresh,
        Nat.le_trans hstep.count_le hsearch.count_le⟩
      rw [← hsearch.inherits_eq x hx]
      refine BitSet.ext_mem fun j => ?_
      rw [hinherits]
      exact and_iff_left fun ⟨hxs, hcur, _⟩ => hx (hxs.trans hcur)
    have hinh' : ∀ j ∈ is, j ∈ (middle.1.sym s).inherits ↔ j ∈ inherited s := by
      intro j hj
      rw [hinherits, ← hinh j hj]
      refine and_iff_left fun ⟨_, _, hji⟩ => hnot ?_
      exact hji ▸ hj
    rw [List.foldl_cons, hmiddle] at hafter
    obtain ⟨hrest, hvisited', hinherits'⟩ := ih hnodup hlt hsearch' hinh' hafter
    refine ⟨hstep.trans hrest, List.forall_mem_cons.2 ⟨fun hmem t ht => ?_, hvisited'⟩, fun x j => ?_⟩
    · exact hrest.not_fresh_mono (hvisited hmem t ht)
    · rw [hinherits', hinherits, List.mem_cons, and_assoc, ← not_or, ← and_or_left, ← and_or_left]

end Loop

/-- The search marks its root before it goes on to what the root inherits from. -/
theorem Completed.of_visit (hnum : g₀.Numbered) (hs : s ∈ g₀.nonterminals)
    (hfresh : isFresh fresh (g₀.sym s).number = true)
    (h : Completed g₀ inherited s (g, visit fresh (g₀.sym s).number) after)
    (hheirs : ∀ t, g₀.Heir inherited s t → isFresh after.2 (g₀.sym t).number = false) :
    Completed g₀ inherited s (g, fresh) after := by
  -- what is visited is the root or visited afterwards
  have hvisited : ∀ x, g₀.Visited (g, fresh) after x →
      x = s ∨ g₀.Visited (g, visit fresh (g₀.sym s).number) after x := by
    rintro x ⟨hx, hbefore, hafter⟩
    by_cases hxs : (g₀.sym x).number = (g₀.sym s).number
    · exact .inl (hnum.eq_of_number hx hs hxs)
    · exact .inr ⟨hx, isFresh_visit.2 ⟨hbefore, hxs⟩, hafter⟩
  refine ⟨h.same, h.follow_mono, h.follow_bound, fun i hi => (isFresh_visit.1 (h.fresh_of i hi)).1,
    Nat.le_trans h.count_le (Nat.le_of_lt (count_visit_lt hfresh)), fun x hx y hy => ?_,
    fun x hx n hn => ?_⟩
  · rcases hvisited x hx with rfl | hx
    · exact hheirs y hy
    · exact h.closed x hx y hy
  · rcases hvisited x hx with rfl | hx
    · exact h.follow_mono x n hn
    · exact h.gathers x hx n hn

theorem isFresh_visit_self {i : Nat} : isFresh (visit fresh i) i = false :=
  Bool.eq_false_of_not_eq_true fun h => (isFresh_visit.1 h).2 rfl

/-- A search whose root is not visited yet. -/
theorem completed_root {fuel : Nat} (hspec : SearchSpec g₀ inherited cur fuel) (hnum : g₀.Numbered)
    (hs : s ∈ g₀.nonterminals) (hfresh : isFresh fresh (g₀.sym s).number = true)
    (hsearch : Searching g₀ inherited cur fuel (g, visit fresh (g₀.sym s).number))
    (hinh : ∀ i, i ∈ (g.sym s).inherits ↔ i ∈ inherited s)
    (hafter : complete g₀.nonterminals.toArray cur (fuel + 1) s (g, fresh) = after) :
    Completed g₀ inherited s (g, fresh) after ∧ isFresh after.2 (g₀.sym s).number = false ∧
      ∀ x j, j ∈ (after.1.sym x).inherits ↔
        j ∈ (g.sym x).inherits ∧ ¬ (x = s ∧ s = cur ∧ j < g₀.nonterminals.length) := by
  have hnumber : (g.sym s).number = (g₀.sym s).number := hsearch.same.number_eq s
  rw [complete_succ, hnumber, if_pos hfresh, List.size_toArray] at hafter
  obtain ⟨hloop, hheirs, hinherits⟩ := completed_loop hspec hs List.nodup_range
    (fun i hi => List.mem_range.1 hi) hsearch (fun i _ => hinh i) hafter
  refine ⟨hloop.of_visit hnum hs hfresh ?_, hloop.not_fresh_mono isFresh_visit_self, ?_⟩
  · rintro t ⟨i, hi, ht⟩
    exact hheirs i (List.mem_range.2 (List.getElem?_eq_some_iff.1 ht).1) hi t ht
  · simpa only [List.mem_range] using hinherits

/-- A search within a run for `cur`, which is visited already. -/
theorem completed_complete (hnum : g₀.Numbered) (fuel : Nat) :
    SearchSpec g₀ inherited cur fuel := by
  induction fuel with
  | zero =>
    rintro s _ before hsearch _ rfl
    refine ⟨.refl _, Bool.eq_false_of_not_eq_true fun hfresh => ?_, fun _ => rfl⟩
    exact absurd (count_visit_lt hfresh) (Nat.not_lt.2 (Nat.le_trans hsearch.count_le (Nat.zero_le _)))
  | succ fuel ih =>
    rintro s hs ⟨g, fresh⟩ hsearch after hafter
    by_cases hfresh : isFresh fresh (g₀.sym s).number = true
    · have hne : s ≠ cur := by
        rintro rfl
        exact absurd (hfresh.symm.trans hsearch.not_fresh) nofun
      have hcount := count_visit_lt hfresh
      have hbound := hsearch.count_le
      have hsearch' : Searching g₀ inherited cur fuel (g, visit fresh (g₀.sym s).number) := by
        refine ⟨hsearch.same, hsearch.inherits_eq, Bool.eq_false_of_not_eq_true fun h => ?_, ?_⟩
        · exact absurd ((isFresh_visit.1 h).1.symm.trans hsearch.not_fresh) nofun
        · exact Nat.le_of_lt_succ (Nat.lt_of_lt_of_le hcount hbound)
      obtain ⟨hroot, hvisited, hinherits⟩ := completed_root ih hnum hs hfresh hsearch'
        (fun i => by rw [hsearch'.inherits_eq s hne]) hafter
      refine ⟨hroot, hvisited, fun x => BitSet.ext_mem fun j => ?_⟩
      rw [hinherits]
      exact and_iff_left fun ⟨_, hcur, _⟩ => hne hcur
    · have hnumber : (g.sym s).number = (g₀.sym s).number := hsearch.same.number_eq s
      rw [complete_succ, hnumber, if_neg hfresh] at hafter
      subst hafter
      exact ⟨.refl _, Bool.eq_false_of_not_eq_true hfresh, fun _ => rfl⟩

/-! ## A run for each nonterminal -/

/-- Completes the follow set of `cur`, with the nonterminals of `g₀`. -/
def completeRun (g₀ : Grammar) (g : Grammar) (cur : SymbolId) : Grammar :=
  (complete g₀.nonterminals.toArray cur g₀.nonterminals.length cur
    (g, allFresh g₀.nonterminals.length)).1

/-- What a run for `cur` does.  In the end `cur` has what follows any visited nonterminal, and it
inherits from no nonterminal any more. -/
theorem exists_completed_run (hnum : g₀.Numbered) (hcur : cur ∈ g₀.nonterminals)
    (hsame : g₀.SameFirsts g) : ∃ fresh,
      Completed g₀ (fun x => (g.sym x).inherits) cur (g, allFresh g₀.nonterminals.length)
        (g₀.completeRun g cur, fresh) ∧
      isFresh fresh (g₀.sym cur).number = false ∧
      ∀ x j, j ∈ ((g₀.completeRun g cur).sym x).inherits ↔
        j ∈ (g.sym x).inherits ∧ ¬ (x = cur ∧ j < g₀.nonterminals.length) := by
  have hlt := hnum.lt_length hcur
  have hfresh : isFresh (allFresh g₀.nonterminals.length) (g₀.sym cur).number = true :=
    isFresh_allFresh.2 hlt
  obtain ⟨fuel, hfuel⟩ := Nat.exists_eq_add_of_lt hlt
  have hsearch : Searching g₀ (fun x => (g.sym x).inherits) cur ((g₀.sym cur).number + fuel)
      (g, visit (allFresh g₀.nonterminals.length) (g₀.sym cur).number) := by
    refine ⟨hsame, fun _ _ => rfl, isFresh_visit_self, ?_⟩
    have hcount := count_visit_lt hfresh
    have hall : (allFresh g₀.nonterminals.length).count true = g₀.nonterminals.length := by
      simp [allFresh]
    rw [hall] at hcount
    exact Nat.le_of_lt_succ (Nat.lt_of_lt_of_eq hcount hfuel)
  obtain ⟨hroot, hvisited, hinherits⟩ := completed_root (completed_complete hnum _) hnum hcur hfresh
    hsearch (fun _ => Iff.rfl) rfl
  rw [← hfuel] at hroot hvisited hinherits
  simp only [true_and] at hinherits
  exact ⟨_, hroot, hvisited, hinherits⟩

/-- By inheritance, directly or not, `n` follows `x`. -/
def Inherited (g₀ : Grammar) (x : SymbolId) (n : Nat) : Prop :=
  ∃ y, Relation.ReflTransGen (g₀.Heir fun x => (g₀.sym x).inherits) x y ∧ n ∈ (g₀.sym y).follow

/-- What holds after the runs for the nonterminals in `done`. -/
structure Progress (g₀ : Grammar) (done : List SymbolId) (g : Grammar) : Prop where
  same : g₀.SameFirsts g
  lower : ∀ x n, n ∈ (g₀.sym x).follow → n ∈ (g.sym x).follow
  upper : ∀ x n, n ∈ (g.sym x).follow → g₀.Inherited x n
  full : ∀ x ∈ done, ∀ n, g₀.Inherited x n → n ∈ (g.sym x).follow
  settled : ∀ x ∈ done, ∀ i, i ∉ (g.sym x).inherits
  pending : ∀ x, x ∉ done → (g.sym x).inherits = (g₀.sym x).inherits

namespace Progress

variable {done : List SymbolId}

theorem start (g₀ : Grammar) : g₀.Progress [] g₀ where
  same := .refl g₀
  lower _ _ hn := hn
  upper x n hn := ⟨x, .refl, hn⟩
  full := by simp
  settled := by simp
  pending _ _ := rfl

/-- What is inherited now was inherited in the beginning. -/
theorem heir_of (h : g₀.Progress done g) (hheir : g₀.Heir (fun x => (g.sym x).inherits) x t) :
    g₀.Heir (fun x => (g₀.sym x).inherits) x t := by
  obtain ⟨i, hi, ht⟩ := hheir
  by_cases hx : x ∈ done
  · exact absurd hi (h.settled x hx i)
  · simp only [h.pending x hx] at hi
    exact ⟨i, hi, ht⟩

/-- A path from the root of a run stays among what is visited, or leaves it behind a nonterminal
completed before. -/
theorem visited_or_done {y : SymbolId} (h : g₀.Progress done g) (hnum : g₀.Numbered)
    (hrun : Completed g₀ (fun x => (g.sym x).inherits) cur (g, allFresh g₀.nonterminals.length) after)
    (hroot : g₀.Visited (g, allFresh g₀.nonterminals.length) after cur)
    (hpath : Relation.ReflTransGen (g₀.Heir fun x => (g₀.sym x).inherits) cur y) :
    ∃ z, g₀.Visited (g, allFresh g₀.nonterminals.length) after z ∧
      (z = y ∨ z ∈ done ∧ Relation.ReflTransGen (g₀.Heir fun x => (g₀.sym x).inherits) z y) := by
  induction hpath with
  | refl => exact ⟨cur, hroot, .inl rfl⟩
  | @tail y w _ hstep ih =>
    obtain ⟨z, hz, rfl | ⟨hdone, hzy⟩⟩ := ih
    · by_cases hdone : z ∈ done
      · exact ⟨z, hz, .inr ⟨hdone, .single hstep⟩⟩
      · obtain ⟨i, hi, hw⟩ := hstep
        have hmem : w ∈ g₀.nonterminals := List.mem_of_getElem? hw
        simp only [← h.pending z hdone] at hi
        exact ⟨w, ⟨hmem, isFresh_allFresh.2 (hnum.lt_length hmem), hrun.closed z hz w ⟨i, hi, hw⟩⟩,
          .inl rfl⟩
    · exact ⟨z, hz, .inr ⟨hdone, hzy.tail hstep⟩⟩

theorem completeRun (h : g₀.Progress done g) (hnum : g₀.Numbered) (hcur : cur ∈ g₀.nonterminals)
    (hbits : ∀ i ∈ (g₀.sym cur).inherits, i < g₀.nonterminals.length) :
    g₀.Progress (cur :: done) (g₀.completeRun g cur) := by
  obtain ⟨fresh, hrun, hvisited, hinherits⟩ := exists_completed_run hnum hcur h.same
  generalize g₀.completeRun g cur = g' at hrun hinherits
  have hmono : ∀ x n, n ∈ (g.sym x).follow → n ∈ (g'.sym x).follow := hrun.follow_mono
  have hbit : ∀ i, i ∉ (g'.sym cur).inherits := by
    intro i hi
    obtain ⟨hi, hnot⟩ := (hinherits cur i).1 hi
    by_cases hdone : cur ∈ done
    · exact h.settled cur hdone i hi
    · exact hnot ⟨rfl, hbits i (h.pending cur hdone ▸ hi)⟩
  have hsame : ∀ x, x ≠ cur → (g'.sym x).inherits = (g.sym x).inherits := fun x hx =>
    BitSet.ext_mem fun i => (hinherits x i).trans (and_iff_left fun hand => hx hand.1)
  refine ⟨h.same.trans hrun.same, fun x n hn => hmono x n (h.lower x n hn), ?_, ?_, ?_, ?_⟩
  · refine hrun.follow_bound g₀.Inherited ?_ h.upper
    rintro x y hxy n ⟨z, hyz, hn⟩
    exact ⟨z, hyz.head (h.heir_of hxy), hn⟩
  · refine List.forall_mem_cons.2 ⟨?_, fun x hx n hn => hmono x n (h.full x hx n hn)⟩
    rintro n ⟨y, hpath, hn⟩
    have hroot : g₀.Visited (g, allFresh g₀.nonterminals.length) (g', fresh) cur :=
      ⟨hcur, isFresh_allFresh.2 (hnum.lt_length hcur), hvisited⟩
    obtain ⟨z, hz, rfl | ⟨hdone, hzy⟩⟩ := h.visited_or_done hnum hrun hroot hpath
    · exact hrun.gathers z hz n (h.lower z n hn)
    · exact hrun.gathers z hz n (h.full z hdone n ⟨y, hzy, hn⟩)
  · exact List.forall_mem_cons.2 ⟨hbit, fun x hx i hi => h.settled x hx i ((hinherits x i).1 hi).1⟩
  · intro x hx
    rw [List.mem_cons, not_or] at hx
    rw [hsame x hx.1, h.pending x hx.2]

theorem completeAll (ss : List SymbolId) (h : g₀.Progress done g) (hnum : g₀.Numbered)
    (hss : ∀ s ∈ ss, s ∈ g₀.nonterminals ∧
      ∀ i ∈ (g₀.sym s).inherits, i < g₀.nonterminals.length) :
    ∃ done', (∀ s ∈ ss, s ∈ done') ∧ (∀ s ∈ done, s ∈ done') ∧
      g₀.Progress done' (ss.foldl g₀.completeRun g) := by
  induction ss generalizing g done with
  | nil => exact ⟨done, by simp, fun _ hs => hs, h⟩
  | cons s ss ih =>
    obtain ⟨hs, hss⟩ := List.forall_mem_cons.1 hss
    obtain ⟨done', hmem, hdone, hprogress⟩ := ih (h.completeRun hnum hs.1 hs.2) hss
    obtain ⟨hs', hdone⟩ := List.forall_mem_cons.1 hdone
    exact ⟨done', List.forall_mem_cons.2 ⟨hs', hmem⟩, hdone, hprogress⟩

end Progress

/-- After all runs a nonterminal has what follows any nonterminal from which it inherits, and
inheritance is settled. -/
theorem mem_follow_completeAll (hnum : g.Numbered) (hbits : ∀ s ∈ g.nonterminals,
      ∀ i ∈ (g.sym s).inherits, i < g.nonterminals.length) (hs : s ∈ g.nonterminals) :
    (∀ n, n ∈ ((g.nonterminals.foldl g.completeRun g).sym s).follow ↔ g.Inherited s n) ∧
      ((g.nonterminals.foldl g.completeRun g).sym s).inherits = ∅ := by
  obtain ⟨done, hmem, -, hprogress⟩ :=
    (Progress.start g).completeAll g.nonterminals hnum fun s hs => ⟨hs, hbits s hs⟩
  refine ⟨fun n => ⟨hprogress.upper s n, hprogress.full s (hmem s hs) n⟩, BitSet.ext_mem fun i => ?_⟩
  exact iff_of_false (hprogress.settled s (hmem s hs) i) (BitSet.not_mem_empty i)

theorem completeAll_sameFirsts (hnum : g.Numbered) (hbits : ∀ s ∈ g.nonterminals,
      ∀ i ∈ (g.sym s).inherits, i < g.nonterminals.length) :
    g.SameFirsts (g.nonterminals.foldl g.completeRun g) := by
  obtain ⟨_, -, -, hprogress⟩ :=
    (Progress.start g).completeAll g.nonterminals hnum fun s hs => ⟨hs, hbits s hs⟩
  exact hprogress.same

end Grammar

end Ebnf
