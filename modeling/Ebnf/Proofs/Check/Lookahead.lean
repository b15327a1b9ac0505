import Ebnf.Check
import Ebnf.Proofs.Phrase.Deletable

/-!
# What no conflict means

The search for look-ahead conflicts goes over the outline of a production.  If it
finds none, then at every choice within the phrase of the production the next
terminal decides: the arms of an alternative begin with different terminals, and
what an option or iteration begins with does not follow it.

Main results:

- Theorem `Grammar.decided_of_conflicts`: a phrase without conflicts is decided.
- Theorem `Grammar.checkAll_eq`: of a usable grammar the checks report all conflicts.
-/

namespace Ebnf

/-- The contents of the arms of an alternative. -/
def Phrase.bodies : Phrase → List Phrase
  | arm _ e => [e]
  | alt _ e r => e :: r.bodies
  | _ => []

/-- Whether a diagnostic is about a look-ahead conflict. -/
def Diagnostic.isConflict (d : Diagnostic) : Bool :=
  match d.cause with
  | .conflict _ _ => true
  | _ => false

namespace Grammar

variable {g : Grammar} {e r : Phrase} {k : Option NodeId} {up : Bool} {cur : SymbolId} {p : NodeId}
  {line : Nat} {taken : BitSet}

/-- In the production of `cur`, what a phrase begins with is not expected at another place. -/
def Apart (g : Grammar) (cur : SymbolId) (e : Phrase) (k : Option NodeId) : Prop :=
  ∀ n ∈ g.expected (some e.entry) cur, n ∉ g.expected k cur

/-- In the production of `cur`, the next terminal decides every choice within a phrase that is
followed by `k`. -/
def Decided (g : Grammar) (cur : SymbolId) : Phrase → Option NodeId → Prop
  | .leaf _, _ => True
  | .seq a b, k => g.Decided cur a (some b.entry) ∧ g.Decided cur b k
  | .arm _ e, k => g.Decided cur e k
  | .alt _ e r, k => (∀ f ∈ r.bodies, g.Apart cur e (some f.entry)) ∧ g.Decided cur e k ∧
      g.Decided cur r k
  | .opt _ e, k => g.Apart cur e k ∧ g.Decided cur e k
  | .iter p e, k => g.Apart cur e k ∧ g.Decided cur e (some p)

/-! ## Conflicts -/

theorem overlapOn_eq_nil {what : String → Conflict} {s t : BitSet} :
    g.overlapOn cur line what s t = [] ↔ ∀ n ∈ s, n ∉ t := by
  unfold overlapOn
  rw [List.map_eq_nil_iff, List.eq_nil_iff_forall_not_mem]
  simp only [BitSet.mem_toList, BitSet.mem_inter, not_and]

theorem selecting_eq (hkind : (g.node p).kind ≠ .resolver) :
    g.selecting (some p) cur = g.expected (some p) cur := by
  have hres : g.beginsWithResolver (some p) = false := by
    simpa [beginsWithResolver] using hkind
  rw [selecting, hres]
  rfl

/-- An option or iteration without conflicts begins with nothing that may follow it. -/
theorem Holds.apart {kind : NodeKind} {down : Option NodeId} {body : Outline}
    (h : g.Holds p kind (some e.entry) down k up) (hres : (g.node e.entry).kind ≠ .resolver)
    (hquiet : g.groupConflicts cur p body = []) : g.Apart cur e k := by
  unfold groupConflicts at hquiet
  split at hquiet
  · cases hquiet
  · rwa [overlapOn_eq_nil, h.sub_eq, h.next_eq, selecting_eq hres] at hquiet

/-- A phrase without conflicts is decided, and there are none behind it.  An alternative is gone
through in two ways, as a part of a chain and as the further arms of another one. -/
theorem decided_of_conflicts {rest : Outline} (hshows : g.Shows e k up)
    (hres : ∀ p ∈ e.nodes, (g.node p).kind ≠ .resolver) :
    (g.conflicts cur (e.outline rest) = [] → g.Decided cur e k ∧ g.conflicts cur rest = []) ∧
    (e.isArms = true → ∀ line taken, g.armConflicts cur line taken (e.outline rest) = [] →
      g.Decided cur e k ∧ ∀ f ∈ e.bodies, ∀ n ∈ taken, n ∉ g.expected (some f.entry) cur) := by
  induction e generalizing k up rest with
  | leaf p =>
    refine ⟨fun hquiet => ?_, fun harms => by cases harms⟩
    rw [Phrase.outline, conflicts, List.append_eq_nil_iff] at hquiet
    exact ⟨trivial, hquiet.2⟩
  | seq a b iha ihb =>
    refine ⟨fun hquiet => ?_, fun harms => by cases harms⟩
    obtain ⟨hresa, hresb⟩ := List.forall_mem_append.1 hres
    obtain ⟨ha, hquiet⟩ := (iha hshows.1 hresa).1 hquiet
    obtain ⟨hb, hquiet⟩ := (ihb hshows.2 hresb).1 hquiet
    exact ⟨⟨ha, hb⟩, hquiet⟩
  | arm p e ih =>
    obtain ⟨_, hrese⟩ := List.forall_mem_cons.1 hres
    have hselect := @selecting_eq g cur _ (hrese _ e.entry_mem_nodes)
    constructor
    · intro hquiet
      simp only [Phrase.outline, conflicts, List.append_eq_nil_iff] at hquiet
      exact ⟨((ih hshows.2 hrese).1 hquiet.1.1).1, hquiet.2⟩
    · intro _ line taken hquiet
      simp only [Phrase.outline, armConflicts, List.append_eq_nil_iff, hshows.1.sub_eq, hselect,
        overlapOn_eq_nil] at hquiet
      refine ⟨((ih hshows.2 hrese).1 hquiet.1.2).1, fun f hf => ?_⟩
      rw [List.mem_singleton.1 hf]
      exact hquiet.1.1
  | alt p e r ihe ihr =>
    obtain ⟨_, hreser⟩ := List.forall_mem_cons.1 hres
    obtain ⟨hrese, hresr⟩ := List.forall_mem_append.1 hreser
    obtain ⟨hr, hp, he, hmore⟩ := hshows
    have harms := (@ihr k true .done hmore hresr).2 hr
    have hselect := @selecting_eq g cur _ (hrese _ e.entry_mem_nodes)
    constructor
    · intro hquiet
      simp only [Phrase.outline, conflicts, List.append_eq_nil_iff, hp.sub_eq, hselect] at hquiet
      obtain ⟨hrest, hapart⟩ := harms _ _ hquiet.1.2
      exact ⟨⟨hapart, ((ihe he hrese).1 hquiet.1.1).1, hrest⟩, hquiet.2⟩
    · intro _ line taken hquiet
      simp only [Phrase.outline, armConflicts, List.append_eq_nil_iff, hp.sub_eq, hselect,
        overlapOn_eq_nil] at hquiet
      obtain ⟨hrest, hapart⟩ := harms _ _ hquiet.2
      refine ⟨⟨fun f hf n hn => hapart f hf n (BitSet.mem_union.2 (.inr hn)),
        ((ihe he hrese).1 hquiet.1.2).1, hrest⟩, fun f hf => ?_⟩
      rcases List.mem_cons.1 hf with rfl | hf
      · exact hquiet.1.1
      · exact fun n hn => hapart f hf n (BitSet.mem_union.2 (.inl hn))
  | opt p e ih | iter p e ih =>
    refine ⟨fun hquiet => ?_, fun harms => by cases harms⟩
    obtain ⟨_, hrese⟩ := List.forall_mem_cons.1 hres
    simp only [Phrase.outline, conflicts, List.append_eq_nil_iff] at hquiet
    have hapart := hshows.1.apart (hrese _ e.entry_mem_nodes) hquiet.1.1
    exact ⟨⟨hapart, ((ih hshows.2 hrese).1 hquiet.1.2).1⟩, hquiet.2⟩

/-! ## The checks -/

theorem exists_of_mem_overlapOn {what : String → Conflict} {s t : BitSet} {d : Diagnostic}
    (hd : d ∈ g.overlapOn cur line what s t) : ∃ line what, d = g.conflictOn cur line what := by
  obtain ⟨n, _, rfl⟩ := List.mem_map.1 hd
  exact ⟨_, _, rfl⟩

theorem exists_of_mem_groupConflicts {body : Outline} {d : Diagnostic}
    (hd : d ∈ g.groupConflicts cur p body) : ∃ line what, d = g.conflictOn cur line what := by
  unfold groupConflicts at hd
  split at hd
  · exact ⟨_, _, List.mem_singleton.1 hd⟩
  · exact exists_of_mem_overlapOn hd

/-- All that the search finds is about the production that it goes over. -/
theorem exists_of_mem_conflicts (o : Outline) :
    (∀ d ∈ g.conflicts cur o, ∃ line what, d = g.conflictOn cur line what) ∧
      ∀ line taken, ∀ d ∈ g.armConflicts cur line taken o,
        ∃ line what, d = g.conflictOn cur line what := by
  induction o with
  | done => simp [conflicts, armConflicts]
  | leaf p next ih =>
    refine ⟨fun d hd => ?_, by simp [armConflicts]⟩
    rw [conflicts] at hd
    rcases List.mem_append.1 hd with hd | hd
    · split at hd
      · exact ⟨_, _, List.mem_singleton.1 hd⟩
      · cases hd
    · exact (ih ()).1 d hd
  | group p body next ihb ihn =>
    refine ⟨fun d hd => ?_, by simp [armConflicts]⟩
    simp only [conflicts, List.mem_append] at hd
    rcases hd with (hd | hd) | hd
    · exact exists_of_mem_groupConflicts hd
    · exact (ihb ()).1 d hd
    · exact (ihn ()).1 d hd
  | arm p body down next ihb ihd ihn =>
    constructor
    · intro d hd
      simp only [conflicts, List.mem_append] at hd
      rcases hd with (hd | hd) | hd
      · exact (ihb ()).1 d hd
      · exact (ihd ()).2 _ _ d hd
      · exact (ihn ()).1 d hd
    · intro line taken d hd
      simp only [armConflicts, List.mem_append] at hd
      rcases hd with (hd | hd) | hd
      · exact exists_of_mem_overlapOn hd
      · exact (ihb ()).1 d hd
      · exact (ihd ()).2 _ _ d hd

theorem exists_of_mem_lookaheadConflicts {d : Diagnostic} (hd : d ∈ g.lookaheadConflicts) :
    ∃ cur line what, d = g.conflictOn cur line what := by
  obtain ⟨s, _, hd⟩ := List.mem_flatMap.1 hd
  exact ⟨s, (exists_of_mem_conflicts _).1 d hd⟩

theorem isConflict_of_mem_lookaheadConflicts {d : Diagnostic} (hd : d ∈ g.lookaheadConflicts) :
    d.isConflict = true := by
  obtain ⟨cur, line, what, rfl⟩ := exists_of_mem_lookaheadConflicts hd
  rfl

/-- Of a usable grammar the checks report all conflicts, after other diagnostics. -/
theorem checkAll_eq (hok : g.checkAll.1 = true) : ∃ ds,
    g.checkAll.2 = g.reportAll (ds ++ (g.reportAll ds).lookaheadConflicts) := by
  unfold checkAll at hok ⊢
  simp only [runCheck, reportAll_reportAll] at hok ⊢
  split at hok
  · next hall =>
    rw [if_pos hall]
    exact ⟨_, by rw [List.append_assoc]⟩
  · next hall => exact absurd hok hall

/-- If the checks of a usable grammar add no conflict, there is none. -/
theorem lookaheadConflicts_eq_nil (hok : g.checkAll.1 = true)
    (hquiet : g.checkAll.2.diags.countP Diagnostic.isConflict =
      g.diags.countP Diagnostic.isConflict) :
    ∃ ds, (g.reportAll ds).lookaheadConflicts = [] := by
  obtain ⟨ds, heq⟩ := checkAll_eq hok
  refine ⟨ds, List.eq_nil_iff_forall_not_mem.2 fun d hd => ?_⟩
  have hpos : 0 < (g.reportAll ds).lookaheadConflicts.countP Diagnostic.isConflict :=
    List.countP_pos_iff.2 ⟨d, hd, isConflict_of_mem_lookaheadConflicts hd⟩
  rw [heq] at hquiet
  simp only [reportAll, List.countP_append] at hquiet hpos
  omega

end Grammar

end Ebnf
