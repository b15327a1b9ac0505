import Ebnf.Proofs.Analysis.Annotation
import Ebnf.Proofs.Check.Lookahead
import Ebnf.Proofs.Phrase.Walk

/-!
# The look-ahead conflicts that are found

The search for conflicts goes over the outline of a production.  The arms of an
alternative are not compared in pairs: each one is compared with what the earlier ones
together begin with.  A terminal that begins several arms is reported for each of them
but the first one, because that is where it gets into the union.

Main results:

- Theorem `Grammar.count_repeated`: how often a terminal is reported while the union
  of the arms grows.
- Theorem `Grammar.Composed.nullable_iff_vanishes`: where the flags are right, a phrase is
  nullable if the empty form can be derived from it.
- Theorem `Grammar.count_conflicts`: what the search finds in a phrase, and then behind it.
- Theorem `Grammar.Composed.conflicts_perm`: what is found in a production are the
  warnings that are due for its alternatives, options, iterations and ANYs.
- Theorem `Grammar.Composed.runCheck_lookaheadConflicts`: after the analyses, the check
  reports these warnings and nothing else.
-/

namespace Ebnf

namespace Phrase

/-- The alternatives of a phrase: the first node of each, and the contents of its arms. -/
def alternatives : Phrase → List (NodeId × List Phrase)
  | leaf _ => []
  | seq a b => a.alternatives ++ b.alternatives
  | arm p e => (p, [e]) :: e.alternatives
  -- the further arms are no alternative of their own
  | alt p e r => (p, e :: r.bodies) :: (e.alternatives ++ r.alternatives.tail)
  | opt _ e | iter _ e => e.alternatives

/-- The options and iterations of a phrase: the node of each, and its contents. -/
def groups : Phrase → List (NodeId × Phrase)
  | leaf _ => []
  | seq a b => a.groups ++ b.groups
  | arm _ e => e.groups
  | alt _ e r => e.groups ++ r.groups
  | opt p e | iter p e => (p, e) :: e.groups

end Phrase

namespace Grammar

variable {g : Grammar} {pool : List Phrase} {e : Phrase} {k : Option NodeId} {up : Bool}
  {cur s : SymbolId} {p : NodeId} {n : Nat} {taken : BitSet} {fs : List Phrase} {d : Diagnostic}

/-! ## Warnings that are due -/

/-- How many of the phrases a terminal selects, in the production of `cur`. -/
def selections (g : Grammar) (cur : SymbolId) (fs : List Phrase) (n : Nat) : Nat :=
  fs.countP fun f => n ∈ g.selecting (some f.entry) cur

/-- The terminals that select any of the phrases. -/
def selectingOne (g : Grammar) (cur : SymbolId) (fs : List Phrase) : BitSet :=
  fs.foldl (fun set f => set.union (g.selecting (some f.entry) cur)) ∅

/-- A warning that a terminal starts several arms of an alternative. -/
def severalArms (g : Grammar) (cur : SymbolId) (line n : Nat) : Diagnostic :=
  g.conflictOn cur line (.alternatives (g.sym (g.terminal n)).name)

/-- The warnings about an alternative with the first node `p`: for each terminal one less than the
arms that it selects. -/
def alternativeWarnings (g : Grammar) (cur : SymbolId) (p : NodeId) (fs : List Phrase) :
    List Diagnostic :=
  (g.selectingOne cur fs).toList.flatMap fun n =>
    List.replicate (g.selections cur fs n - 1) (g.severalArms cur (g.node p).line n)

/-- The empty form can be derived from a phrase. -/
def Vanishes (g : Grammar) (pool : List Phrase) (e : Phrase) : Prop :=
  ∃ ps ∈ e.walks, g.Derives pool (ps.flatMap g.letters) []

open Classical in
/-- The warnings about an option or iteration: one if its contents can be empty, otherwise one for each
terminal that selects the contents and may also follow. -/
noncomputable def groupWarnings (g : Grammar) (pool : List Phrase) (cur : SymbolId) (p : NodeId)
    (e : Phrase) : List Diagnostic :=
  if g.Vanishes pool e then [g.conflictOn cur (g.node p).line .deletableContents]
  else ((g.selecting (some e.entry) cur).inter (g.expected (g.node p).next cur)).toList.map fun n =>
    g.conflictOn cur (g.node p).line (.successor (g.sym (g.terminal n)).name)

/-- The warnings about a node as an ANY: one if it is an ANY whose set is empty. -/
def anyWarnings (g : Grammar) (cur : SymbolId) (p : NodeId) : List Diagnostic :=
  if (g.node p).kind = .any ∧ (g.node p).set.isEmpty then
    [g.conflictOn cur (g.node p).line .emptyAny]
  else []

/-- The warnings about the alternatives, options, iterations and ANYs of the production of `cur`. -/
noncomputable def dueWarnings (g : Grammar) (pool : List Phrase) (cur : SymbolId) (e : Phrase) :
    List Diagnostic :=
  (e.alternatives.flatMap fun a => g.alternativeWarnings cur a.1 a.2) ++
    (e.groups.flatMap fun a => g.groupWarnings pool cur a.1 a.2) ++ e.nodes.flatMap (g.anyWarnings cur)

/-- What is found in a phrase: the warnings about the alternatives `as`, what is found for each option
and iteration by itself, and the warnings about the nodes as ANYs. -/
def found (g : Grammar) (cur : SymbolId) (as : List (NodeId × List Phrase)) (e : Phrase) :
    List Diagnostic :=
  (as.flatMap fun a => g.alternativeWarnings cur a.1 a.2) ++
    (e.groups.flatMap fun a => g.groupConflicts cur a.1 (a.2.outline .done)) ++
    e.nodes.flatMap (g.anyWarnings cur)

theorem mem_selectingOne : n ∈ g.selectingOne cur fs ↔ 0 < g.selections cur fs n := by
  simp [selectingOne, selections, BitSet.mem_foldl_union, List.countP_pos_iff]

/-! ## Counting terminals -/

/-- The terminals that are reported while the arms are gone through; `taken` selects an earlier one. -/
def repeated (g : Grammar) (cur : SymbolId) (taken : BitSet) : List Phrase → List Nat
  | [] => []
  | f :: fs =>
    let set := g.selecting (some f.entry) cur
    (taken.inter set).toList ++ g.repeated cur (taken.union set) fs

theorem overlapOn_alternatives {line : Nat} {set : BitSet} :
    g.overlapOn cur line .alternatives taken set =
      (taken.inter set).toList.map (g.severalArms cur line) :=
  rfl

theorem count_toList {set : BitSet} : set.toList.count n = if n ∈ set then 1 else 0 := by
  rw [set.nodup_toList.count]
  simp only [BitSet.mem_toList]

theorem selections_cons {f : Phrase} : g.selections cur (f :: fs) n =
    g.selections cur fs n + if n ∈ g.selecting (some f.entry) cur then 1 else 0 := by
  simp [selections, List.countP_cons]

/-- A terminal is reported for each arm that it selects, except for the first one if it was not taken
before. -/
theorem count_repeated : (g.repeated cur taken fs).count n =
    if n ∈ taken then g.selections cur fs n else g.selections cur fs n - 1 := by
  induction fs generalizing taken with
  | nil => simp [repeated, selections]
  | cons f fs ih =>
    rw [repeated, List.count_append, count_toList, ih, selections_cons]
    by_cases htaken : n ∈ taken <;> by_cases hf : n ∈ g.selecting (some f.entry) cur <;>
      simp [BitSet.mem_inter, BitSet.mem_union, htaken, hf, Nat.add_comm]

theorem count_flatMap_replicate {ns : List Nat} {times : Nat → Nat} (hnodup : ns.Nodup) :
    (ns.flatMap fun m => List.replicate (times m) m).count n = if n ∈ ns then times n else 0 := by
  induction ns with
  | nil => rfl
  | cons m ns ih =>
    obtain ⟨hm, hns⟩ := List.nodup_cons.1 hnodup
    rw [List.flatMap_cons, List.count_append, ih hns, List.count_replicate]
    by_cases hnm : n = m
    · subst hnm
      simp [hm]
    · simp [hnm, Ne.symm hnm]

/-- The terminals that are reported for the further arms of an alternative, in another order. -/
theorem repeated_perm {f : Phrase} : (g.repeated cur (g.selecting (some f.entry) cur) fs).Perm
    ((g.selectingOne cur (f :: fs)).toList.flatMap fun n =>
      List.replicate (g.selections cur (f :: fs) n - 1) n) := by
  refine List.perm_iff_count.2 fun n => ?_
  rw [count_repeated, count_flatMap_replicate (BitSet.nodup_toList _)]
  simp only [BitSet.mem_toList, mem_selectingOne, selections_cons]
  split <;> split <;> omega

/-- What is found for the further arms of an alternative are the warnings that are due. -/
theorem map_repeated_perm {f : Phrase} :
    ((g.repeated cur (g.selecting (some f.entry) cur) fs).map (g.severalArms cur (g.node p).line)).Perm
      (g.alternativeWarnings cur p (f :: fs)) := by
  have hperm := (@repeated_perm g cur fs f).map (g.severalArms cur (g.node p).line)
  simpa only [alternativeWarnings, List.map_flatMap, List.map_replicate] using hperm

/-! ## Counting warnings -/

/-- A structure is no ANY. -/
theorem anyWarnings_eq_nil (hkind : (g.node p).kind.isLeaf = false) : g.anyWarnings cur p = [] := by
  refine if_neg fun hany => ?_
  rw [hany.1] at hkind
  cases hkind

section Found

variable {as bs : List (NodeId × List Phrase)}

theorem count_found_alternative : (g.found cur ((p, fs) :: as) e).count d =
    (g.alternativeWarnings cur p fs).count d + (g.found cur as e).count d := by
  simp only [found, List.flatMap_cons, List.count_append]
  omega

theorem count_found_seq {a b : Phrase} : (g.found cur (as ++ bs) (.seq a b)).count d =
    (g.found cur as a).count d + (g.found cur bs b).count d := by
  simp only [found, Phrase.groups, Phrase.nodes, List.flatMap_append, List.count_append]
  omega

theorem found_arm (hkind : (g.node p).kind = .alt) :
    g.found cur as (.arm p e) = g.found cur as e := by
  have hany : g.anyWarnings cur p = [] := anyWarnings_eq_nil (by rw [hkind]; rfl)
  simp only [found, Phrase.groups, Phrase.nodes, List.flatMap_cons, hany, List.nil_append]

theorem count_found_alt {r : Phrase} (hkind : (g.node p).kind = .alt) :
    (g.found cur (as ++ bs) (.alt p e r)).count d =
      (g.found cur as e).count d + (g.found cur bs r).count d := by
  have hany : g.anyWarnings cur p = [] := anyWarnings_eq_nil (by rw [hkind]; rfl)
  simp only [found, Phrase.groups, Phrase.nodes, List.flatMap_cons, List.flatMap_append,
    List.count_append, hany, List.nil_append]
  omega

theorem count_found_group (hkind : (g.node p).kind = .opt ∨ (g.node p).kind = .iter) :
    (g.found cur as (.opt p e)).count d =
      (g.groupConflicts cur p (e.outline .done)).count d + (g.found cur as e).count d ∧
    (g.found cur as (.iter p e)).count d =
      (g.groupConflicts cur p (e.outline .done)).count d + (g.found cur as e).count d := by
  have hany : g.anyWarnings cur p = [] :=
    anyWarnings_eq_nil (by rcases hkind with hk | hk <;> rw [hk] <;> rfl)
  constructor <;>
    simp only [found, Phrase.groups, Phrase.nodes, List.flatMap_cons, List.count_append, hany,
      List.nil_append] <;>
    omega

end Found

/-! ## Going over a production -/

/-- What the search finds in a phrase, and then behind it.  An alternative is gone through in two ways,
as a part of a chain and as the further arms of another one. -/
theorem count_conflicts {rest : Outline} (hshows : g.Shows e k up) :
    (g.conflicts cur (e.outline rest)).count d =
      (g.found cur e.alternatives e).count d + (g.conflicts cur rest).count d ∧
    (e.isArms = true → ∀ line taken, (g.armConflicts cur line taken (e.outline rest)).count d =
      ((g.repeated cur taken e.bodies).map (g.severalArms cur line)).count d +
        (g.found cur e.alternatives.tail e).count d) := by
  induction e generalizing k up rest with
  | leaf p =>
    refine ⟨?_, fun harms => by cases harms⟩
    rw [Phrase.outline, conflicts, List.count_append]
    simp [found, Phrase.alternatives, Phrase.groups, Phrase.nodes, anyWarnings]
  | seq a b iha ihb =>
    refine ⟨?_, fun harms => by cases harms⟩
    rw [Phrase.outline, (iha hshows.1).1, (ihb hshows.2).1, Phrase.alternatives, count_found_seq,
      Nat.add_assoc]
  | arm p e ih =>
    obtain ⟨hp, he⟩ := hshows
    have hbody := (@ih k true .done he).1
    have hown := (@map_repeated_perm g cur p [] e).count_eq d
    constructor
    · rw [Phrase.alternatives, count_found_alternative, found_arm hp.kind_eq, ← hown]
      simp only [Phrase.outline, conflicts, armConflicts, List.count_append, hbody, repeated,
        List.map_nil, List.count_nil]
      omega
    · intro _ line taken
      rw [Phrase.alternatives, List.tail_cons, found_arm hp.kind_eq]
      simp only [Phrase.outline, conflicts, armConflicts, List.count_append, hp.sub_eq, hbody,
        Phrase.bodies, repeated, List.append_nil, List.count_nil, overlapOn_alternatives]
      omega
  | alt p e r ihe ihr =>
    obtain ⟨hr, hp, he, hmore⟩ := hshows
    have hbody := (@ihe k true .done he).1
    have harms := (@ihr k true .done hmore).2 hr
    have hown := (@map_repeated_perm g cur p r.bodies e).count_eq d
    constructor
    · rw [Phrase.alternatives, count_found_alternative, count_found_alt hp.kind_eq, ← hown]
      simp only [Phrase.outline, conflicts, List.count_append, hp.sub_eq, hbody, harms,
        List.count_nil]
      omega
    · intro _ line taken
      rw [Phrase.alternatives, List.tail_cons, count_found_alt hp.kind_eq]
      simp only [Phrase.outline, conflicts, armConflicts, List.count_append, hp.sub_eq, hbody, harms,
        Phrase.bodies, repeated, List.map_append, List.count_nil, overlapOn_alternatives]
      omega
  | opt p e ih | iter p e ih =>
    refine ⟨?_, fun harms => by cases harms⟩
    have hkind : (g.node p).kind = .opt ∨ (g.node p).kind = .iter := by simp [hshows.1.kind_eq]
    have hbody := (@ih _ true .done hshows.2).1
    have hfound := @count_found_group g e cur p d e.alternatives hkind
    rw [Phrase.outline, conflicts, List.count_append, List.count_append, hbody, conflicts,
      List.count_nil]
    simp only [Phrase.alternatives, hfound]
    omega

theorem conflicts_outline_perm (hshows : g.Shows e k up) :
    (g.conflicts cur (e.outline .done)).Perm (g.found cur e.alternatives e) := by
  refine List.perm_iff_count.2 fun d => ?_
  rw [(count_conflicts hshows).1, conflicts, List.count_nil, Nat.add_zero]

/-! ## Contents that can be empty -/

/-- The node of an option or iteration leads to its contents. -/
theorem Shows.sub_eq_of_mem_groups {a : NodeId × Phrase} (hshows : g.Shows e k up)
    (ha : a ∈ e.groups) : (g.node a.1).sub = some a.2.entry := by
  induction e generalizing k up with
  | leaf p => cases ha
  | seq x y ihx ihy => exact (List.mem_append.1 ha).elim (ihx hshows.1) (ihy hshows.2)
  | arm p e ih => exact ih hshows.2 ha
  | alt p e r ihe ihr =>
    exact (List.mem_append.1 ha).elim (ihe hshows.2.2.1) (ihr hshows.2.2.2)
  | opt p e ih | iter p e ih =>
    rcases List.mem_cons.1 ha with rfl | ha
    · exact hshows.1.sub_eq
    · exact ih hshows.2 ha

namespace Composed

variable (h : g.Composed pool) (hclosed : g.Closed) (hflags : g.FlagsSound pool)
include h hclosed hflags

/-- Where the flags are right, a phrase is nullable if the empty form can be derived from it. -/
theorem nullable_iff_vanishes : e.nullable g.leafDeletable = true ↔ g.Vanishes pool e := by
  rw [Phrase.nullable_iff]
  refine exists_congr fun ps => and_congr_right fun _ => ?_
  rw [forall_leafDeletable_iff]
  constructor
  · intro hall
    refine Derives.nil_of_forall fun x hx => ?_
    have hx := hall x hx
    cases x with
    | nonterminal t => exact hflags t hx
    | _ => exact hx.elim
  · exact h.flagged_of_derives hclosed

/-- What is found for an option or iteration by itself are the warnings that are due. -/
theorem groupConflicts_eq (hsub : (g.node p).sub = some e.entry) :
    g.groupConflicts cur p (e.outline .done) = g.groupWarnings pool cur p e := by
  have hempty : g.deletableOutline (e.outline .done) = true ↔ g.Vanishes pool e := by
    rw [deletableOutline_eq_passable, passable_outline, Outline.passable, Bool.and_true,
      h.nullable_iff_vanishes hclosed hflags]
  unfold groupConflicts groupWarnings
  by_cases hvanish : g.Vanishes pool e
  · rw [if_pos hvanish, if_pos (hempty.2 hvanish)]
  · rw [if_neg hvanish, if_neg (mt hempty.1 hvanish), hsub]
    rfl

theorem found_eq_dueWarnings (hshows : g.Shows e k up) :
    g.found cur e.alternatives e = g.dueWarnings pool cur e := by
  rw [found, dueWarnings]
  congr 2
  exact List.flatMap_congr fun a ha =>
    h.groupConflicts_eq hclosed hflags (hshows.sub_eq_of_mem_groups ha)

/-- What is found in a production are the warnings that are due, in another order. -/
theorem conflicts_perm (he : e ∈ pool) :
    (g.conflicts cur (g.outline (some e.entry))).Perm (g.dueWarnings pool cur e) := by
  have hshows := h.shows_of_mem he
  rw [outline_entry hshows (h.nodup he) (.inr rfl), ← h.found_eq_dueWarnings hclosed hflags hshows]
  exact conflicts_outline_perm hshows

end Composed

/-! ## What is reported -/

theorem severity_of_mem_conflicts {o : Outline} (hd : d ∈ g.conflicts cur o) :
    d.severity = .warning := by
  obtain ⟨line, what, rfl⟩ := (exists_of_mem_conflicts o).1 d hd
  rfl

/-- After the analyses the check reports warnings only, for each production those that are due: for each
alternative and terminal one less than the arms that the terminal selects, for each option and iteration
one if its contents can be empty or else one for each terminal that may also follow, and one for each
ANY whose set is empty. -/
theorem Composed.runCheck_lookaheadConflicts (h : g.Composed pool) (hflags : g.FlagsSound pool) :
    ∃ found : SymbolId → List Diagnostic,
      (g.computeSets.runCheck lookaheadConflicts).2 =
        g.computeSets.reportAll (g.nonterminals.flatMap found) ∧
      ∀ s ∈ g.nonterminals, (∀ d ∈ found s, d.severity = .warning) ∧
        ((g.sym s).production = none → found s = []) ∧
        ∀ e ∈ pool, (g.sym s).production = some e.entry →
          (found s).Perm (g.computeSets.dueWarnings pool s e) := by
  have hrules := g.computeDeletable_sameRules
  have hannot := computeSets_annotates g
  have hcomposed := hannot.composed (h.congr hrules)
  have hclosed := hannot.closed computeDeletable_closed
  have hsound := hannot.flagsSound (h.flagsSound_computeDeletable hflags)
  have hnts : g.computeSets.nonterminals = g.nonterminals :=
    hannot.nonterminals_eq.trans hrules.nonterminals_eq
  have hprod : ∀ s, (g.computeSets.sym s).production = (g.sym s).production :=
    fun s => (hannot.production_eq s).trans (hrules.production_eq s)
  refine ⟨fun s => g.computeSets.conflicts s (g.computeSets.outline (g.sym s).production), ?_,
    fun s hs => ⟨fun d hd => severity_of_mem_conflicts hd, fun hnone => ?_, fun e he heq => ?_⟩⟩
  · simp only [runCheck, lookaheadConflicts, hnts, hprod]
  · simp only [hnone, outline, outlineWithin_none, conflicts]
  · simp only [heq]
    exact hcomposed.conflicts_perm hclosed hsound he

/-! ## A production with all kinds of conflicts -/

/-- The production `S = ( a | a b | [ a ] a ) { eps } ANY`. -/
def clashing : Grammar :=
  (initial.declareProduction "S" (.seq
    (.alt (.terminal "a") [.seq (.terminal "a") [.terminal "b"],
      .seq (.opt (.terminal "a")) [.terminal "a"]])
    [.iter .eps, .any]) 1).2.2

/-- The phrase of the production. -/
def clashingPhrase : Phrase :=
  .seq (.seq (.alt 6 (.leaf 0) (.alt 7 (.seq (.leaf 1) (.leaf 2))
    (.arm 8 (.seq (.opt 4 (.leaf 3)) (.leaf 5))))) (.iter 10 (.leaf 9))) (.leaf 11)

theorem clashing_composed : clashing.Composed [clashingPhrase] := by
  have hterminal : ∀ s, (NodeKind.terminal s).isLeaf = true := fun _ => rfl
  have heps : NodeKind.eps.isLeaf = true := rfl
  have hany : NodeKind.any.isLeaf = true := rfl
  -- the contents of the arms, then the arms
  have ha := (Assembled.start (initial.declareSymbol .terminal "a" 1).2).leaf (hterminal 1) 1 none
  have hb := ((ha.leaf (hterminal 1) 1 none).declareSymbol .terminal "b" 1).leaf (hterminal 2) 1 none
  have hab := (hb.perm (.swap _ _ _)).sequence
  have hopt := (hab.leaf (hterminal 1) 1 none).option.leaf (hterminal 1) 1 none
  have hbodies := (hopt.perm (.swap _ _ _)).sequence.perm (List.reverse_perm _).symm
  have harms := (hbodies.firstArm.addArm rfl).addArm rfl
  -- what stands behind the alternative
  have hrest := ((harms.leaf heps 1 none).iteration.leaf hany 1 none).perm (List.reverse_perm _).symm
  have hseq := (hrest.sequence.perm (.refl _)).sequence
  have hall : Assembled clashing [clashingPhrase] := hseq.declare (by decide) (by decide)
  exact ⟨hall, by decide, by decide⟩

/-- `a` starts three arms and may follow the option, the iteration goes round without anything, and
nothing is left for the ANY. -/
theorem Composed.runCheck_lookaheadConflicts_clashing :
    clashing.Composed [clashingPhrase] ∧ clashing.FlagsSound [clashingPhrase] ∧
      (clashing.computeSets.dueWarnings [clashingPhrase] 3 clashingPhrase).Perm
        [.warningOn 1 (.conflict "S" (.alternatives "a")),
          .warningOn 1 (.conflict "S" (.alternatives "a")),
          .warningOn 1 (.conflict "S" (.successor "a")),
          .warningOn 1 (.conflict "S" .deletableContents),
          .warningOn 1 (.conflict "S" .emptyAny)] := by
  have hflags : clashing.FlagsSound [clashingPhrase] := flagsSound_of_forall (by decide)
  have hnts : clashing.nonterminals = [3] := by decide
  have hnone : clashing.computeSets.diags = [] := by decide
  have hdiags : (clashing.computeSets.runCheck lookaheadConflicts).2.diags =
      [.warningOn 1 (.conflict "S" (.alternatives "a")),
        .warningOn 1 (.conflict "S" (.alternatives "a")),
        .warningOn 1 (.conflict "S" (.successor "a")),
        .warningOn 1 (.conflict "S" .deletableContents),
        .warningOn 1 (.conflict "S" .emptyAny)] := by decide
  obtain ⟨found, hreport, hfound⟩ := clashing_composed.runCheck_lookaheadConflicts hflags
  obtain ⟨-, -, hperm⟩ := hfound 3 (by decide)
  have hdue := hperm clashingPhrase (List.mem_singleton_self _) (by decide)
  simp only [hreport, hnts, List.flatMap_singleton, reportAll, hnone, List.nil_append] at hdiags
  rw [hdiags] at hdue
  exact ⟨clashing_composed, hflags, hdue.symm⟩

end Grammar

end Ebnf
