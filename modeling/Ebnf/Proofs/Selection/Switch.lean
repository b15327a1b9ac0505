import Ebnf.Proofs.Check.Arms
import Ebnf.Selection

/-!
# Switches and conflicts

Whether an alternative is decided by a switch and whether its arms are in conflict is
found out by two passes over the same arms.  Both add up what selects the arms so far.
The one gives up at the first overlap or resolver, the other reports each terminal of
each overlap.  An arm that begins with a resolver is selected by no terminal; it is in no
conflict, and yet there is no switch.

Main results:

- Theorem `Grammar.armsDisjoint_iff`: what the arms of a switch have to be like.
- Theorem `Grammar.alternativeWarnings_eq_nil_iff`: the arms that are in no conflict.
- Theorem `Grammar.Composed.filter_conflicts_perm`: the warnings about several arms in a
  production are those of its alternatives.
- Theorem `Grammar.Composed.suitsSwitch_exact`: when an alternative is decided by a switch,
  and what is reported about it.
-/

namespace Ebnf

/-- Whether a diagnostic says that a terminal starts several arms. -/
def Diagnostic.isSeveralArms (d : Diagnostic) : Bool :=
  match d.cause with
  | .conflict _ (.alternatives _) => true
  | _ => false

namespace Grammar

variable {g : Grammar} {pool : List Phrase} {e : Phrase} {k : Option NodeId} {up : Bool}
  {cur s : SymbolId} {p : NodeId} {taken : BitSet} {fs : List Phrase} {ps : List NodeId}
  {d : Diagnostic}

/-- No terminal selects two of the phrases, in the production of `cur`. -/
def SelectedApart (g : Grammar) (cur : SymbolId) (fs : List Phrase) : Prop :=
  fs.Pairwise fun f f' => ∀ n ∈ g.selecting (some f.entry) cur, n ∉ g.selecting (some f'.entry) cur

/-! ## Switches -/

/-- No arm may begin with a resolver, none may be selected by what is taken already, and no two by the
same terminal. -/
theorem armsDisjoint_iff (hsubs : ps.map (fun p => (g.node p).sub) = fs.map fun f => some f.entry) :
    g.armsDisjoint cur taken ps = true ↔ (∀ f ∈ fs, g.beginsWithResolver (some f.entry) = false) ∧
      (∀ f ∈ fs, ∀ n ∈ taken, n ∉ g.selecting (some f.entry) cur) ∧ g.SelectedApart cur fs := by
  induction ps generalizing fs taken with
  | nil =>
    have hnil : fs = [] := by simpa using hsubs.symm
    subst hnil
    simp [armsDisjoint, SelectedApart]
  | cons p ps ih =>
    cases fs with
    | nil => cases hsubs
    | cons f fs =>
      obtain ⟨hsub, hmore⟩ := List.cons.inj hsubs
      have hoverlap : taken.intersects (g.selecting (some f.entry) cur) = false ↔
          ∀ n ∈ taken, n ∉ g.selecting (some f.entry) cur := by
        rw [← Bool.not_eq_true, BitSet.intersects_iff]
        simp
      simp only [armsDisjoint, hsub, Bool.and_eq_true, Bool.not_eq_true', hoverlap, ih hmore,
        List.forall_mem_cons, BitSet.mem_union, SelectedApart, List.pairwise_cons]
      constructor
      · rintro ⟨⟨htaken, hf⟩, hfs, hunion, hapart⟩
        exact ⟨⟨hf, hfs⟩, ⟨htaken, fun f' hf' n hn => hunion f' hf' n (.inl hn)⟩,
          fun f' hf' n hn => hunion f' hf' n (.inr hn), hapart⟩
      · rintro ⟨⟨hf, hfs⟩, ⟨htaken, hothers⟩, hset, hapart⟩
        exact ⟨⟨htaken, hf⟩, hfs, fun f' hf' n hn => hn.elim (hothers f' hf' n) (hset f' hf' n), hapart⟩

/-- An alternative is decided by a switch if it has many arms, none begins with a resolver, and no
terminal selects two of them. -/
theorem Composed.suitsSwitch_iff (h : g.Composed pool) (he : e ∈ pool) (ha : (p, fs) ∈ e.alternatives) :
    g.suitsSwitch p cur = true ↔ maxBranches < fs.length ∧
      (∀ f ∈ fs, g.beginsWithResolver (some f.entry) = false) ∧ g.SelectedApart cur fs := by
  obtain ⟨r, k, up, harms, rfl, rfl, hshows, hsub⟩ := (h.shows_of_mem he).showsArms ha
  have hsubs := hshows.subs_armNodes harms
  have hlength : r.armNodes.length = r.bodies.length := by simpa using congrArg List.length hsubs
  obtain ⟨_, -, houtline⟩ := outlineWithin_entry (P := fun _ => True) 0 g.nodes.size hshows
    (by unfold Behind; split <;> simp)
    (by simpa using hshows.length_nodes_le ((h.nodup he).sublist hsub))
  simp [suitsSwitch, outline, houtline, Phrase.arms_outline harms, hlength, armsDisjoint_iff hsubs]

/-! ## Conflicts -/

/-- Whichever terminal one takes, it selects at most one of the phrases. -/
theorem selectedApart_iff : g.SelectedApart cur fs ↔ ∀ n, g.selections cur fs n ≤ 1 := by
  induction fs with
  | nil => simp [SelectedApart, selections]
  | cons f fs ih =>
    have hnone : (∀ f' ∈ fs, ∀ n ∈ g.selecting (some f.entry) cur, n ∉ g.selecting (some f'.entry) cur) ↔
        ∀ n ∈ g.selecting (some f.entry) cur, g.selections cur fs n = 0 := by
      simp only [selections, List.countP_eq_zero, decide_eq_true_eq]
      exact ⟨fun hall n hn f' hf' => hall f' hf' n hn, fun hall f' hf' n hn => hall n hn f' hf'⟩
    rw [SelectedApart, List.pairwise_cons, ← SelectedApart, ih, hnone]
    simp only [selections_cons]
    constructor
    · rintro ⟨hf, hfs⟩ n
      split
      next hn => rw [hf n hn]
      next => exact hfs n
    · intro hall
      refine ⟨fun n hn => ?_, fun n => ?_⟩
      · have hle := hall n
        rw [if_pos hn] at hle
        omega
      · exact Nat.le_trans (Nat.le_add_right _ _) (hall n)

/-- Nothing is reported about the arms if and only if no terminal selects two of them. -/
theorem alternativeWarnings_eq_nil_iff : g.alternativeWarnings cur p fs = [] ↔ g.SelectedApart cur fs := by
  simp only [alternativeWarnings, List.flatMap_eq_nil_iff, BitSet.mem_toList, mem_selectingOne,
    List.replicate_eq_nil_iff, selectedApart_iff]
  refine forall_congr' fun n => ?_
  omega

theorem isSeveralArms_of_mem (hd : d ∈ g.alternativeWarnings cur p fs) : d.isSeveralArms = true := by
  obtain ⟨n, -, hd⟩ := List.mem_flatMap.1 hd
  rw [List.eq_of_mem_replicate hd]
  rfl

/-- The warnings of other kinds say nothing about several arms. -/
theorem isSeveralArms_of_mem_groupConflicts {body : Outline} (hd : d ∈ g.groupConflicts cur p body) :
    d.isSeveralArms = false := by
  unfold groupConflicts at hd
  split at hd
  next =>
    rw [List.mem_singleton.1 hd]
    rfl
  next =>
    obtain ⟨n, -, rfl⟩ := List.mem_map.1 hd
    rfl

theorem isSeveralArms_of_mem_anyWarnings (hd : d ∈ g.anyWarnings cur p) :
    d.isSeveralArms = false := by
  unfold anyWarnings at hd
  split at hd
  next =>
    rw [List.mem_singleton.1 hd]
    rfl
  next => cases hd

theorem filter_found {as : List (NodeId × List Phrase)} :
    (g.found cur as e).filter Diagnostic.isSeveralArms =
      as.flatMap fun a => g.alternativeWarnings cur a.1 a.2 := by
  rw [found, List.filter_append, List.filter_append]
  have hgroups : (e.groups.flatMap fun a =>
      g.groupConflicts cur a.1 (a.2.outline .done)).filter Diagnostic.isSeveralArms = [] := by
    refine List.filter_eq_nil_iff.2 fun d hd => Bool.not_eq_true _ ▸ ?_
    obtain ⟨a, -, hd⟩ := List.mem_flatMap.1 hd
    exact isSeveralArms_of_mem_groupConflicts hd
  have hanys : (e.nodes.flatMap (g.anyWarnings cur)).filter Diagnostic.isSeveralArms = [] := by
    refine List.filter_eq_nil_iff.2 fun d hd => Bool.not_eq_true _ ▸ ?_
    obtain ⟨p, -, hd⟩ := List.mem_flatMap.1 hd
    exact isSeveralArms_of_mem_anyWarnings hd
  rw [hgroups, hanys, List.append_nil, List.append_nil, List.filter_eq_self]
  intro d hd
  obtain ⟨a, -, hd⟩ := List.mem_flatMap.1 hd
  exact isSeveralArms_of_mem hd

/-- The warnings about several arms in a production are those about its alternatives, in another
order. -/
theorem Composed.filter_conflicts_perm (h : g.Composed pool) (he : e ∈ pool) :
    ((g.conflicts cur (g.outline (some e.entry))).filter Diagnostic.isSeveralArms).Perm
      (e.alternatives.flatMap fun a => g.alternativeWarnings cur a.1 a.2) := by
  have hshows := h.shows_of_mem he
  rw [outline_entry hshows (h.nodup he) (.inr rfl), ← filter_found]
  exact (conflicts_outline_perm hshows).filter _

/-- After the analyses an alternative is decided by a switch if and only if it has many arms, none of
them begins with a resolver, and no terminal selects two of them.  The check for conflicts then
reports no terminal as the start of several of its arms; and it reports at least one if there is no
switch although there are many arms and no resolvers. -/
theorem Composed.suitsSwitch_exact (h : g.Composed pool) : ∃ found : SymbolId → List Diagnostic,
    (g.computeSets.runCheck lookaheadConflicts).2 =
      g.computeSets.reportAll (g.nonterminals.flatMap found) ∧
    ∀ s ∈ g.nonterminals, ∀ e ∈ pool, (g.sym s).production = some e.entry →
      ((found s).filter Diagnostic.isSeveralArms).Perm
        (e.alternatives.flatMap fun a => g.computeSets.alternativeWarnings s a.1 a.2) ∧
      ∀ p fs, (p, fs) ∈ e.alternatives →
        (g.computeSets.suitsSwitch p s = true ↔ 5 < fs.length ∧
          (∀ f ∈ fs, g.computeSets.beginsWithResolver (some f.entry) = false) ∧
          g.computeSets.SelectedApart s fs) ∧
        (g.computeSets.suitsSwitch p s = true → g.computeSets.alternativeWarnings s p fs = []) ∧
        (g.computeSets.suitsSwitch p s = false → 5 < fs.length →
          (∀ f ∈ fs, g.computeSets.beginsWithResolver (some f.entry) = false) →
          g.computeSets.alternativeWarnings s p fs ≠ []) := by
  have hcomposed := h.computeSets
  refine ⟨fun s => g.computeSets.conflicts s (g.computeSets.outline (g.sym s).production), ?_,
    fun s hs e he heq => ⟨?_, fun p fs ha => ?_⟩⟩
  · simp only [runCheck, lookaheadConflicts, nonterminals_computeSets, production_computeSets]
  · simp only [heq]
    exact hcomposed.filter_conflicts_perm he
  · have hswitch := @Composed.suitsSwitch_iff _ _ _ s _ _ hcomposed he ha
    refine ⟨hswitch, fun hyes => ?_, fun hno hmany hres hnone => ?_⟩
    · exact alternativeWarnings_eq_nil_iff.2 (hswitch.1 hyes).2.2
    · have hyes := hswitch.2 ⟨hmany, hres, alternativeWarnings_eq_nil_iff.1 hnone⟩
      rw [hno] at hyes
      cases hyes

/-! ## Many arms -/

/-- The production `S = ( a | b | c | d | e | f )`. -/
def branching : Grammar :=
  (initial.declareProduction "S" (.alt (.terminal "a") [.terminal "b", .terminal "c", .terminal "d",
    .terminal "e", .terminal "f"]) 1).2.2

/-- An alternative of single nodes that follow each other. -/
def branches (p q : NodeId) : Nat → Phrase
  | 0 => .arm q (.leaf p)
  | n + 1 => .alt q (.leaf p) (branches (p + 1) (q + 1) n)

theorem branching_composed : branching.Composed [branches 0 6 5] := by
  have hterminal : ∀ s, (NodeKind.terminal s).isLeaf = true := fun _ => rfl
  have ha := (Assembled.start (initial.declareSymbol .terminal "a" 1).2).leaf (hterminal 1) 1 none
  have hb := (ha.declareSymbol .terminal "b" 1).leaf (hterminal 2) 1 none
  have hc := (hb.declareSymbol .terminal "c" 1).leaf (hterminal 3) 1 none
  have hd := (hc.declareSymbol .terminal "d" 1).leaf (hterminal 4) 1 none
  have he := (hd.declareSymbol .terminal "e" 1).leaf (hterminal 5) 1 none
  have hf := (he.declareSymbol .terminal "f" 1).leaf (hterminal 6) 1 none
  have hbodies := hf.perm (List.reverse_perm _).symm
  have harms := ((((hbodies.firstArm.addArm rfl).addArm rfl).addArm rfl).addArm rfl).addArm rfl
  have hall : Assembled branching [branches 0 6 5] := harms.declare (by decide +kernel) (by decide +kernel)
  exact ⟨hall, by decide +kernel, by decide +kernel⟩

/-- The alternative is decided by a switch: no terminal selects two arms, and none is reported. -/
theorem Composed.suitsSwitch_exact_branching : branching.Composed [branches 0 6 5] ∧
    branching.computeSets.suitsSwitch 6 7 = true ∧
    branching.computeSets.SelectedApart 7 (branches 0 6 5).bodies ∧
    branching.computeSets.alternativeWarnings 7 6 (branches 0 6 5).bodies = [] := by
  obtain ⟨found, -, hfound⟩ := branching_composed.suitsSwitch_exact
  obtain ⟨-, hall⟩ := hfound 7 (by decide +kernel) (branches 0 6 5) (List.mem_singleton_self _)
    (by decide +kernel)
  obtain ⟨hswitch, hquiet, -⟩ := hall 6 (branches 0 6 5).bodies (by decide)
  have hyes : branching.computeSets.suitsSwitch 6 7 = true := by decide +kernel
  exact ⟨branching_composed, hyes, (hswitch.1 hyes).2.2, hquiet hyes⟩

end Grammar

end Ebnf
