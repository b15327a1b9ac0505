import Ebnf.Generation
import Ebnf.Proofs.Analysis.Annotation
import Ebnf.Proofs.Check.Circular
import Ebnf.Proofs.Check.Lookahead
import Ebnf.Proofs.Check.Termination

/-!
# The errors decide the verdict

A run stops at errors that were there before, at a grammar that is not usable, or
at tokens that cannot be told apart.  Every pass appends to the same diagnostics,
and each stage is left with success exactly if there is no error among them: the
three checks that make a grammar unusable report errors, everything else that
looks at the grammar warns.

Main results:

- Theorem `Grammar.errors_checkAll`: the checks add an error exactly if they fail.
- Theorem `Grammar.Checkable.checkAll_iff`: they fail exactly if a nonterminal has no
  production, derives itself alone, or cannot be derived to terminals.
- Theorem `Draft.generate_verdict`: the outcome of a run, by the errors before, the
  faults of the grammar, and the errors after.
-/

namespace Ebnf

namespace Diagnostics

variable {ds ds' : Diagnostics}

theorem errors_of_warnings (h : ∀ d ∈ ds, d.severity = .warning) : errors ds = 0 := by
  rw [errors, List.countP_eq_zero]
  intro d hd
  simp [h d hd]

theorem errors_of_errors (h : ∀ d ∈ ds, d.severity = .error) : errors ds = ds.length := by
  rw [errors, List.countP_eq_length]
  intro d hd
  simp [h d hd]

theorem hasErrors_iff : ds.hasErrors = true ↔ 0 < ds.errors := by
  simp [hasErrors, Nat.pos_iff_ne_zero]

end Diagnostics

namespace Grammar

variable {g g' : Grammar} {pool : List Phrase} {s : SymbolId} {p : NodeId} {d : Diagnostic}
  {check : Grammar → List Diagnostic}

/-! ## Severities -/

theorem severity_missingProductions (hd : d ∈ g.missingProductions) : d.severity = .error := by
  obtain ⟨s, _, rfl⟩ := List.mem_map.1 hd
  rfl

theorem severity_unreachableSymbols (hd : d ∈ g.unreachableSymbols) : d.severity = .warning := by
  obtain ⟨s, _, rfl⟩ := List.mem_map.1 hd
  rfl

theorem severity_circularProductions (hd : d ∈ g.circularProductions) : d.severity = .error := by
  obtain ⟨pair, _, rfl⟩ := List.mem_map.1 hd
  rfl

theorem severity_endlessSymbols (hd : d ∈ g.endlessSymbols) : d.severity = .error := by
  obtain ⟨s, _, rfl⟩ := List.mem_map.1 hd
  rfl

theorem severity_lookaheadConflicts (hd : d ∈ g.lookaheadConflicts) : d.severity = .warning := by
  obtain ⟨cur, line, what, rfl⟩ := exists_of_mem_lookaheadConflicts hd
  rfl

theorem severity_misplacedAt {what : Misplacement} : (g.misplacedAt p what).severity = .warning := by
  unfold misplacedAt
  split <;> rfl

theorem severity_groupResolver {cur : SymbolId} (hd : d ∈ g.groupResolver cur p) :
    d.severity = .warning := by
  unfold groupResolver at hd
  split at hd
  · cases hd
  · split at hd
    · cases hd
    · rw [List.mem_singleton.1 hd]
      exact severity_misplacedAt

theorem severity_armResolver {cur : SymbolId} {all taken : BitSet}
    (hd : d ∈ g.armResolver cur p all taken) : d.severity = .warning := by
  unfold armResolver at hd
  split at hd
  · cases hd
  · rcases List.mem_append.1 hd with hd | hd
    · split at hd
      · rw [List.mem_singleton.1 hd]
        exact severity_misplacedAt
      · cases hd
    · split at hd
      · cases hd
      · rw [List.mem_singleton.1 hd]
        exact severity_misplacedAt

theorem severity_misplacements {cur : SymbolId} (o : Outline) :
    (∀ allowed, ∀ d ∈ g.misplacements cur allowed o, d.severity = .warning) ∧
      ∀ all taken, ∀ d ∈ g.armMisplacements cur all taken o, d.severity = .warning := by
  induction o with
  | done => simp [misplacements, armMisplacements]
  | leaf p next ih =>
    refine ⟨fun allowed d hd => ?_, by simp [armMisplacements]⟩
    rw [misplacements] at hd
    rcases List.mem_append.1 hd with hd | hd
    · split at hd
      · rw [List.mem_singleton.1 hd]
        exact severity_misplacedAt
      · cases hd
    · exact (ih ()).1 _ d hd
  | group p body next ihb ihn =>
    refine ⟨fun allowed d hd => ?_, by simp [armMisplacements]⟩
    simp only [misplacements, List.mem_append] at hd
    rcases hd with (hd | hd) | hd
    · exact severity_groupResolver hd
    · exact (ihb ()).1 _ d hd
    · exact (ihn ()).1 _ d hd
  | arm p body down next ihb ihd ihn =>
    constructor
    · intro allowed d hd
      simp only [misplacements, List.mem_append] at hd
      rcases hd with ((hd | hd) | hd) | hd
      · exact severity_armResolver hd
      · exact (ihb ()).1 _ d hd
      · exact (ihd ()).2 _ _ d hd
      · exact (ihn ()).1 _ d hd
    · intro all taken d hd
      simp only [armMisplacements, List.mem_append] at hd
      rcases hd with (hd | hd) | hd
      · exact severity_armResolver hd
      · exact (ihb ()).1 _ d hd
      · exact (ihd ()).2 _ _ d hd

theorem severity_misplacedResolvers (hd : d ∈ g.misplacedResolvers) : d.severity = .warning := by
  obtain ⟨s, _, hd⟩ := List.mem_flatMap.1 hd
  exact (severity_misplacements _).1 _ d hd

/-! ## Running the checks -/

theorem errors_runCheck_warning (h : ∀ d ∈ check g, d.severity = .warning) :
    (g.runCheck check).2.diags.errors = g.diags.errors := by
  rw [runCheck, reportAll, Diagnostics.errors_append, Diagnostics.errors_of_warnings h,
    Nat.add_zero]

theorem errors_runCheck_error (h : ∀ d ∈ check g, d.severity = .error) :
    (g.runCheck check).2.diags.errors = g.diags.errors + (check g).length := by
  rw [runCheck, reportAll, Diagnostics.errors_append, Diagnostics.errors_of_errors h]

theorem runCheck_fst_iff : (g.runCheck check).1 = true ↔ check g = [] := by
  rw [runCheck, List.isEmpty_iff]

/-- The grammar when missing productions and unreachable nonterminals are reported. -/
def surveyed (g : Grammar) : Grammar :=
  ((g.runCheck missingProductions).2.runCheck unreachableSymbols).2

/-- The grammar when circular productions are reported as well. -/
def traced (g : Grammar) : Grammar :=
  (g.surveyed.runCheck circularProductions).2

theorem surveyed_eq (g : Grammar) : ∃ ds, g.surveyed = g.reportAll ds :=
  ⟨_, reportAll_reportAll⟩

theorem traced_eq (g : Grammar) : ∃ ds, g.traced = g.reportAll ds := by
  obtain ⟨ds, heq⟩ := g.surveyed_eq
  unfold traced runCheck
  rw [heq]
  exact ⟨_, reportAll_reportAll⟩

/-- Three of the checks decide. -/
theorem checkAll_fst_iff : g.checkAll.1 = true ↔ g.missingProductions = [] ∧
    g.surveyed.circularProductions = [] ∧ g.traced.endlessSymbols = [] := by
  have hfst : g.checkAll.1 = ((g.runCheck missingProductions).1 &&
      (g.surveyed.runCheck circularProductions).1 && (g.traced.runCheck endlessSymbols).1) := by
    unfold checkAll
    simp only
    split <;> rfl
  rw [hfst, Bool.and_eq_true, Bool.and_eq_true, runCheck_fst_iff, runCheck_fst_iff,
    runCheck_fst_iff, and_assoc]

theorem errors_surveyed :
    g.surveyed.diags.errors = g.diags.errors + g.missingProductions.length := by
  rw [surveyed, errors_runCheck_warning fun _ => severity_unreachableSymbols,
    errors_runCheck_error fun _ => severity_missingProductions]

/-- Each failure of a check that decides is an error, and there are no others. -/
theorem errors_checkAll : g.checkAll.2.diags.errors = g.diags.errors +
    g.missingProductions.length + g.surveyed.circularProductions.length +
      g.traced.endlessSymbols.length := by
  have hgates : (g.traced.runCheck endlessSymbols).2.diags.errors = g.diags.errors +
      g.missingProductions.length + g.surveyed.circularProductions.length +
        g.traced.endlessSymbols.length := by
    rw [errors_runCheck_error fun _ => severity_endlessSymbols, traced,
      errors_runCheck_error fun _ => severity_circularProductions, errors_surveyed]
  rw [← hgates]
  unfold checkAll
  simp only
  split
  · rw [errors_runCheck_warning fun _ => severity_lookaheadConflicts,
      errors_runCheck_warning fun _ => severity_misplacedResolvers]
    rfl
  · rfl

/-- The checks succeed exactly if they add no error. -/
theorem checkAll_fst_iff_errors :
    g.checkAll.1 = true ↔ g.checkAll.2.diags.errors = g.diags.errors := by
  rw [checkAll_fst_iff, errors_checkAll]
  simp only [← List.length_eq_zero_iff]
  omega

/-! ## Usable grammars -/

/-- A nonterminal has no production, derives itself alone, or cannot be derived to a form without
nonterminals. -/
def Faulty (g : Grammar) (pool : List Phrase) (s : SymbolId) : Prop :=
  (g.sym s).production = none ∨
    Relation.TransGen (g.Rewrites pool) [.nonterminal s] [.nonterminal s] ∨ ¬ g.Productive pool s

/-- A grammar whose nonterminals are numbered and flagged if they are deletable. -/
structure Checkable (g : Grammar) (pool : List Phrase) : Prop extends g.Composed pool where
  numbered : g.Numbered
  closed : g.Closed
  sound : g.FlagsSound pool

theorem SameRules.numbered (h : g.SameRules g') (hnum : g.Numbered) : g'.Numbered := by
  simp only [Numbered, h.nonterminals_eq, h.number_eq]
  exact hnum

theorem SameRules.flagsSound (h : g.SameRules g')
    (hflags : ∀ s, (g'.sym s).deletable = (g.sym s).deletable) (hsound : g.FlagsSound pool) :
    g'.FlagsSound pool := by
  intro s hs
  rw [hflags] at hs
  rw [h.derives_iff]
  exact hsound s hs

theorem SameRules.faulty_iff (h : g.SameRules g') : g'.Faulty pool s ↔ g.Faulty pool s := by
  unfold Faulty Productive
  simp only [h.production_eq, h.rewrites_eq, h.derives_iff]

theorem Annotates.faulty_iff (h : g.Annotates g') : g'.Faulty pool s ↔ g.Faulty pool s := by
  unfold Faulty
  rw [h.production_eq, h.transGen_rewrites_iff, h.productive_iff]

namespace Checkable

theorem reportAll (h : g.Checkable pool) (ds : List Diagnostic) :
    (g.reportAll ds).Checkable pool where
  toComposed := h.toComposed.congr (.reportAll ds)
  numbered := (SameRules.reportAll ds).numbered h.numbered
  closed := h.closed.congr (.reportAll ds) fun _ => rfl
  sound := (SameRules.reportAll ds).flagsSound (fun _ => rfl) h.sound

theorem annotated (h : g.Checkable pool) (hannot : g.Annotates g') : g'.Checkable pool where
  toComposed := hannot.composed h.toComposed
  numbered := hannot.numbered h.numbered
  closed := hannot.closed h.closed
  sound := hannot.flagsSound h.sound

theorem circularProductions_reportAll (h : g.Checkable pool) (ds : List Diagnostic) :
    (g.reportAll ds).circularProductions = [] ↔
      ∀ s, ¬ Relation.TransGen (g.Rewrites pool) [.nonterminal s] [.nonterminal s] := by
  have hds := h.reportAll ds
  rw [hds.circularProductions_eq_nil_iff hds.closed hds.sound]
  simp only [(SameRules.reportAll ds).rewrites_eq]

theorem endlessSymbols_reportAll (h : g.Checkable pool) (hcomplete : g.Complete)
    (ds : List Diagnostic) :
    (g.reportAll ds).endlessSymbols = [] ↔ ∀ s ∈ g.nonterminals, g.Productive pool s := by
  have hds := h.reportAll ds
  have hrules : g.SameRules (g.reportAll ds) := .reportAll ds
  have hcomplete' : (g.reportAll ds).Complete := by
    simp only [Complete, hrules.nonterminals_eq, hrules.production_eq]
    exact hcomplete
  rw [hds.endlessSymbols_eq_nil_iff hds.numbered hcomplete', hrules.nonterminals_eq]
  simp only [Productive, hrules.derives_iff]

end Checkable

theorem missingProductions_eq_nil_iff : g.missingProductions = [] ↔ g.Complete := by
  unfold missingProductions Complete
  simp only [List.map_eq_nil_iff, List.filter_eq_nil_iff, Bool.not_eq_true,
    Option.isNone_eq_false_iff]

/-- The checks succeed exactly if no nonterminal is faulty. -/
theorem Checkable.checkAll_iff (h : g.Checkable pool) :
    g.checkAll.1 = true ↔ ∀ s ∈ g.nonterminals, ¬ g.Faulty pool s := by
  obtain ⟨ds, hsurveyed⟩ := g.surveyed_eq
  obtain ⟨ds', htraced⟩ := g.traced_eq
  rw [checkAll_fst_iff, hsurveyed, htraced, h.circularProductions_reportAll,
    missingProductions_eq_nil_iff]
  constructor
  · rintro ⟨hcomplete, hcircular, hendless⟩ s hs hfaulty
    rcases hfaulty with hnone | hself | hstuck
    · have hsome := hcomplete s hs
      rw [hnone] at hsome
      cases hsome
    · exact hcircular s hself
    · exact hstuck ((h.endlessSymbols_reportAll hcomplete ds').1 hendless s hs)
  · intro hsound
    have hcomplete : g.Complete := by
      intro s hs
      rw [Option.isSome_iff_ne_none]
      exact fun hnone => hsound s hs (.inl hnone)
    refine ⟨hcomplete, fun s hself => ?_, ?_⟩
    · -- only nonterminals are rewritten
      obtain ⟨β, hstep, _⟩ := Relation.TransGen.head'_iff.1 hself
      exact hsound s (rewrites_singleton hstep).1 (.inr (.inl hself))
    · rw [h.endlessSymbols_reportAll hcomplete ds']
      intro s hs
      by_contra hstuck
      exact hsound s hs (.inr (.inr hstuck))

/-! ## The analysed grammar -/

/-- The grammar as it comes to the checks. -/
def analysed (g : Grammar) : Grammar :=
  g.declareUnknown.2.fillAnys.numberPragmas.computeSets

theorem errors_computeDeletable (g : Grammar) :
    g.computeDeletable.diags.errors = g.diags.errors := by
  rw [diags_computeDeletable, Diagnostics.errors_append]
  refine Nat.add_eq_left.2 (Diagnostics.errors_of_warnings fun d hd => ?_)
  obtain ⟨s, _, rfl⟩ := List.mem_map.1 hd
  rfl

theorem errors_analysed (g : Grammar) : g.analysed.diags.errors = g.diags.errors := by
  rw [analysed, (computeSets_annotates _).diags_eq, errors_computeDeletable,
    g.prepared_annotates.diags_eq]

theorem nonterminals_analysed (g : Grammar) : g.analysed.nonterminals = g.nonterminals := by
  rw [analysed, (computeSets_annotates _).nonterminals_eq,
    (computeDeletable_sameRules _).nonterminals_eq, g.prepared_annotates.nonterminals_eq]

theorem faulty_analysed_iff : g.analysed.Faulty pool s ↔ g.Faulty pool s := by
  rw [analysed, (computeSets_annotates _).faulty_iff, (computeDeletable_sameRules _).faulty_iff,
    g.prepared_annotates.faulty_iff]

/-- Whatever flags are there when the analyses begin, if they are right all are when they end. -/
theorem Composed.checkable_analysed (h : g.Composed pool) (hnum : g.Numbered)
    (hflags : g.FlagsSound pool) : g.analysed.Checkable pool := by
  have hprepared := g.prepared_annotates
  have hcomposed := hprepared.composed h
  refine Checkable.annotated ?_ (computeSets_annotates _)
  exact
    { toComposed := hcomposed.congr (computeDeletable_sameRules _)
      numbered := (computeDeletable_sameRules _).numbered (hprepared.numbered hnum)
      closed := computeDeletable_closed
      sound := hcomposed.flagsSound_computeDeletable (hprepared.flagsSound hflags) }

end Grammar

/-! ## The outcome of a run -/

namespace Draft

variable {d : Draft} {pool : List Phrase} {options : Options}

/-- The draft whose grammar is analysed and checked. -/
def checked (d : Draft) : Draft :=
  { d with grammar := d.grammar.analysed.checkAll.2 }

theorem generate_of_errors (h : d.grammar.diags.errors ≠ 0) :
    d.generate options = (.error (.reader d.grammar.diags.errors), d.grammar) := by
  rw [generate, if_pos (Diagnostics.hasErrors_iff.2 (Nat.pos_of_ne_zero h))]

theorem generate_of_fault (h : d.grammar.diags.errors = 0)
    (hfault : d.grammar.analysed.checkAll.1 = false) :
    d.generate options = (.error .grammarNotOk, d.checked.grammar) := by
  have hnone : ¬ d.grammar.diags.hasErrors = true := by
    rw [Diagnostics.hasErrors_iff]
    omega
  rw [generate, if_neg hnone]
  unfold Grammar.analysed at hfault
  simp only [checked, Grammar.analysed, hfault, Bool.not_false, if_true]

/-- Behind the checks the scanner decides. -/
theorem generate_of_usable (options : Options) (h : d.grammar.diags.errors = 0)
    (hok : d.grammar.analysed.checkAll.1 = true) :
    (d.generate options).2 = (d.checked.generateScanner options).2 ∧
      ((∃ product, (d.generate options).1 = .ok product) ↔
        ∃ result, (d.checked.generateScanner options).1 = .ok result) ∧
      ∀ e, (d.generate options).1 = .error e ↔ (d.checked.generateScanner options).1 = .error e := by
  have hnone : ¬ d.grammar.diags.hasErrors = true := by
    rw [Diagnostics.hasErrors_iff]
    omega
  rw [generate, if_neg hnone]
  unfold Grammar.analysed at hok
  simp only [checked, Grammar.analysed, hok, Bool.not_true, Bool.false_eq_true, if_false]
  split <;> simp_all

/-- The scanner is refused exactly if it is asked for and there is an error when it is built. -/
theorem generateScanner_error_iff {e : Failure} : (d.generateScanner options).1 = .error e ↔
    options.scanner = true ∧ 0 < d.toScanner.2.diags.errors ∧
      e = .scanner d.toScanner.2.diags.errors := by
  unfold generateScanner
  split
  · next hscanner =>
    simp only
    split
    · next herrors =>
      rw [Diagnostics.hasErrors_iff] at herrors
      simp [hscanner, herrors, eq_comm]
    · next hnone =>
      rw [Diagnostics.hasErrors_iff] at hnone
      simp [hnone]
  · next hscanner => simp [hscanner]

theorem generateScanner_snd : (d.generateScanner options).2 =
    if options.scanner = true then d.toScanner.2 else d.grammar := by
  unfold generateScanner
  generalize d.toScanner = r
  split
  · dsimp only
    split <;> rfl
  · rfl

theorem exists_ok_iff {ε γ : Type} {x : Except ε γ} : (∃ a, x = .ok a) ↔ ∀ e, x ≠ .error e := by
  cases x <;> simp

theorem exists_generateScanner_iff (h : d.grammar.diags.errors = 0) :
    (∃ result, (d.generateScanner options).1 = .ok result) ↔
      (d.generateScanner options).2.diags.errors = 0 := by
  simp only [exists_ok_iff, ne_eq, generateScanner_error_iff, generateScanner_snd]
  split
  · next hscanner => simp [hscanner]
  · next hscanner => simp [hscanner, h]

theorem errors_checked_iff :
    d.checked.grammar.diags.errors = d.grammar.diags.errors ↔ d.grammar.analysed.checkAll.1 = true := by
  rw [Grammar.checkAll_fst_iff_errors, Grammar.errors_analysed, checked]

/-- The outcome of a run whose productions are put together from fragments.  It succeeds exactly if
there is no error in the end.  Errors that were there before stop it at once.  Without them, a faulty
nonterminal stops it; and if there is none, errors in the scanner, if one is asked for. -/
theorem generate_verdict (hg : d.grammar.Composed pool) (hnum : d.grammar.Numbered)
    (hflags : d.grammar.FlagsSound pool) (options : Options) :
    ((∃ product, (d.generate options).1 = .ok product) ↔
      (d.generate options).2.diags.errors = 0) ∧
    (∀ n, (d.generate options).1 = .error (.reader n) ↔ 0 < n ∧ d.grammar.diags.errors = n) ∧
    (∀ n, (d.generate options).1 = .error (.reader n) → (d.generate options).2 = d.grammar) ∧
    ((d.generate options).1 = .error .grammarNotOk ↔
      d.grammar.diags.errors = 0 ∧ ∃ s ∈ d.grammar.nonterminals, d.grammar.Faulty pool s) ∧
    ∀ n, (d.generate options).1 = .error (.scanner n) ↔
      d.grammar.diags.errors = 0 ∧ (∀ s ∈ d.grammar.nonterminals, ¬ d.grammar.Faulty pool s) ∧
        options.scanner = true ∧ 0 < n ∧
        d.checked.toScanner.2.diags.errors = d.checked.grammar.diags.errors + n := by
  by_cases herrors : d.grammar.diags.errors = 0
  · have husable := (hg.checkable_analysed hnum hflags).checkAll_iff
    simp only [Grammar.nonterminals_analysed, Grammar.faulty_analysed_iff] at husable
    have hchecked : d.checked.grammar.diags.errors = 0 ↔ d.grammar.analysed.checkAll.1 = true := by
      rw [← errors_checked_iff, herrors]
    cases hok : d.grammar.analysed.checkAll.1 with
    | false =>
      rw [hok] at husable hchecked
      have hfaulty : ∃ s ∈ d.grammar.nonterminals, d.grammar.Faulty pool s := by
        by_contra hnone
        simp only [not_exists, not_and] at hnone
        exact Bool.false_ne_true (husable.2 hnone)
      obtain ⟨s, hs, hfault⟩ := hfaulty
      rw [generate_of_fault herrors hok]
      refine ⟨by simpa using hchecked, fun n => ?_, by simp, ?_, fun n => ?_⟩
      · simp only [Except.error.injEq, reduceCtorEq, false_iff, not_and, herrors]
        omega
      · simpa [herrors] using ⟨s, hs, hfault⟩
      · simp only [Except.error.injEq, reduceCtorEq, false_iff, not_and]
        intro _ hsound
        exact absurd hfault (hsound s hs)
    | true =>
      rw [hok] at husable hchecked
      have hsound := husable.1 rfl
      have hnone : ¬ ∃ s ∈ d.grammar.nonterminals, d.grammar.Faulty pool s := by
        rintro ⟨s, hs, hfault⟩
        exact hsound s hs hfault
      have hclean := hchecked.2 rfl
      obtain ⟨hafter, hdone, hstop⟩ := generate_of_usable options herrors hok
      rw [hafter, hdone, exists_generateScanner_iff hclean]
      simp only [hstop, generateScanner_error_iff]
      refine ⟨trivial, fun n => ?_, by simp, ?_, fun n => ?_⟩
      · simp only [reduceCtorEq, and_false, false_iff, herrors]
        omega
      · simp only [reduceCtorEq, and_false, false_iff, not_and]
        exact fun _ => hnone
      · simp only [Failure.scanner.injEq, hclean, herrors, true_and, Nat.zero_add]
        constructor
        · rintro ⟨hscanner, hpos, hcount⟩
          rw [hcount]
          exact ⟨hsound, hscanner, hpos, rfl⟩
        · rintro ⟨_, hscanner, hpos, hcount⟩
          rw [hcount]
          exact ⟨hscanner, hpos, rfl⟩
  · have hpos : 0 < d.grammar.diags.errors := Nat.pos_of_ne_zero herrors
    rw [generate_of_errors herrors]
    refine ⟨by simpa using herrors, fun n => ?_, by simp, by simp [herrors], by simp [herrors]⟩
    simp only [Except.error.injEq, Failure.reader.injEq]
    omega

/-- Two productions that derive each other alone, without tokens. -/
def circling : Draft :=
  ⟨.initial, Grammar.circling⟩

/-- A run over them stops at the grammar. -/
theorem generate_verdict_circling :
    circling.grammar.Composed Grammar.circlingPhrases ∧
      (circling.generate {}).1 = .error .grammarNotOk ∧
      ∃ s ∈ circling.grammar.nonterminals, circling.grammar.Faulty Grammar.circlingPhrases s := by
  have hnum : ∀ s ∈ circling.grammar.nonterminals,
      circling.grammar.nonterminals[(circling.grammar.sym s).number]? = some s := by decide
  have hflags : circling.grammar.FlagsSound Grammar.circlingPhrases :=
    Grammar.flagsSound_of_forall (by decide)
  have hclean : circling.grammar.diags.errors = 0 := by decide
  have hfails : circling.grammar.analysed.checkAll.1 = false := by decide +kernel
  have hstop : (circling.generate {}).1 = .error .grammarNotOk := by
    rw [generate_of_fault hclean hfails]
  have hverdict := @generate_verdict circling _ Grammar.circling_composed hnum hflags {}
  obtain ⟨-, -, -, hfault, -⟩ := hverdict
  exact ⟨Grammar.circling_composed, hstop, (hfault.1 hstop).2⟩

end Draft

end Ebnf
