import Ebnf.Analysis.Deletable
import Ebnf.Declaration
import Ebnf.Proofs.Grammar.Derivation

/-!
# Deletable nonterminals are found

Going through the nonterminals until nothing changes flags exactly those that
derive the empty sentential form.  A flag is only set for a good reason, which is
kept round by round, and when a round changes nothing no further flag is due.

Main results:

- Theorem `Grammar.closed_closeDeletable`: there are enough rounds for all flags that
  are due.
- Theorem `Grammar.Composed.deletable_iff`: a nonterminal is flagged if it derives the
  empty form.
- Theorem `Grammar.diags_computeDeletable`: one warning is added for each flag, and all
  else stays.
- Theorem `Grammar.Composed.computeDeletable_exact`: where no flag was set before, the
  flags and the warnings are those of the nonterminals that derive the empty form.
-/

namespace Ebnf

namespace Grammar

variable {g g' g'' : Grammar} {pool : List Phrase} {e : Phrase} {s t : SymbolId} {p : NodeId}
  {α β : List Letter}

/-! ## Flagged letters -/

/-- The letter is a nonterminal that is flagged as deletable. -/
def Flagged (g : Grammar) : Letter → Prop
  | .nonterminal s => (g.sym s).deletable = true
  | _ => False

theorem leafDeletable_iff : g.leafDeletable p = true ↔ ∀ x ∈ g.letters p, g.Flagged x := by
  unfold leafDeletable letters
  cases (g.node p).kind <;> simp [Flagged]

theorem forall_leafDeletable_iff {ps : List NodeId} :
    (∀ p ∈ ps, g.leafDeletable p = true) ↔ ∀ x ∈ ps.flatMap g.letters, g.Flagged x := by
  simp only [leafDeletable_iff, List.mem_flatMap]
  exact ⟨fun h x ⟨p, hp, hx⟩ => h p hp x hx, fun h p hp x hx => h x ⟨p, hp, hx⟩⟩

/-! ## One step -/

/-- By the flags of the others, a nonterminal has to be flagged. -/
def Due (g : Grammar) (s : SymbolId) : Prop :=
  (g.sym s).production.isSome = true ∧ g.deletableChain (g.sym s).production = true

theorem flagDeletable_deletable : ((g.flagDeletable s).sym t).deletable = true ↔
    (g.sym t).deletable = true ∨ t = s ∧ s < g.symbols.size ∧ g.Due s := by
  unfold flagDeletable Due
  by_cases hcond : (!(g.sym s).deletable && (g.sym s).production.isSome &&
      g.deletableChain (g.sym s).production) = true
  · simp only [hcond, if_true, sym_modifySym]
    by_cases ht : t = s ∧ s < g.symbols.size
    · simp_all
    · simp only [if_neg ht]
      tauto
  · simp only [if_neg hcond]
    simp only [Bool.and_eq_true, Bool.not_eq_true'] at hcond
    constructor
    · exact .inl
    · rintro (h | ⟨rfl, -, hdue⟩)
      · exact h
      · by_contra hflag
        exact hcond ⟨⟨Bool.eq_false_of_not_eq_true hflag, hdue.1⟩, hdue.2⟩

theorem flagDeletable_sameRules (g : Grammar) (s : SymbolId) : g.SameRules (g.flagDeletable s) := by
  simp only [flagDeletable]
  split
  · exact .modifySym fun _ => rfl
  · exact .refl g

theorem flagAll_sameRules (ss : List SymbolId) (g : Grammar) :
    g.SameRules (ss.foldl flagDeletable g) :=
  .foldl flagDeletable_sameRules ss g

/-- Flags stay. -/
theorem flagAll_of_deletable (ss : List SymbolId) (h : (g.sym t).deletable = true) :
    ((ss.foldl flagDeletable g).sym t).deletable = true := by
  induction ss generalizing g with
  | nil => exact h
  | cons s ss ih => exact ih (flagDeletable_deletable.2 (.inl h))

/-- Only nonterminals that are gone through get a flag. -/
theorem mem_of_flagAll (ss : List SymbolId)
    (h : ((ss.foldl flagDeletable g).sym t).deletable = true) :
    (g.sym t).deletable = true ∨ t ∈ ss := by
  induction ss generalizing g with
  | nil => exact .inl h
  | cons s ss ih =>
    rcases ih h with h | h
    · rcases flagDeletable_deletable.1 h with h | ⟨rfl, _⟩
      · exact .inl h
      · exact .inr List.mem_cons_self
    · exact .inr (List.mem_cons_of_mem s h)

/-! ## Rounds -/

theorem deletable_eq_of_imp (h : ∀ t, (g.sym t).deletable = true → (g'.sym t).deletable = true)
    (h' : ∀ t, (g'.sym t).deletable = true → (g.sym t).deletable = true) (t : SymbolId) :
    (g'.sym t).deletable = (g.sym t).deletable :=
  Bool.eq_iff_iff.2 ⟨h' t, h t⟩

/-- No flag is due any more. -/
def Closed (g : Grammar) : Prop :=
  ∀ s ∈ g.nonterminals, g.Due s → (g.sym s).deletable = true

theorem Closed.congr (hclosed : g.Closed) (hrules : g.SameRules g')
    (hflags : ∀ s, (g'.sym s).deletable = (g.sym s).deletable) : g'.Closed := by
  intro s hs hdue
  rw [hrules.nonterminals_eq] at hs
  unfold Due at hdue
  rw [hrules.production_eq, (hrules.agrees hflags).deletableChain_eq] at hdue
  rw [hflags]
  exact hclosed s hs hdue

/-- Where a round sets no flag, none was due. -/
theorem deletable_of_due (ss : List SymbolId)
    (hsame : ∀ t, ((ss.foldl flagDeletable g).sym t).deletable = (g.sym t).deletable)
    (hs : s ∈ ss) (hlt : s < g.symbols.size) (hdue : g.Due s) : (g.sym s).deletable = true := by
  induction ss generalizing g with
  | nil => cases hs
  | cons r ss ih =>
    -- the flags after the first step lie between those before and after the round
    have hfirst : ∀ t, ((g.flagDeletable r).sym t).deletable = (g.sym t).deletable :=
      deletable_eq_of_imp (fun t h => flagDeletable_deletable.2 (.inl h))
        fun t h => (hsame t).symm.trans (flagAll_of_deletable ss h)
    rcases List.mem_cons.1 hs with rfl | hs
    · rw [← hfirst]
      exact flagDeletable_deletable.2 (.inr ⟨rfl, hlt, hdue⟩)
    · have hrules := g.flagDeletable_sameRules r
      rw [← hfirst]
      refine ih (fun t => (hsame t).trans (hfirst t).symm) hs (hlt.trans_eq hrules.symbols_size_eq.symm) ?_
      unfold Due
      rwa [hrules.production_eq, (hrules.agrees hfirst).deletableChain_eq]

theorem closed_of_length_eq
    (h : (g.nonterminals.foldl flagDeletable g).deletables.length = g.deletables.length) :
    (g.nonterminals.foldl flagDeletable g).Closed := by
  have hrules := flagAll_sameRules g.nonterminals g
  generalize hround : g.nonterminals.foldl flagDeletable g = g' at h hrules
  have hgrow : ∀ t, (g.sym t).deletable = true → (g'.sym t).deletable = true :=
    fun t ht => hround ▸ flagAll_of_deletable g.nonterminals ht
  have hsub : g.deletables.Sublist g'.deletables := by
    unfold deletables
    rw [hrules.nonterminals_eq]
    exact List.monotone_filter_right _ hgrow
  have hlist := hsub.eq_of_length h.symm
  have hsame : ∀ t, (g'.sym t).deletable = (g.sym t).deletable := by
    refine deletable_eq_of_imp hgrow fun t ht => ?_
    rcases mem_of_flagAll g.nonterminals (hround ▸ ht) with h | hmem
    · exact h
    · have ht' : t ∈ g'.deletables := List.mem_filter.2 ⟨by rwa [hrules.nonterminals_eq], ht⟩
      rw [← hlist] at ht'
      exact (List.mem_filter.1 ht').2
  refine Closed.congr (fun s hs hdue => ?_) hrules hsame
  subst hround
  exact deletable_of_due g.nonterminals hsame hs (mem_nonterminals.1 hs).1 hdue

/-- Each round but the last sets a flag, so that there are enough of them. -/
theorem closed_closeDeletable {fuel : Nat}
    (hfuel : g.nonterminals.length < g.deletables.length + fuel) :
    (closeDeletable fuel g).Closed := by
  induction fuel generalizing g with
  | zero => exact absurd (List.length_filter_le _ _) (Nat.not_le.2 hfuel)
  | succ fuel ih =>
    rw [closeDeletable]
    split
    · next h => exact closed_of_length_eq h
    · next h =>
      refine ih ?_
      have hrules := flagAll_sameRules g.nonterminals g
      have hle : g.deletables.length ≤ (g.nonterminals.foldl flagDeletable g).deletables.length := by
        unfold deletables
        rw [hrules.nonterminals_eq]
        exact (List.monotone_filter_right _ fun t => flagAll_of_deletable g.nonterminals).length_le
      rw [hrules.nonterminals_eq]
      omega

theorem closeDeletable_sameRules (fuel : Nat) (g : Grammar) :
    g.SameRules (closeDeletable fuel g) := by
  induction fuel generalizing g with
  | zero => exact .refl g
  | succ fuel ih =>
    rw [closeDeletable]
    split
    · exact flagAll_sameRules g.nonterminals g
    · exact (flagAll_sameRules g.nonterminals g).trans (ih _)

/-- The flags are closed in enough rounds; the rest of the analysis only reports. -/
theorem exists_computeDeletable_eq (g : Grammar) : ∃ fuel ds, g.nonterminals.length < fuel ∧
    g.computeDeletable = (closeDeletable fuel g).reportAll ds :=
  ⟨_, _, Nat.lt_succ_self _, rfl⟩

theorem computeDeletable_sameRules (g : Grammar) : g.SameRules g.computeDeletable := by
  obtain ⟨fuel, ds, -, heq⟩ := g.exists_computeDeletable_eq
  rw [heq]
  exact (closeDeletable_sameRules fuel g).trans (.reportAll ds)

theorem computeDeletable_closed : g.computeDeletable.Closed := by
  obtain ⟨fuel, ds, hfuel, heq⟩ := g.exists_computeDeletable_eq
  rw [heq]
  have hclosed : (closeDeletable fuel g).Closed := closed_closeDeletable (by omega)
  exact hclosed.congr (.reportAll ds) fun _ => rfl

/-! ## Flags and derivations -/

/-- Flagged nonterminals derive the empty form. -/
def FlagsSound (g : Grammar) (pool : List Phrase) : Prop :=
  ∀ s, (g.sym s).deletable = true → g.Derives pool [.nonterminal s] []

/-- Before the analysis no symbol is flagged. -/
theorem flagsSound_of_forall (h : ∀ sym ∈ g.symbols, sym.deletable = false) : g.FlagsSound pool := by
  intro s hs
  unfold sym at hs
  by_cases hlt : s < g.symbols.size
  · rw [Array.getD_eq_getD_getElem?, Array.getElem?_eq_getElem hlt, Option.getD_some,
      h _ (Array.getElem_mem hlt)] at hs
    cases hs
  · rw [Array.getD_eq_getD_getElem?, Array.getElem?_eq_none (Nat.not_lt.1 hlt)] at hs
    cases hs

namespace Composed

/-- A nonterminal whose flag is due derives the empty form. -/
theorem derives_nil_of_due (h : g.Composed pool) (hflags : g.FlagsSound pool)
    (hs : s ∈ g.nonterminals) (hdue : g.Due s) : g.Derives pool [.nonterminal s] [] := by
  obtain ⟨p, hp⟩ := Option.isSome_iff_exists.1 hdue.1
  obtain ⟨e, he, rfl⟩ := h.production s hs p hp
  have hdel := hdue.2
  rw [hp, h.deletableChain_entry he, Phrase.nullable_iff] at hdel
  obtain ⟨ps, hps, hall⟩ := hdel
  refine (Derives.expand hs he hp hps).trans (Derives.nil_of_forall fun x hx => ?_)
  have hx := forall_leafDeletable_iff.1 hall x hx
  cases x with
  | nonterminal t => exact hflags t hx
  | _ => exact hx.elim

theorem flagsSound_flagDeletable (h : g.Composed pool) (hflags : g.FlagsSound pool)
    (hs : s ∈ g.nonterminals) : (g.flagDeletable s).FlagsSound pool := by
  intro t ht
  rw [(g.flagDeletable_sameRules s).derives_iff]
  rcases flagDeletable_deletable.1 ht with ht | ⟨rfl, _, hdue⟩
  · exact hflags t ht
  · exact h.derives_nil_of_due hflags hs hdue

theorem flagsSound_flagAll (ss : List SymbolId) (h : g.Composed pool) (hflags : g.FlagsSound pool)
    (hss : ∀ s ∈ ss, s ∈ g.nonterminals) : (ss.foldl flagDeletable g).FlagsSound pool := by
  induction ss generalizing g with
  | nil => exact hflags
  | cons s ss ih =>
    obtain ⟨hs, hss⟩ := List.forall_mem_cons.1 hss
    have hrules := g.flagDeletable_sameRules s
    refine ih (h.congr hrules) (h.flagsSound_flagDeletable hflags hs) ?_
    rwa [hrules.nonterminals_eq]

theorem flagsSound_closeDeletable (fuel : Nat) (h : g.Composed pool) (hflags : g.FlagsSound pool) :
    (closeDeletable fuel g).FlagsSound pool := by
  induction fuel generalizing g with
  | zero => exact hflags
  | succ fuel ih =>
    have hround := h.flagsSound_flagAll g.nonterminals hflags fun _ hs => hs
    rw [closeDeletable]
    split
    · exact hround
    · exact ih (h.congr (flagAll_sameRules g.nonterminals g)) hround

/-- Before a step to flagged letters only there were flagged letters only. -/
theorem flagged_of_rewrites (h : g.Composed pool) (hclosed : g.Closed)
    (hstep : g.Rewrites pool α β) (hβ : ∀ x ∈ β, g.Flagged x) : ∀ x ∈ α, g.Flagged x := by
  cases hstep with
  | @expand s e ps α β hs he hprod hps =>
    simp only [List.forall_mem_append] at hβ
    have hdue : g.Due s := by
      refine ⟨Option.isSome_iff_exists.2 ⟨_, hprod⟩, ?_⟩
      rw [hprod, h.deletableChain_entry he, Phrase.nullable_iff]
      exact ⟨ps, hps, forall_leafDeletable_iff.2 hβ.1.2⟩
    exact List.forall_mem_append.2 ⟨hβ.1.1, List.forall_mem_cons.2 ⟨hclosed s hs hdue, hβ.2⟩⟩
  | choose α β hp hn => exact (hβ _ (List.mem_append_right _ List.mem_cons_self)).elim

theorem flagged_of_derives (h : g.Composed pool) (hclosed : g.Closed)
    (hderives : g.Derives pool α []) : ∀ x ∈ α, g.Flagged x := by
  induction hderives using Relation.ReflTransGen.head_induction_on with
  | refl => simp
  | head hstep _ ih => exact h.flagged_of_rewrites hclosed hstep ih

theorem flagsSound_computeDeletable (h : g.Composed pool) (hflags : g.FlagsSound pool) :
    g.computeDeletable.FlagsSound pool := by
  obtain ⟨fuel, ds, -, heq⟩ := g.exists_computeDeletable_eq
  rw [heq]
  intro s hs
  rw [(SameRules.reportAll ds).derives_iff]
  exact h.flagsSound_closeDeletable fuel hflags s hs

/-- After going through the nonterminals, those that derive the empty form are flagged. -/
theorem deletable_iff (h : g.Composed pool) (hflags : g.FlagsSound pool) :
    (g.computeDeletable.sym s).deletable = true ↔ g.Derives pool [.nonterminal s] [] := by
  have hrules := g.computeDeletable_sameRules
  rw [← hrules.derives_iff]
  constructor
  · exact h.flagsSound_computeDeletable hflags s
  · intro hderives
    exact (h.congr hrules).flagged_of_derives computeDeletable_closed hderives _ List.mem_cons_self

end Composed

/-! ## What is reported -/

/-- The symbols of the two grammars differ in their flags only, and nothing is reported. -/
structure Reflags (g g' : Grammar) : Prop where
  sym_eq : ∀ s, g'.sym s = { g.sym s with deletable := (g'.sym s).deletable }
  diags_eq : g'.diags = g.diags

namespace Reflags

theorem refl (g : Grammar) : g.Reflags g :=
  ⟨fun _ => rfl, rfl⟩

theorem line_eq (h : g.Reflags g') (s : SymbolId) : (g'.sym s).line = (g.sym s).line := by
  rw [h.sym_eq s]

theorem name_eq (h : g.Reflags g') (s : SymbolId) : (g'.sym s).name = (g.sym s).name := by
  rw [h.sym_eq s]

theorem trans (h : g.Reflags g') (h' : g'.Reflags g'') : g.Reflags g'' where
  sym_eq s := (h'.sym_eq s).trans (by rw [h.sym_eq s])
  diags_eq := h'.diags_eq.trans h.diags_eq

theorem flagDeletable (g : Grammar) (s : SymbolId) : g.Reflags (g.flagDeletable s) := by
  simp only [Grammar.flagDeletable]
  split
  · refine ⟨fun t => ?_, rfl⟩
    rw [sym_modifySym]
    split <;> rfl
  · exact refl g

theorem flagAll (ss : List SymbolId) (g : Grammar) :
    g.Reflags (ss.foldl Grammar.flagDeletable g) := by
  induction ss generalizing g with
  | nil => exact refl g
  | cons s ss ih => exact (flagDeletable g s).trans (ih _)

theorem closeDeletable (fuel : Nat) (g : Grammar) :
    g.Reflags (Grammar.closeDeletable fuel g) := by
  induction fuel generalizing g with
  | zero => exact refl g
  | succ fuel ih =>
    rw [Grammar.closeDeletable]
    split
    · exact flagAll _ g
    · exact (flagAll _ g).trans (ih _)

end Reflags

/-- One warning is added for each flagged nonterminal, and all else of the symbols stays. -/
theorem diags_computeDeletable (g : Grammar) :
    g.computeDeletable.diags = g.diags ++ g.computeDeletable.deletables.map fun s =>
      .warningOn (g.sym s).line (.deletable (g.sym s).name) := by
  have hflags := Reflags.closeDeletable (g.nonterminals.length + 1) g
  unfold computeDeletable reportAll
  simp only [hflags.diags_eq, hflags.line_eq, hflags.name_eq]
  rfl

/-- Where no flag was set before, exactly the nonterminals that derive the empty form are flagged, and
there is one warning about each of them, in the order of the nonterminals. -/
theorem Composed.computeDeletable_exact (h : g.Composed pool)
    (hnone : ∀ sym ∈ g.symbols, sym.deletable = false) :
    (∀ s, (g.computeDeletable.sym s).deletable = true ↔ g.Derives pool [.nonterminal s] []) ∧
    g.computeDeletable.diags = g.diags ++
      (g.nonterminalsWhere fun s => g.Derives pool [.nonterminal s] []).map fun s =>
        .warningOn (g.sym s).line (.deletable (g.sym s).name) := by
  have hiff : ∀ s, (g.computeDeletable.sym s).deletable = true ↔
      g.Derives pool [.nonterminal s] [] := fun s => h.deletable_iff (flagsSound_of_forall hnone)
  refine ⟨hiff, ?_⟩
  rw [diags_computeDeletable, deletables, g.computeDeletable_sameRules.nonterminals_eq,
    filter_nonterminals fun s _ => hiff s]

/-! ## Nonterminals that delete each other -/

/-- The productions `S = A x`, `A = [ B ]` and `B = ( A | b )`. -/
def vanishing : Grammar :=
  let g := (initial.declareProduction "S" (.seq (.nonterminal "A") [.terminal "x"]) 1).2.2
  let g := (g.declareProduction "A" (.opt (.nonterminal "B")) 2).2.2
  (g.declareProduction "B" (.alt (.nonterminal "A") [.terminal "b"]) 3).2.2

/-- The phrases of the productions. -/
def vanishingPhrases : List Phrase :=
  [.alt 6 (.leaf 4) (.arm 7 (.leaf 5)), .opt 3 (.leaf 2), .seq (.leaf 0) (.leaf 1)]

theorem vanishing_composed : vanishing.Composed vanishingPhrases := by
  have hterminal : ∀ s, (NodeKind.terminal s).isLeaf = true := fun _ => rfl
  have hsymbol : ∀ s, (NodeKind.nonterminal s).isLeaf = true := fun _ => rfl
  have hA := (Assembled.start (initial.declareSymbol .nonterminal "A" 1).2).leaf (hsymbol 1) 1 none
  have hx := (hA.declareSymbol .terminal "x" 1).leaf (hterminal 2) 1 none
  have hS := ((hx.perm (.swap _ _ [])).sequence.declareSymbol .nonterminal "S" 1).declareSymbol
    .nonterminal "B" 2
  have hB := (hS.leaf (hsymbol 4) 2 none).option.leaf (hsymbol 1) 3 none
  have hb := (hB.declareSymbol .terminal "b" 3).leaf (hterminal 5) 3 none
  have harms := (hb.perm (.swap _ _ _)).firstArm.addArm rfl
  have hall : Assembled vanishing vanishingPhrases := harms.declare (by decide) (by decide)
  exact ⟨hall, by decide, by decide⟩

/-- `A` and `B` derive the empty form by way of each other, and `S` does not. -/
theorem Composed.computeDeletable_exact_vanishing :
    vanishing.Composed vanishingPhrases ∧ (∀ sym ∈ vanishing.symbols, sym.deletable = false) ∧
      vanishing.Derives vanishingPhrases [.nonterminal 4] [] ∧
      ¬ vanishing.Derives vanishingPhrases [.nonterminal 3] [] ∧
      ((vanishing.nonterminalsWhere fun s => vanishing.Derives vanishingPhrases [.nonterminal s] []).map
        fun s => Diagnostic.warningOn (vanishing.sym s).line (.deletable (vanishing.sym s).name)) =
          [.warningOn 1 (.deletable "A"), .warningOn 2 (.deletable "B")] := by
  have hnone : ∀ sym ∈ vanishing.symbols, sym.deletable = false := by decide
  have hfound : vanishing.computeDeletable.diags =
      [.warningOn 1 (.deletable "A"), .warningOn 2 (.deletable "B")] := by decide
  obtain ⟨hflags, hdiags⟩ := vanishing_composed.computeDeletable_exact hnone
  refine ⟨vanishing_composed, hnone, (hflags 4).1 (by decide), fun h => ?_, ?_⟩
  · exact absurd ((hflags 3).2 h) (by decide)
  · exact hdiags.symm.trans hfound

end Grammar

end Ebnf
