import Ebnf.Analysis
import Ebnf.Proofs.Analysis.Deletable
import Ebnf.Proofs.Analysis.Narrow

/-!
# What the analyses leave alone

Before the symbol sets are computed, a terminal is declared for unknown text, the
sets of leaves that stand for any terminal are filled, and pragmas get numbers.
The analyses of start, follow and synchronisation sets then note their results in
symbols and nodes.  None of this changes productions, flags or diagnostics, and
so the same nonterminals derive themselves, nothing, or forms without
nonterminals.

Main results:

- Theorem `Grammar.Annotates.derives`: a derivation goes through in the other grammar
  as long as terminals are not told apart.
- Theorems `Grammar.prepared_annotates` and `Grammar.computeSets_annotates`: all passes
  but the one that flags deletable nonterminals only annotate.
-/

namespace Ebnf

namespace Grammar

variable {g g' g'' : Grammar} {pool : List Phrase} {s t : SymbolId} {p : NodeId}
  {α β α' : List Letter}

/-- The two grammars have the same productions, flags and diagnostics; sets, and what is declared
besides nonterminals, may differ. -/
structure Annotates (g g' : Grammar) : Prop extends g.Agrees g' where
  state_eq : ∀ p, (g'.node p).state = (g.node p).state
  nonterminals_eq : g'.nonterminals = g.nonterminals
  production_eq : ∀ s, (g'.sym s).production = (g.sym s).production
  number_eq : ∀ s ∈ g.nonterminals, (g'.sym s).number = (g.sym s).number
  diags_eq : g'.diags = g.diags

/-- A form that has the nonterminals of a single one is this nonterminal alone. -/
theorem eq_singleton_of_references
    (h : α.map Letter.reference? = [Letter.nonterminal t].map Letter.reference?) :
    α = [.nonterminal t] := by
  obtain ⟨x, rest, rfl, hx, hrest⟩ := List.map_eq_cons_iff.1 h
  rw [List.map_eq_nil_iff.1 hrest]
  cases x with
  | nonterminal s => rw [Option.some.inj hx]
  | _ => cases hx

namespace Annotates

theorem refl (g : Grammar) : g.Annotates g :=
  ⟨⟨rfl, fun _ => rfl, fun _ => rfl⟩, fun _ => rfl, rfl, fun _ => rfl, fun _ _ => rfl, rfl⟩

theorem trans (h : g.Annotates g') (h' : g'.Annotates g'') : g.Annotates g'' where
  size_eq := h'.size_eq.trans h.size_eq
  links_eq p := (h'.links_eq p).trans (h.links_eq p)
  deletable_eq s := (h'.deletable_eq s).trans (h.deletable_eq s)
  state_eq p := (h'.state_eq p).trans (h.state_eq p)
  nonterminals_eq := h'.nonterminals_eq.trans h.nonterminals_eq
  production_eq s := (h'.production_eq s).trans (h.production_eq s)
  number_eq s hs := by
    have hs' : s ∈ g'.nonterminals := by rwa [h.nonterminals_eq]
    exact (h'.number_eq s hs').trans (h.number_eq s hs)
  diags_eq := h'.diags_eq.trans h.diags_eq

theorem symm (h : g.Annotates g') : g'.Annotates g where
  size_eq := h.size_eq.symm
  links_eq p := (h.links_eq p).symm
  deletable_eq s := (h.deletable_eq s).symm
  state_eq p := (h.state_eq p).symm
  nonterminals_eq := h.nonterminals_eq.symm
  production_eq s := (h.production_eq s).symm
  number_eq s hs := (h.number_eq s (h.nonterminals_eq ▸ hs)).symm
  diags_eq := h.diags_eq.symm

/-- A result is noted in a symbol. -/
theorem modifySym {f : Symbol → Symbol}
    (hf : ∀ sym, (f sym).kind = sym.kind ∧ (f sym).production = sym.production ∧
      (f sym).deletable = sym.deletable)
    (hnumber : s ∈ g.nonterminals → ∀ sym, (f sym).number = sym.number) :
    g.Annotates (g.modifySym s f) where
  size_eq := rfl
  links_eq _ := rfl
  deletable_eq _ := modifySym_keeps Symbol.deletable fun sym => (hf sym).2.2
  state_eq _ := rfl
  nonterminals_eq := by
    have hkind : ∀ t, ((g.modifySym s f).sym t).kind = (g.sym t).kind :=
      fun t => modifySym_keeps Symbol.kind fun sym => (hf sym).1
    simp only [nonterminals, ofKind, size_modifySym, hkind]
  production_eq _ := modifySym_keeps Symbol.production fun sym => (hf sym).2.1
  number_eq t ht := by
    by_cases hts : t = s
    · exact modifySym_keeps Symbol.number (hnumber (hts ▸ ht))
    · rw [sym_modifySym_of_ne hts]
  diags_eq := rfl

/-- A result is noted in a node. -/
theorem modifyNode {f : Node → Node} (hf : ∀ n, (f n).links = n.links ∧ (f n).state = n.state) :
    g.Annotates (g.modifyNode p f) where
  size_eq := size_modifyNode
  links_eq q := by
    rw [node_modifyNode]
    split
    · exact (hf _).1
    · rfl
  deletable_eq _ := rfl
  state_eq q := by
    rw [node_modifyNode]
    split
    · exact (hf _).2
    · rfl
  nonterminals_eq := rfl
  production_eq _ := rfl
  number_eq _ _ := rfl
  diags_eq := rfl

/-- Steps that only annotate do so one after the other. -/
theorem foldl {γ : Type} {step : Grammar → γ → Grammar} {cs : List γ}
    (hstep : ∀ g', g.Annotates g' → ∀ c ∈ cs, g'.Annotates (step g' c)) :
    g.Annotates (cs.foldl step g) :=
  List.foldlRecOn cs step (motive := fun g' => g.Annotates g') (refl g)
    fun g' h c hc => h.trans (hstep g' h c hc)

/-! ## What depends on productions and flags -/

variable (h : g.Annotates g')
include h

theorem composed (hg : g.Composed pool) : g'.Composed pool where
  assembled := hg.assembled.declare (Nat.le_of_eq h.size_eq.symm) fun _ _ p _ =>
    ⟨h.links_eq p, h.state_eq p⟩
  production := by
    simp only [h.nonterminals_eq, h.production_eq]
    exact hg.production
  refers := by
    simp only [h.nonterminals_eq, h.kind_eq]
    exact hg.refers

theorem numbered (hg : g.Numbered) : g'.Numbered := by
  intro s hs
  rw [h.nonterminals_eq] at hs ⊢
  rw [h.number_eq s hs]
  exact hg s hs

theorem closed (hg : g.Closed) : g'.Closed := by
  intro s hs hdue
  rw [h.nonterminals_eq] at hs
  rw [h.deletable_eq]
  refine hg s hs ?_
  unfold Due at hdue
  rwa [h.production_eq, h.deletableChain_eq] at hdue

/-! ## Derivations -/

theorem letters_references (p : NodeId) :
    (g'.letters p).map Letter.reference? = (g.letters p).map Letter.reference? := by
  unfold letters
  rw [h.kind_eq]
  cases (g.node p).kind <;> rfl

/-- A step goes through from every form with the same nonterminals. -/
theorem rewrites (hstep : g.Rewrites pool α β)
    (hα : α'.map Letter.reference? = α.map Letter.reference?) :
    ∃ β', g'.Derives pool α' β' ∧ β'.map Letter.reference? = β.map Letter.reference? := by
  cases hstep with
  | @expand s e ps γ δ hs he hprod hps =>
    rw [List.map_append, List.map_cons] at hα
    obtain ⟨γ', rest, rfl, hγ, hrest⟩ := List.map_eq_append_iff.1 hα
    obtain ⟨x, δ', rfl, hx, hδ⟩ := List.map_eq_cons_iff.1 hrest
    cases x with
    | nonterminal t =>
      obtain rfl : t = s := Option.some.inj hx
      rw [← h.nonterminals_eq] at hs
      rw [← h.production_eq] at hprod
      refine ⟨_, .single (.expand γ' δ' hs he hprod hps), ?_⟩
      simp only [List.map_append, hγ, hδ, List.map_flatMap, h.letters_references]
    | _ => cases hx
  | choose γ δ hp hn =>
    refine ⟨α', .refl, hα.trans ?_⟩
    simp [Letter.reference?]

/-- A derivation goes through in the other grammar, from every form with the same nonterminals. -/
theorem derives (hderives : g.Derives pool α β)
    (hα : α'.map Letter.reference? = α.map Letter.reference?) :
    ∃ β', g'.Derives pool α' β' ∧ β'.map Letter.reference? = β.map Letter.reference? := by
  induction hderives with
  | refl => exact ⟨α', .refl, hα⟩
  | tail _ hstep ih =>
    obtain ⟨β', hfirst, hβ⟩ := ih
    obtain ⟨γ', hlast, hγ⟩ := h.rewrites hstep hβ
    exact ⟨γ', hfirst.trans hlast, hγ⟩

theorem flagsSound (hg : g.FlagsSound pool) : g'.FlagsSound pool := by
  intro s hs
  rw [h.deletable_eq] at hs
  obtain ⟨β, hβ, hnil⟩ := h.derives (hg s hs) rfl
  rwa [List.map_eq_nil_iff.1 hnil] at hβ

theorem productive (hg : g.Productive pool s) : g'.Productive pool s := by
  obtain ⟨α, hα, hfree⟩ := hg
  obtain ⟨β, hβ, hsame⟩ := h.derives hα rfl
  refine ⟨β, hβ, fun x hx => ?_⟩
  have hmem : x.reference? ∈ α.map Letter.reference? := hsame ▸ List.mem_map_of_mem hx
  obtain ⟨y, hy, heq⟩ := List.mem_map.1 hmem
  rw [← heq]
  exact hfree y hy

/-- A nonterminal derives another one alone in both grammars. -/
theorem transGen_rewrites
    (hg : Relation.TransGen (g.Rewrites pool) [.nonterminal s] [.nonterminal t]) :
    Relation.TransGen (g'.Rewrites pool) [.nonterminal s] [.nonterminal t] := by
  obtain ⟨β, hstep, hrest⟩ := Relation.TransGen.head'_iff.1 hg
  obtain ⟨hs, e, he, hprod, ps, hps, rfl⟩ := rewrites_singleton hstep
  rw [← h.nonterminals_eq] at hs
  rw [← h.production_eq] at hprod
  have hfirst : g'.Rewrites pool [.nonterminal s] (ps.flatMap g'.letters) := by
    simpa using Rewrites.expand [] [] hs he hprod hps
  have hsame : (ps.flatMap g'.letters).map Letter.reference? =
      (ps.flatMap g.letters).map Letter.reference? := by
    simp only [List.map_flatMap, h.letters_references]
  obtain ⟨β, hβ, hsingle⟩ := h.derives hrest hsame
  rw [eq_singleton_of_references hsingle] at hβ
  exact .head' hfirst hβ

theorem transGen_rewrites_iff :
    Relation.TransGen (g'.Rewrites pool) [.nonterminal s] [.nonterminal t] ↔
      Relation.TransGen (g.Rewrites pool) [.nonterminal s] [.nonterminal t] :=
  ⟨h.symm.transGen_rewrites, h.transGen_rewrites⟩

theorem productive_iff : g'.Productive pool s ↔ g.Productive pool s :=
  ⟨h.symm.productive, h.productive⟩

end Annotates

/-! ## Preparation -/

/-- The symbol for unknown text is added behind the others. -/
theorem declareUnknown_eq : g.declareUnknown.2 =
    { g with
      symbols := g.symbols.push
        { kind := .terminal, name := "???", number := g.terminals.length, line := 0 }
      unknown := some g.symbols.size } := by
  have hname : ("???" : String) ≠ "\"\"" := by decide
  simp only [declareUnknown, declareSymbol, if_neg hname, nextNumber]

theorem sym_declareUnknown : g.declareUnknown.2.sym t = if t = g.symbols.size then
    { kind := .terminal, name := "???", number := g.terminals.length, line := 0 } else g.sym t := by
  rw [declareUnknown_eq]
  exact @sym_push g t _ g.diags

/-- The new symbol has no production and no flag, as one that is not there. -/
theorem declareUnknown_keeps {γ : Type} (field : Symbol → γ)
    (hnew : field { kind := .terminal, name := "???", number := g.terminals.length, line := 0 } =
      field default) : field (g.declareUnknown.2.sym t) = field (g.sym t) := by
  rw [sym_declareUnknown]
  split
  · next ht =>
    have hnone : g.sym t = default := by simp [sym, ht]
    rw [hnone, hnew]
  · rfl

theorem nonterminals_declareUnknown : g.declareUnknown.2.nonterminals = g.nonterminals := by
  rw [declareUnknown_eq]
  exact (@nonterminals_push g { kind := .terminal, name := "???", number := g.terminals.length, line := 0 }
    g.diags).trans (List.append_nil _)

theorem declareUnknown_annotates (g : Grammar) : g.Annotates g.declareUnknown.2 where
  size_eq := by rw [declareUnknown_eq]
  links_eq p := by rw [declareUnknown_eq]; rfl
  deletable_eq _ := declareUnknown_keeps Symbol.deletable rfl
  state_eq p := by rw [declareUnknown_eq]; rfl
  nonterminals_eq := nonterminals_declareUnknown
  production_eq _ := declareUnknown_keeps Symbol.production rfl
  number_eq s hs := by
    have hlt := (mem_nonterminals.1 hs).1
    rw [sym_declareUnknown, if_neg (Nat.ne_of_lt hlt)]
  diags_eq := by rw [declareUnknown_eq]

theorem fillAnys_annotates (g : Grammar) : g.Annotates g.fillAnys := by
  have hnode : ∀ p, (g.fillAnys.node p).links = (g.node p).links ∧
      (g.fillAnys.node p).state = (g.node p).state := by
    intro p
    simp only [node, fillAnys, Array.getD_eq_getD_getElem?, Array.getElem?_map]
    cases g.nodes[p]? with
    | none => exact ⟨rfl, rfl⟩
    | some n =>
      simp only [Option.map_some, Option.getD_some]
      split <;> exact ⟨rfl, rfl⟩
  exact ⟨⟨Array.size_map, fun p => (hnode p).1, fun _ => rfl⟩, fun p => (hnode p).2, rfl,
    fun _ => rfl, fun _ _ => rfl, rfl⟩

theorem numberPragmas_annotates (g : Grammar) : g.Annotates g.numberPragmas := by
  refine .foldl fun g' h entry hentry => .modifySym (fun _ => ⟨rfl, rfl, rfl⟩) fun hs => ?_
  -- no pragma is a nonterminal
  have hpragma := (mem_ofKind.1 (List.fst_mem_of_mem_zipIdx hentry)).2
  rw [h.nonterminals_eq] at hs
  rw [(mem_nonterminals.1 hs).2] at hpragma
  cases hpragma

theorem prepared_annotates (g : Grammar) :
    g.Annotates g.declareUnknown.2.fillAnys.numberPragmas :=
  (g.declareUnknown_annotates.trans (fillAnys_annotates _)).trans (numberPragmas_annotates _)

/-! ## Start sets and ANY sets -/

theorem computeFirsts_annotates (g : Grammar) : g.Annotates g.computeFirsts := by
  have hclear : g.Annotates (g.nonterminals.foldl
      (fun g s => g.modifySym s fun sym => { sym with first := ∅, firstKnown := false }) g) :=
    .foldl fun _ _ _ _ => .modifySym (fun _ => ⟨rfl, rfl, rfl⟩) fun _ _ => rfl
  refine hclear.trans (.foldl fun _ _ _ _ => ?_)
  exact .modifySym (fun _ => ⟨rfl, rfl, rfl⟩) fun _ _ => rfl

theorem narrow_annotates (g : Grammar) (any : NodeId) (set : BitSet) :
    g.Annotates (g.narrow any set) :=
  .modifyNode fun _ => ⟨rfl, rfl⟩

theorem Narrows.annotates {nodes : NodeId → Prop} (h : Narrows nodes g g') : g.Annotates g' := by
  induction h with
  | refl => exact .refl g
  | tail _ hstep ih =>
    obtain ⟨any, _, _, set, rfl⟩ := hstep
    exact ih.trans (narrow_annotates _ any set)

theorem computeAnys_annotates (g : Grammar) : g.Annotates g.computeAnys :=
  g.computeAnys_narrows.annotates

/-! ## Follow sets and synchronisation sets -/

theorem clearFollow_annotates (g : Grammar) : g.Annotates g.clearFollow := by
  have hclear : g.Annotates (g.nonterminals.foldl
      (fun g s => g.modifySym s fun sym => { sym with follow := ∅, inherits := ∅ }) g) :=
    .foldl fun _ _ _ _ => .modifySym (fun _ => ⟨rfl, rfl, rfl⟩) fun _ _ => rfl
  unfold clearFollow
  simp only
  split
  · exact hclear.trans (.modifySym (fun _ => ⟨rfl, rfl, rfl⟩) fun _ _ => rfl)
  · exact hclear

theorem followNode_annotates (g : Grammar) (cur : SymbolId) (p : NodeId) :
    g.Annotates (g.followNode cur p) := by
  unfold followNode
  split
  · exact .modifySym (fun _ => ⟨rfl, rfl, rfl⟩) fun _ _ => rfl
  · exact .refl g

/-- What inheriting one follow set keeps, a search keeps. -/
theorem complete_keeps {P : Grammar → Prop} (nts : Array SymbolId) (cur : SymbolId)
    (hinherit : ∀ g s i t, P g → P (g.inheritFrom cur s i t)) (fuel : Nat) (s : SymbolId)
    (state : Grammar × Array Bool) (h : P state.1) : P (complete nts cur fuel s state).1 := by
  induction fuel generalizing s state with
  | zero => exact h
  | succ fuel ih =>
    rw [complete]
    split
    · refine List.foldlRecOn (List.range nts.size) _
        (motive := fun after : Grammar × Array Bool => P after.1) h fun after hafter i _ => ?_
      simp only
      split
      · exact hinherit _ _ _ _ (ih (nts.getD i 0) after hafter)
      · exact hafter
    · exact h

theorem complete_annotates (nts : Array SymbolId) (cur : SymbolId) (fuel : Nat) (s : SymbolId)
    (state : Grammar × Array Bool) : state.1.Annotates (complete nts cur fuel s state).1 :=
  complete_keeps nts cur (fun _ _ _ _ h => h.trans (.modifySym (fun _ => ⟨rfl, rfl, rfl⟩)
    fun _ _ => rfl)) fuel s state (.refl _)

theorem computeFollows_annotates (g : Grammar) : g.Annotates g.computeFollows := by
  have hdirect : g.Annotates (g.productionNodes.foldl
      (fun g entry => g.followNode entry.1 entry.2) g.clearFollow) :=
    g.clearFollow_annotates.trans (.foldl fun g' _ entry _ => g'.followNode_annotates entry.1 entry.2)
  exact hdirect.trans (.foldl fun g' _ s _ => complete_annotates _ s _ s (g', _))

theorem syncNode_annotates (g : Grammar) (cur : SymbolId) (p : NodeId) :
    g.Annotates (g.syncNode cur p) := by
  unfold syncNode
  split
  · have hnode : g.Annotates (g.modifyNode p fun n => { n with
        set := (g.expected (g.node p).next cur).insert (g.sym g.eof).number }) :=
      .modifyNode fun _ => ⟨rfl, rfl⟩
    exact hnode.trans ⟨⟨rfl, fun _ => rfl, fun _ => rfl⟩, fun _ => rfl, rfl, fun _ => rfl,
      fun _ _ => rfl, rfl⟩
  · exact .refl g

theorem computeSyncs_annotates (g : Grammar) : g.Annotates g.computeSyncs := by
  have hclear : g.Annotates { g with syncUnion := .singleton (g.sym g.eof).number } :=
    ⟨⟨rfl, fun _ => rfl, fun _ => rfl⟩, fun _ => rfl, rfl, fun _ => rfl, fun _ _ => rfl, rfl⟩
  exact hclear.trans (.foldl fun g' _ entry _ => g'.syncNode_annotates entry.1 entry.2)

/-- When the deletable nonterminals are flagged, the other sets are only noted. -/
theorem computeSets_annotates (g : Grammar) : g.computeDeletable.Annotates g.computeSets :=
  (((computeFirsts_annotates _).trans (computeAnys_annotates _)).trans
    (computeFollows_annotates _)).trans (computeSyncs_annotates _)

theorem nonterminals_computeSets : g.computeSets.nonterminals = g.nonterminals :=
  g.computeSets_annotates.nonterminals_eq.trans g.computeDeletable_sameRules.nonterminals_eq

theorem production_computeSets (s : SymbolId) :
    (g.computeSets.sym s).production = (g.sym s).production :=
  (g.computeSets_annotates.production_eq s).trans (g.computeDeletable_sameRules.production_eq s)

theorem Composed.computeSets (h : g.Composed pool) : g.computeSets.Composed pool :=
  g.computeSets_annotates.composed (h.congr g.computeDeletable_sameRules)

end Grammar

end Ebnf
