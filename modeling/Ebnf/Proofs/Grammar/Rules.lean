import Ebnf.Outline
import Ebnf.Proofs.Phrase.Basic

/-!
# Symbols and rules

The analyses of a grammar write their results into the symbol table and read the
nodes.  This module says how a change of a symbol changes what one reads from
the table, and which results depend on which parts of a grammar.

Main results:

- Theorem `Grammar.sym_modifySym`: the symbol with an index after a change.
- Theorem `Grammar.nonterminals_push`: the nonterminals when a symbol is declared.
- Theorem `Grammar.Agrees.deletableChain_eq`: what is deletable depends on the links
  and on the flags of the symbols.
- Theorem `Grammar.SameRules.nonterminals_eq`: the nonterminals of grammars with the
  same rules are the same.
- Theorem `Grammar.filter_nonterminals`: what a check finds out by a test is said by the
  property that the test decides.
-/

namespace Ebnf

/-- The part of a symbol that no analysis changes. -/
def Symbol.heading (s : Symbol) : SymbolKind × Nat × Option NodeId :=
  (s.kind, s.number, s.production)

namespace Grammar

variable {g g' g'' : Grammar} {s t : SymbolId} {f : Symbol → Symbol}

/-! ## Changing symbols -/

theorem sym_modifySym :
    (g.modifySym s f).sym t = if t = s ∧ s < g.symbols.size then f (g.sym t) else g.sym t := by
  simp only [sym, modifySym, Array.getD_eq_getD_getElem?, Array.getElem?_modify]
  by_cases hst : s = t
  · subst hst
    by_cases hs : s < g.symbols.size <;> simp [hs]
  · simp [hst, Ne.symm hst]

theorem sym_modifySym_of_ne (hne : t ≠ s) : (g.modifySym s f).sym t = g.sym t := by
  rw [sym_modifySym, if_neg fun h => hne h.1]

theorem sym_modifySym_self (hs : s < g.symbols.size) : (g.modifySym s f).sym s = f (g.sym s) := by
  rw [sym_modifySym, if_pos ⟨rfl, hs⟩]

/-- A property of the symbol with an index that a change keeps. -/
theorem modifySym_keeps {α : Type} (field : Symbol → α) (hf : ∀ sym, field (f sym) = field sym) :
    field ((g.modifySym s f).sym t) = field (g.sym t) := by
  rw [sym_modifySym]
  split
  · exact hf _
  · rfl

@[simp]
theorem size_modifySym : (g.modifySym s f).symbols.size = g.symbols.size :=
  Array.size_modify

/-- Several symbols are changed in the same way, one after the other. -/
theorem sym_foldl_modifySym {ss : List SymbolId} (hf : ∀ sym, f (f sym) = f sym) :
    (ss.foldl (fun g s => g.modifySym s f) g).sym t =
      if t ∈ ss ∧ t < g.symbols.size then f (g.sym t) else g.sym t := by
  induction ss generalizing g with
  | nil => simp
  | cons s ss ih =>
    rw [List.foldl_cons, ih, size_modifySym, sym_modifySym]
    by_cases hts : t = s
    · subst hts
      by_cases ht : t < g.symbols.size <;> by_cases hmem : t ∈ ss <;> simp [ht, hmem, hf]
    · simp [hts]

theorem mem_ofKind {kind : SymbolKind} :
    s ∈ g.ofKind kind ↔ s < g.symbols.size ∧ (g.sym s).kind = kind := by
  simp [ofKind]

theorem mem_nonterminals :
    s ∈ g.nonterminals ↔ s < g.symbols.size ∧ (g.sym s).kind = .nonterminal :=
  mem_ofKind

theorem nodup_nonterminals : g.nonterminals.Nodup :=
  List.nodup_range.filter _

open Classical in
/-- The nonterminals with a property, each once, in the order of their declaration. -/
noncomputable def nonterminalsWhere (g : Grammar) (P : SymbolId → Prop) : List SymbolId :=
  g.nonterminals.filter fun s => P s

/-- A test that decides a property picks the nonterminals with the property. -/
theorem filter_nonterminals {P : SymbolId → Prop} {test : SymbolId → Bool}
    (h : ∀ s ∈ g.nonterminals, test s = true ↔ P s) :
    g.nonterminals.filter test = g.nonterminalsWhere P := by
  unfold nonterminalsWhere
  refine List.filter_congr fun s hs => Bool.eq_iff_iff.2 ?_
  simpa using h s hs

theorem nonterminalsWhere_eq_nil_iff {P : SymbolId → Prop} :
    g.nonterminalsWhere P = [] ↔ ∀ s ∈ g.nonterminals, ¬ P s := by
  simp [nonterminalsWhere]

theorem nonterminals_congr (hsymbols : g'.symbols = g.symbols) : g'.nonterminals = g.nonterminals := by
  unfold nonterminals ofKind sym
  rw [hsymbols]

/-! ## Further symbols -/

/-- The grammar with one more symbol, and other diagnostics. -/
def push (g : Grammar) (sym : Symbol) (ds : Diagnostics) : Grammar :=
  { g with symbols := g.symbols.push sym, diags := ds }

theorem exists_declareSymbol_eq (g : Grammar) (kind : SymbolKind) (name : String) (line : Nat) :
    ∃ name' ds, (g.declareSymbol kind name line).2 =
      g.push { kind, name := name', number := g.nextNumber kind, line } ds := by
  unfold declareSymbol push
  by_cases hname : name = "\"\""
  · exact ⟨"???", g.diags ++ [.errorOn line .emptyToken], by simp only [if_pos hname, report]⟩
  · exact ⟨name, g.diags, by simp only [if_neg hname]⟩

theorem sym_push {sym : Symbol} {ds : Diagnostics} :
    (g.push sym ds).sym t = if t = g.symbols.size then sym else g.sym t := by
  simp only [Grammar.sym, push, Array.getD_eq_getD_getElem?, Array.getElem?_push]
  split <;> rfl

theorem ofKind_push {sym : Symbol} {ds : Diagnostics} {kind : SymbolKind} :
    (g.push sym ds).ofKind kind = g.ofKind kind ++ if sym.kind = kind then [g.symbols.size] else [] := by
  have hsize : (g.push sym ds).symbols.size = g.symbols.size + 1 := Array.size_push _
  have hold : (List.range g.symbols.size).filter (fun s => ((g.push sym ds).sym s).kind == kind)
      = g.ofKind kind :=
    List.filter_congr fun s hs => by rw [sym_push, if_neg (Nat.ne_of_lt (List.mem_range.1 hs))]
  rw [ofKind, hsize, List.range_succ, List.filter_append, hold, List.filter_singleton, sym_push,
    if_pos rfl]
  by_cases hkind : sym.kind = kind
  · rw [if_pos hkind, beq_iff_eq.2 hkind]
    rfl
  · rw [if_neg hkind, beq_eq_false_iff_ne.2 hkind]
    rfl

theorem nonterminals_push {sym : Symbol} {ds : Diagnostics} : (g.push sym ds).nonterminals =
    g.nonterminals ++ if sym.kind = .nonterminal then [g.symbols.size] else [] :=
  ofKind_push

theorem terminals_push {sym : Symbol} {ds : Diagnostics} : (g.push sym ds).terminals =
    g.terminals ++ if sym.kind = .terminal then [g.symbols.size] else [] :=
  ofKind_push

/-! ## Deletability -/

/-- The two grammars have the same links, and the same symbols are flagged as deletable. -/
structure Agrees (g g' : Grammar) : Prop where
  size_eq : g'.nodes.size = g.nodes.size
  links_eq : ∀ p, (g'.node p).links = (g.node p).links
  deletable_eq : ∀ s, (g'.sym s).deletable = (g.sym s).deletable

namespace Agrees

variable (h : g.Agrees g')
include h

theorem kind_eq (p : NodeId) : (g'.node p).kind = (g.node p).kind :=
  congrArg Prod.fst (h.links_eq p)

theorem sub_eq (p : NodeId) : (g'.node p).sub = (g.node p).sub :=
  congrArg (·.2.1) (h.links_eq p)

theorem down_eq (p : NodeId) : (g'.node p).down = (g.node p).down :=
  congrArg (·.2.2.1) (h.links_eq p)

theorem next_eq (p : NodeId) : (g'.node p).next = (g.node p).next :=
  congrArg (·.2.2.2.1) (h.links_eq p)

theorem leaves_eq (p : NodeId) : (g'.node p).leaves = (g.node p).leaves :=
  congrArg (·.2.2.2.2) (h.links_eq p)

theorem outlineWithin_eq (fuel : Nat) (p : Option NodeId) :
    g'.outlineWithin fuel p = g.outlineWithin fuel p := by
  induction fuel generalizing p with
  | zero => rfl
  | succ fuel ih =>
    cases p with
    | none => rfl
    | some p => simp only [outlineWithin, ih, h.kind_eq, h.sub_eq, h.down_eq, h.next_eq, h.leaves_eq]

theorem outline_eq (p : Option NodeId) : g'.outline p = g.outline p := by
  unfold outline
  rw [h.size_eq, h.outlineWithin_eq]

theorem leafDeletable_eq (p : NodeId) : g'.leafDeletable p = g.leafDeletable p := by
  unfold leafDeletable
  simp only [h.kind_eq, h.deletable_eq]

theorem deletableOutline_eq (o : Outline) : g'.deletableOutline o = g.deletableOutline o := by
  induction o with
  | done => rfl
  | leaf p next ih => rw [deletableOutline, deletableOutline, h.leafDeletable_eq, ih]
  | group p body next _ ih => rw [deletableOutline, deletableOutline, ih]
  | arm p body down next ihb ihd ihn => rw [deletableOutline, deletableOutline, ihb, ihd, ihn]

theorem deletableWithin_eq (p : Option NodeId) : g'.deletableWithin p = g.deletableWithin p := by
  unfold deletableWithin
  rw [h.outline_eq, h.deletableOutline_eq]

theorem deletableNode_eq (p : NodeId) : g'.deletableNode p = g.deletableNode p := by
  unfold deletableNode
  rw [h.kind_eq, h.sub_eq, h.down_eq, h.deletableWithin_eq, h.deletableWithin_eq,
    h.leafDeletable_eq]

theorem deletableAlong_eq (fuel : Nat) (p : Option NodeId) :
    g'.deletableAlong fuel p = g.deletableAlong fuel p := by
  induction fuel generalizing p with
  | zero => cases p <;> rfl
  | succ fuel ih =>
    cases p with
    | none => rfl
    | some p => rw [deletableAlong, deletableAlong, h.deletableNode_eq, h.next_eq, ih]

theorem deletableChain_eq (p : Option NodeId) : g'.deletableChain p = g.deletableChain p := by
  unfold deletableChain
  rw [h.size_eq, h.deletableAlong_eq]

end Agrees

/-! ## Rules -/

/-- The two grammars have the same symbols and productions; flags and sets of symbols may differ. -/
structure SameRules (g g' : Grammar) : Prop where
  size_eq : g'.nodes.size = g.nodes.size
  links_eq : ∀ p, (g'.node p).links = (g.node p).links
  state_eq : ∀ p, (g'.node p).state = (g.node p).state
  anys_eq : ∀ p, (g.node p).kind = .any → (g'.node p).set = (g.node p).set
  symbols_size_eq : g'.symbols.size = g.symbols.size
  heading_eq : ∀ s, (g'.sym s).heading = (g.sym s).heading
  start_eq : g'.start = g.start
  eof_eq : g'.eof = g.eof

namespace SameRules

theorem refl (g : Grammar) : g.SameRules g :=
  ⟨rfl, fun _ => rfl, fun _ => rfl, fun _ _ => rfl, rfl, fun _ => rfl, rfl, rfl⟩

theorem trans (h : g.SameRules g') (h' : g'.SameRules g'') : g.SameRules g'' where
  size_eq := h'.size_eq.trans h.size_eq
  links_eq p := (h'.links_eq p).trans (h.links_eq p)
  state_eq p := (h'.state_eq p).trans (h.state_eq p)
  anys_eq p hp := by
    have hp' : (g'.node p).kind = .any := (congrArg Prod.fst (h.links_eq p)).trans hp
    exact (h'.anys_eq p hp').trans (h.anys_eq p hp)
  symbols_size_eq := h'.symbols_size_eq.trans h.symbols_size_eq
  heading_eq s := (h'.heading_eq s).trans (h.heading_eq s)
  start_eq := h'.start_eq.trans h.start_eq
  eof_eq := h'.eof_eq.trans h.eof_eq

/-- An analysis notes a result in a symbol. -/
theorem modifySym (hf : ∀ sym, (f sym).heading = sym.heading) : g.SameRules (g.modifySym s f) where
  size_eq := rfl
  links_eq _ := rfl
  state_eq _ := rfl
  anys_eq _ _ := rfl
  symbols_size_eq := size_modifySym
  heading_eq _ := modifySym_keeps Symbol.heading hf
  start_eq := rfl
  eof_eq := rfl

theorem reportAll (ds : List Diagnostic) : g.SameRules (g.reportAll ds) :=
  ⟨rfl, fun _ => rfl, fun _ => rfl, fun _ _ => rfl, rfl, fun _ => rfl, rfl, rfl⟩

/-- A step that keeps the rules keeps them however often it is taken. -/
theorem foldl {α : Type} {step : Grammar → α → Grammar}
    (hstep : ∀ (g : Grammar) (a : α), g.SameRules (step g a)) (as : List α) (g : Grammar) : g.SameRules (as.foldl step g) := by
  induction as generalizing g with
  | nil => exact refl g
  | cons a as ih => exact (hstep g a).trans (ih _)

variable (h : g.SameRules g')
include h

theorem symbolKind_eq (s : SymbolId) : (g'.sym s).kind = (g.sym s).kind :=
  congrArg Prod.fst (h.heading_eq s)

theorem number_eq (s : SymbolId) : (g'.sym s).number = (g.sym s).number :=
  congrArg (·.2.1) (h.heading_eq s)

theorem production_eq (s : SymbolId) : (g'.sym s).production = (g.sym s).production :=
  congrArg (·.2.2) (h.heading_eq s)

theorem nonterminals_eq : g'.nonterminals = g.nonterminals := by
  unfold nonterminals ofKind
  simp only [h.symbols_size_eq, h.symbolKind_eq]

theorem agrees (hflags : ∀ s, (g'.sym s).deletable = (g.sym s).deletable) : g.Agrees g' :=
  ⟨h.size_eq, h.links_eq, hflags⟩

theorem kind_eq (p : NodeId) : (g'.node p).kind = (g.node p).kind :=
  congrArg Prod.fst (h.links_eq p)

theorem next_eq (p : NodeId) : (g'.node p).next = (g.node p).next :=
  congrArg (·.2.2.2.1) (h.links_eq p)

end SameRules

end Grammar

end Ebnf
