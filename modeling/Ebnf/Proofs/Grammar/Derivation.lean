import Mathlib.Data.List.Pairwise
import Ebnf.Proofs.Grammar.Rules
import Ebnf.Proofs.Phrase.Assembly
import Ebnf.Proofs.Phrase.Walk

/-!
# Derivations

The productions of a grammar are phrases.  A nonterminal is rewritten to the
letters along a leaf sequence of its production, and a leaf that stands for any
terminal of a set to one of them.

Main results:

- Theorem `Grammar.Composed.congr`: grammars with the same rules are composed alike.
- Theorem `Grammar.SameRules.derives_iff`: and they derive the same sentential forms.
-/

namespace Ebnf

/-- A letter of a sentential form. -/
inductive Letter
  /-- a terminal, by its number -/
  | terminal (number : Nat)
  | nonterminal (sym : SymbolId)
  /-- a leaf that stands for one terminal of its set -/
  | any (p : NodeId)
  /-- a leaf that belongs into a token structure -/
  | other (p : NodeId)
  deriving DecidableEq, Repr

/-- The nonterminal that a letter is. -/
def Letter.reference? : Letter → Option SymbolId
  | nonterminal s => some s
  | _ => none

/-- The nonterminal that a node refers to. -/
def NodeKind.reference? : NodeKind → Option SymbolId
  | nonterminal s => some s
  | _ => none

namespace Grammar

variable {g g' : Grammar} {pool : List Phrase} {e f : Phrase} {s t : SymbolId} {p : NodeId}
  {α β γ δ : List Letter}

/-! ## Productions that are phrases -/

/-- The productions of a grammar are phrases that were put together from fragments. -/
structure Composed (g : Grammar) (pool : List Phrase) : Prop where
  assembled : Assembled g pool
  /-- a production is one of the phrases -/
  production : ∀ s ∈ g.nonterminals, ∀ p ∈ (g.sym s).production, ∃ e ∈ pool, e.entry = p
  /-- references are to nonterminals -/
  refers : ∀ e ∈ pool, ∀ p ∈ e.nodes, ∀ s ∈ (g.node p).kind.reference?, s ∈ g.nonterminals

/-- Nonterminals are found by their numbers. -/
def Numbered (g : Grammar) : Prop :=
  ∀ s ∈ g.nonterminals, g.nonterminals[(g.sym s).number]? = some s

theorem Numbered.eq_of_number (h : g.Numbered) (hs : s ∈ g.nonterminals) (ht : t ∈ g.nonterminals)
    (heq : (g.sym s).number = (g.sym t).number) : s = t :=
  Option.some.inj ((h s hs).symm.trans (heq ▸ h t ht))

theorem Numbered.lt_length (h : g.Numbered) (hs : s ∈ g.nonterminals) :
    (g.sym s).number < g.nonterminals.length :=
  (List.getElem?_eq_some_iff.1 (h s hs)).1

/-- Moreover each nonterminal has a phrase of its own and is found by its number. -/
structure Orderly (g : Grammar) (pool : List Phrase) : Prop extends g.Composed pool where
  /-- no phrase is the production of two nonterminals -/
  apart : ∀ s ∈ g.nonterminals, ∀ t ∈ g.nonterminals, (g.sym s).production.isSome →
    (g.sym s).production = (g.sym t).production → s = t
  numbered : g.Numbered
  start : ∀ s ∈ g.start, s ∈ g.nonterminals

namespace Composed

theorem congr (h : g.Composed pool) (hrules : g.SameRules g') : g'.Composed pool where
  assembled := h.assembled.declare (Nat.le_of_eq hrules.size_eq.symm) fun _ _ p _ =>
    ⟨hrules.links_eq p, hrules.state_eq p⟩
  production := by
    simp only [hrules.nonterminals_eq, hrules.production_eq]
    exact h.production
  refers := by
    simp only [hrules.nonterminals_eq, hrules.kind_eq]
    exact h.refers

variable (h : g.Composed pool)
include h

theorem shows_of_mem (he : e ∈ pool) : g.Shows e none false :=
  h.assembled.toPool.shows_of_mem e he

theorem mem_of_kind (he : e ∈ pool) (hp : p ∈ e.nodes) (hkind : (g.node p).kind = .nonterminal s) :
    s ∈ g.nonterminals :=
  h.refers e he p hp s (by rw [hkind]; rfl)

theorem nodup (he : e ∈ pool) : e.nodes.Nodup :=
  h.assembled.toPool.nodup e he

theorem lt_size (he : e ∈ pool) (hp : p ∈ e.nodes) : p < g.nodes.size :=
  (h.shows_of_mem he).lt_size hp

/-- A node belongs to one phrase only. -/
theorem eq_of_mem (he : e ∈ pool) (hf : f ∈ pool) (hpe : p ∈ e.nodes) (hpf : p ∈ f.nodes) :
    e = f := by
  by_contra hne
  have hsymm : Std.Symm fun a b : Phrase => a.nodes.Disjoint b.nodes :=
    ⟨fun _ _ hab => List.disjoint_symm hab⟩
  exact h.assembled.toPool.disjoint.forall he hf hne hpe hpf

/-- A production is one phrase only. -/
theorem eq_of_production (he : e ∈ pool) (hf : f ∈ pool)
    (hproduction : (g.sym s).production = some e.entry)
    (hproduction' : (g.sym s).production = some f.entry) : e = f := by
  have hentry : e.entry = f.entry := Option.some.inj (hproduction.symm.trans hproduction')
  exact h.eq_of_mem he hf e.entry_mem_nodes (hentry ▸ f.entry_mem_nodes)

theorem deletableChain_entry (he : e ∈ pool) :
    g.deletableChain (some e.entry) = e.nullable g.leafDeletable := by
  have hshows := h.shows_of_mem he
  rw [Grammar.deletableChain_entry hshows (h.nodup he) (hshows.finite (h.nodup he)),
    deletableChain_none, Bool.and_true]

end Composed

theorem Orderly.congr (h : g.Orderly pool) (hrules : g.SameRules g') : g'.Orderly pool where
  toComposed := h.toComposed.congr hrules
  apart := by
    simp only [hrules.nonterminals_eq, hrules.production_eq]
    exact h.apart
  numbered := by
    simp only [Numbered, hrules.nonterminals_eq, hrules.number_eq]
    exact h.numbered
  start := by
    simp only [hrules.nonterminals_eq, hrules.start_eq]
    exact h.start

/-! ## Sentential forms -/

/-- The letters that a leaf contributes to a sentential form. -/
def letters (g : Grammar) (p : NodeId) : List Letter :=
  match (g.node p).kind with
  | .terminal s | .weak s => [.terminal (g.sym s).number]
  | .nonterminal s => [.nonterminal s]
  | .any => [.any p]
  | .eps | .sync | .action | .resolver => []
  | _ => [.other p]

/-- The nonterminals along a leaf sequence belong to the grammar. -/
theorem Composed.mem_of_letter (h : g.Composed pool) (he : e ∈ pool) {ps : List NodeId}
    (hps : ps ∈ e.walks) {x : Letter} (hx : x ∈ ps.flatMap g.letters) (hs : s ∈ x.reference?) :
    s ∈ g.nonterminals := by
  obtain ⟨p, hp, hx⟩ := List.mem_flatMap.1 hx
  have hnode := ((h.shows_of_mem he).leaf_of_mem_walks hps hp).1
  refine h.refers e he p hnode s ?_
  unfold letters at hx
  cases hkind : (g.node p).kind <;> simp_all [Letter.reference?, NodeKind.reference?]

/-- One step of a derivation. -/
inductive Rewrites (g : Grammar) (pool : List Phrase) : List Letter → List Letter → Prop
  | expand {s : SymbolId} {e : Phrase} {ps : List NodeId} (α β : List Letter)
      (hs : s ∈ g.nonterminals) (he : e ∈ pool) (hprod : (g.sym s).production = some e.entry)
      (hps : ps ∈ e.walks) :
      Rewrites g pool (α ++ .nonterminal s :: β) (α ++ ps.flatMap g.letters ++ β)
  | choose {p : NodeId} {n : Nat} (α β : List Letter) (hp : (g.node p).kind = .any)
      (hn : n ∈ (g.node p).set) : Rewrites g pool (α ++ .any p :: β) (α ++ .terminal n :: β)

/-- A sentential form is derived from another one. -/
def Derives (g : Grammar) (pool : List Phrase) : List Letter → List Letter → Prop :=
  Relation.ReflTransGen (g.Rewrites pool)

/-- A form without nonterminals is derived from the nonterminal. -/
def Productive (g : Grammar) (pool : List Phrase) (s : SymbolId) : Prop :=
  ∃ α, g.Derives pool [.nonterminal s] α ∧ ∀ x ∈ α, x.reference? = none

theorem rewrites_singleton (h : g.Rewrites pool [.nonterminal s] β) : s ∈ g.nonterminals ∧
    ∃ e ∈ pool, (g.sym s).production = some e.entry ∧ ∃ ps ∈ e.walks, β = ps.flatMap g.letters := by
  generalize hα : [Letter.nonterminal s] = α at h
  cases h with
  | expand γ δ hs he hprod hps =>
    obtain ⟨rfl, hrest⟩ | ⟨_, hrest⟩ := List.singleton_eq_append_iff.1 hα
    · simp only [List.cons.injEq, Letter.nonterminal.injEq] at hrest
      obtain ⟨rfl, rfl⟩ := hrest
      exact ⟨hs, _, he, hprod, _, hps, by simp⟩
    · cases hrest
  | choose γ δ hp hn =>
    obtain ⟨rfl, hrest⟩ | ⟨_, hrest⟩ := List.singleton_eq_append_iff.1 hα <;> cases hrest

theorem Rewrites.context (h : g.Rewrites pool α β) (γ δ : List Letter) :
    g.Rewrites pool (γ ++ α ++ δ) (γ ++ β ++ δ) := by
  cases h with
  | expand α β hs he hprod hps => simpa using Rewrites.expand (γ ++ α) (β ++ δ) hs he hprod hps
  | @choose p n α β hp hn =>
    have hstep : g.Rewrites pool (γ ++ α ++ .any p :: (β ++ δ)) (γ ++ α ++ .terminal n :: (β ++ δ)) :=
      .choose (γ ++ α) (β ++ δ) hp hn
    simpa using hstep

namespace Derives

/-- A derivation goes on within a longer form. -/
theorem context (h : g.Derives pool α β) (γ δ : List Letter) :
    g.Derives pool (γ ++ α ++ δ) (γ ++ β ++ δ) := by
  induction h with
  | refl => exact .refl
  | tail _ hstep ih => exact ih.tail (hstep.context γ δ)

/-- A front part is derived to nothing, and the rest further. -/
theorem append (hα : g.Derives pool α []) (hβ : g.Derives pool β γ) :
    g.Derives pool (α ++ β) γ := by
  have hfront : g.Derives pool (α ++ β) β := by simpa using hα.context [] β
  exact hfront.trans hβ

theorem nil_of_forall (h : ∀ x ∈ α, g.Derives pool [x] []) : g.Derives pool α [] := by
  induction α with
  | nil => exact .refl
  | cons x α ih =>
    obtain ⟨hx, hα⟩ := List.forall_mem_cons.1 h
    exact append hx (ih hα)

/-- A nonterminal derives the letters along a leaf sequence of its production. -/
theorem expand {ps : List NodeId} (hs : s ∈ g.nonterminals) (he : e ∈ pool)
    (hprod : (g.sym s).production = some e.entry) (hps : ps ∈ e.walks) :
    g.Derives pool [.nonterminal s] (ps.flatMap g.letters) := by
  refine .single ?_
  simpa using Rewrites.expand [] [] hs he hprod hps

end Derives

namespace SameRules

variable (h : g.SameRules g')
include h

theorem letters_eq : g'.letters = g.letters := by
  funext p
  unfold letters
  simp only [h.kind_eq, h.number_eq]

theorem rewrites (hstep : g.Rewrites pool α β) : g'.Rewrites pool α β := by
  cases hstep with
  | expand α β hs he hprod hps =>
    rw [← h.letters_eq]
    rw [← h.nonterminals_eq] at hs
    rw [← h.production_eq] at hprod
    exact .expand α β hs he hprod hps
  | choose α β hp hn =>
    rw [← h.anys_eq _ hp] at hn
    exact .choose α β (h.kind_eq _ ▸ hp) hn

theorem symm : g'.SameRules g where
  size_eq := h.size_eq.symm
  links_eq p := (h.links_eq p).symm
  state_eq p := (h.state_eq p).symm
  anys_eq p hp := (h.anys_eq p (h.kind_eq p ▸ hp)).symm
  symbols_size_eq := h.symbols_size_eq.symm
  heading_eq s := (h.heading_eq s).symm
  start_eq := h.start_eq.symm
  eof_eq := h.eof_eq.symm

theorem rewrites_eq : g'.Rewrites pool = g.Rewrites pool := by
  funext α β
  exact propext ⟨h.symm.rewrites, h.rewrites⟩

theorem derives_iff : g'.Derives pool α β ↔ g.Derives pool α β := by
  rw [Derives, Derives, h.rewrites_eq]

end SameRules

end Grammar

end Ebnf
