import Ebnf.Declaration
import Ebnf.Proofs.Grammar.Derivation

/-!
# Grammars that are written down

The analyses and checks are about grammars whose productions are phrases, each
nonterminal having one of its own.  Declaring productions one after the other makes
such grammars.  While an expression is added, its parts lie beside the productions that
are there, and every operation only takes parts or makes new ones.

Main results:

- Theorem `Grammar.Building.addExpr`: an expression without old parts becomes a phrase.
- Theorem `Grammar.Building.declareProduction`: the phrase becomes a production.
- Theorem `Grammar.Written.exists_orderly`: a grammar that is written down consists of
  phrases, and no symbol is flagged as deletable.
-/

namespace Ebnf

namespace Phrase

/-- A further arm gives its node and its ends to the ends of an alternative. -/
theorem fragment_snoc {e f : Phrase} {q : NodeId} (harms : e.isArms = true) :
    (e.snoc q f).fragment = ⟨e.entry, e.exits ++ q :: f.exits⟩ := by
  have hexits : (e.snoc q f).exits = e.exits ++ q :: f.exits := by
    induction e with
    | leaf | seq | opt | iter => cases harms
    | arm p e => rfl
    | alt p e r _ ihr => simp only [snoc, exits, ihr harms, List.cons_append, List.append_assoc]
  rw [fragment, entry_snoc, hexits]

theorem fragment_chain (p n : Nat) : (chain p n).fragment = ⟨p, [p + n]⟩ := by
  have hexits : (chain p n).exits = [p + n] := by
    induction n generalizing p with
    | zero => rfl
    | succ n ih =>
      rw [chain, exits, ih, Nat.add_right_comm]
      rfl
  rw [fragment, entry_chain, hexits]

end Phrase

namespace Expr

mutual

/-- Whether an expression has no context and no part that is already there. -/
def isNew : Expr → Bool
  | .seq e es | .alt e es => e.isNew && areNew es
  | .iter e | .opt e | .onLine _ e => e.isNew
  | .context _ | .fragment _ => false
  | _ => true

/-- Whether several expressions are new. -/
def areNew : List Expr → Bool
  | [] => true
  | e :: es => e.isNew && areNew es

end

end Expr

namespace Grammar

variable {g g' g'' : Grammar} {base parts parts' : List Phrase} {f : Phrase} {p : NodeId}
  {s t : SymbolId} {kind : SymbolKind} {name : String} {line : Nat}

/-! ## Changes of nodes -/

/-- The symbols are the same, and no node refers to a nonterminal to which none referred before. -/
structure Rearranges (g g' : Grammar) : Prop where
  symbols_eq : g'.symbols = g.symbols
  start_eq : g'.start = g.start
  refers : ∀ p, ∀ s ∈ (g'.node p).kind.reference?, ∃ q, s ∈ (g.node q).kind.reference?

namespace Rearranges

theorem refl (g : Grammar) : g.Rearranges g :=
  ⟨rfl, rfl, fun p _ hs => ⟨p, hs⟩⟩

theorem trans (h : g.Rearranges g') (h' : g'.Rearranges g'') : g.Rearranges g'' where
  symbols_eq := h'.symbols_eq.trans h.symbols_eq
  start_eq := h'.start_eq.trans h.start_eq
  refers p s hs := by
    obtain ⟨q, hq⟩ := h'.refers p s hs
    exact h.refers q s hq

theorem addNode {n : Node} (hnone : n.kind.reference? = none) : g.Rearranges (g.addNode n).2 where
  symbols_eq := rfl
  start_eq := rfl
  refers p s hs := by
    rw [node_addNode] at hs
    split at hs
    · rw [hnone] at hs
      cases hs
    · exact ⟨p, hs⟩

theorem modifyNode {f : Node → Node} (hf : ∀ n, (f n).kind = n.kind) :
    g.Rearranges (g.modifyNode p f) where
  symbols_eq := rfl
  start_eq := rfl
  refers q s hs := by
    rw [node_modifyNode] at hs
    split at hs
    · rw [hf] at hs
      exact ⟨q, hs⟩
    · exact ⟨q, hs⟩

theorem modifyNodes {f : Node → Node} (hf : ∀ n, (f n).kind = n.kind) (ps : List NodeId)
    (g : Grammar) : g.Rearranges (ps.foldl (fun g p => g.modifyNode p f) g) := by
  induction ps generalizing g with
  | nil => exact .refl g
  | cons p ps ih => exact (modifyNode hf).trans (ih _)

theorem link {ps : List NodeId} {next : Option NodeId} : g.Rearranges (g.link ps next) :=
  modifyNodes (f := fun n => { n with next }) (fun _ => rfl) ps g

theorem markLeaving {ps : List NodeId} : g.Rearranges (g.markLeaving ps) :=
  modifyNodes (f := fun n => { n with leaves := true }) (fun _ => rfl) ps g

theorem sequence (f₁ f₂ : Fragment) : g.Rearranges (g.sequence f₁ f₂).2 :=
  link

theorem firstArm (f : Fragment) : g.Rearranges (g.firstArm f).2 :=
  (addNode rfl).trans markLeaving

theorem addArm (alts f : Fragment) : g.Rearranges (g.addArm alts f).2 :=
  ((addNode rfl).trans markLeaving).trans (modifyNode fun _ => rfl)

theorem option (f : Fragment) : g.Rearranges (g.option f).2 :=
  (addNode rfl).trans markLeaving

theorem iteration (f : Fragment) : g.Rearranges (g.iteration f).2 :=
  ((addNode rfl).trans markLeaving).trans link

theorem addChars (cs : List Char) (g : Grammar) (p : NodeId) :
    g.Rearranges (g.addChars line p cs).2 := by
  induction cs generalizing g p with
  | nil => exact .refl g
  | cons c cs ih =>
    rw [Grammar.addChars]
    exact ((addNode rfl).trans (modifyNode fun _ => by rfl)).trans (ih _ _)

/-- Reading a text only reports. -/
theorem readQuoted (g : Grammar) (quoted : String) : g.Rearranges (g.readQuoted quoted).2 :=
  ⟨rfl, rfl, fun p _ hs => ⟨p, hs⟩⟩

theorem report (d : Diagnostic) : g.Rearranges (g.report d) :=
  ⟨rfl, rfl, fun p _ hs => ⟨p, hs⟩⟩

theorem addString (g : Grammar) (quoted : String) (line : Nat) :
    g.Rearranges (g.addString quoted line).2 := by
  refine (readQuoted g quoted).trans ?_
  unfold Grammar.addString
  simp only
  split
  · exact (report _).trans (addNode rfl)
  · exact (addNode rfl).trans (addChars _ _ _)

end Rearranges

/-- The last character is the last node. -/
theorem addChars_fst {p : Nat} (cs : List Char) (hlast : p + 1 = g.nodes.size) :
    (g.addChars line p cs).1 = p + cs.length := by
  induction cs generalizing g p with
  | nil => rfl
  | cons c cs ih =>
    rw [addChars, ih]
    · rw [List.length_cons]
      show g.nodes.size + _ = _
      omega
    · show g.nodes.size + 1 = _
      rw [size_modifyNode, size_addNode]

/-! ## Further symbols -/

section Push

variable {sym : Symbol} {ds : Diagnostics}

/-- A nonterminal was there before, or it is the new symbol. -/
theorem mem_nonterminals_push (hs : s ∈ (g.push sym ds).nonterminals) :
    s ∈ g.nonterminals ∧ (g.push sym ds).sym s = g.sym s ∨
      s = g.symbols.size ∧ (g.push sym ds).sym s = sym ∧ sym.kind = .nonterminal := by
  rw [nonterminals_push, List.mem_append] at hs
  rcases hs with hs | hs
  · exact .inl ⟨hs, by rw [sym_push, if_neg (Nat.ne_of_lt (mem_nonterminals.1 hs).1)]⟩
  · split at hs
    · next hkind =>
      have hs := List.mem_singleton.1 hs
      exact .inr ⟨hs, by rw [sym_push, if_pos hs], hkind⟩
    · cases hs

theorem mem_nonterminals_push_of_mem (hs : s ∈ g.nonterminals) :
    s ∈ (g.push sym ds).nonterminals := by
  rw [nonterminals_push]
  exact List.mem_append_left _ hs

theorem Numbered.push (h : g.Numbered) (hnumber : sym.kind = .nonterminal →
    sym.number = g.nonterminals.length) : (g.push sym ds).Numbered := by
  intro s hs
  rcases mem_nonterminals_push hs with ⟨hs, heq⟩ | ⟨rfl, heq, hkind⟩
  · rw [heq, nonterminals_push, List.getElem?_append_left (h.lt_length hs), h s hs]
  · rw [heq, nonterminals_push, if_pos hkind, hnumber hkind, List.getElem?_concat_length]

end Push

/-! ## Grammars under construction -/

/-- The productions are phrases of the base, each nonterminal has its own, and there are parts besides
from which the next production is made. -/
structure Building (g : Grammar) (base parts : List Phrase) : Prop where
  assembled : Assembled g (parts ++ base)
  production : ∀ s ∈ g.nonterminals, ∀ p ∈ (g.sym s).production, ∃ e ∈ base, e.entry = p
  apart : ∀ s ∈ g.nonterminals, ∀ t ∈ g.nonterminals, (g.sym s).production.isSome →
    (g.sym s).production = (g.sym t).production → s = t
  refers : ∀ p, ∀ s ∈ (g.node p).kind.reference?, s ∈ g.nonterminals
  numbered : g.Numbered
  start : ∀ s ∈ g.start, s ∈ g.nonterminals
  unflagged : ∀ s, (g.sym s).deletable = false

namespace Building

theorem orderly (h : g.Building base []) : g.Orderly base where
  assembled := h.assembled
  production := h.production
  refers _ _ p _ := h.refers p
  apart := h.apart
  numbered := h.numbered
  start := h.start

/-- The symbols stay, and parts, references and the start symbol are as they should be. -/
theorem congr (h : g.Building base parts) (hsymbols : g'.symbols = g.symbols)
    (hassembled : Assembled g' (parts' ++ base))
    (hrefers : ∀ p, ∀ s ∈ (g'.node p).kind.reference?, s ∈ g.nonterminals)
    (hstart : ∀ s ∈ g'.start, s ∈ g.nonterminals) : g'.Building base parts' := by
  have hsym : ∀ s, g'.sym s = g.sym s := fun s => by rw [sym, hsymbols, sym]
  have hnts := nonterminals_congr hsymbols
  constructor
  · exact hassembled
  · simpa only [hnts, hsym] using h.production
  · simpa only [hnts, hsym] using h.apart
  · rwa [hnts]
  · simpa only [Numbered, hnts, hsym] using h.numbered
  · rwa [hnts]
  · simpa only [hsym] using h.unflagged

/-- Only parts are changed. -/
theorem rearrange (h : g.Building base parts) (hg : g.Rearranges g')
    (hassembled : Assembled g' (parts' ++ base)) : g'.Building base parts' := by
  refine h.congr hg.symbols_eq hassembled (fun p s hs => ?_) (hg.start_eq ▸ h.start)
  obtain ⟨q, hq⟩ := hg.refers p s hs
  exact h.refers q s hq

/-- Neither symbols nor nodes are changed, but the start symbol may be. -/
theorem change (h : g.Building base parts) (hsymbols : g'.symbols = g.symbols)
    (hnodes : g'.nodes = g.nodes) (hstart : ∀ s ∈ g'.start, s ∈ g.nonterminals) :
    g'.Building base parts := by
  have hnode : ∀ p, g'.node p = g.node p := fun p => by rw [node, hnodes, node]
  refine h.congr hsymbols (h.assembled.declare (by rw [hnodes]) fun _ _ p _ => ?_) ?_ hstart
  · rw [hnode]
    exact ⟨rfl, rfl⟩
  · simpa only [hnode] using h.refers

theorem perm (h : g.Building base parts) (hperm : parts.Perm parts') : g.Building base parts' :=
  h.rearrange (.refl g) (h.assembled.perm (hperm.append_right base))

/-! ### Parts -/

theorem leaf (h : g.Building base parts) {kind : NodeKind} (hkind : kind.isLeaf = true)
    (href : ∀ s ∈ kind.reference?, s ∈ g.nonterminals) (line : Nat) (pos : Option Position) :
    (g.addLeaf { kind, line, pos }).2.Building base (.leaf g.nodes.size :: parts) := by
  refine h.congr rfl (h.assembled.leaf hkind line pos) (fun p s hs => ?_) h.start
  rw [addLeaf, node_addNode] at hs
  split at hs
  · exact href s hs
  · exact h.refers p s hs

/-- A text is a chain of characters, or a single node if it is empty. -/
theorem text (h : g.Building base parts) (quoted : String) (line : Nat) :
    ∃ f : Phrase, (g.addString quoted line).1 = f.fragment ∧
      (g.addString quoted line).2.Building base (f :: parts) := by
  cases htext : (g.readQuoted quoted).1.toList with
  | nil =>
    obtain ⟨g', hg'⟩ : ∃ g', g' = (g.readQuoted quoted).2.report (.errorOn line .emptyToken) :=
      ⟨_, rfl⟩
    have hempty : g.addString quoted line = g'.addLeaf { kind := .eps, line } := by
      simp only [Grammar.addString, htext, hg']
    have hreport : g'.Building base parts := hg' ▸ h.change rfl rfl h.start
    have heps : NodeKind.eps.isLeaf = true := rfl
    rw [hempty]
    exact ⟨.leaf g'.nodes.size, rfl, hreport.leaf heps (fun _ hs => by cases hs) line none⟩
  | cons c cs =>
    refine ⟨.chain g.nodes.size cs.length, ?_,
      h.rearrange (.addString g quoted line) (h.assembled.text quoted line htext)⟩
    have hlast : (((g.readQuoted quoted).2.addNode { kind := .char c.toNat .main, line }).2.addChars
        line g.nodes.size cs).1 = g.nodes.size + cs.length := addChars_fst cs size_addNode.symm
    simp only [Grammar.addString, htext, Phrase.fragment_chain, ← hlast]
    rfl

/-- Parts one after the other become one. -/
theorem sequenceAll {fs : List Phrase} (h : g.Building base (f :: (fs ++ parts))) :
    ∃ f' : Phrase, (g.sequenceAll f.fragment (fs.map Phrase.fragment)).1 = f'.fragment ∧
      (g.sequenceAll f.fragment (fs.map Phrase.fragment)).2.Building base (f' :: parts) := by
  induction fs generalizing g f with
  | nil => exact ⟨f, rfl, h⟩
  | cons f₂ fs ih => exact ih (h.rearrange (.sequence _ _) h.assembled.sequence)

/-- Parts as further arms of an alternative become one with it. -/
theorem addArms {fs : List Phrase} (harms : f.isArms = true)
    (h : g.Building base (f :: (fs ++ parts))) :
    ∃ f' : Phrase, (g.addArms f.fragment (fs.map Phrase.fragment)).1 = f'.fragment ∧
      (g.addArms f.fragment (fs.map Phrase.fragment)).2.Building base (f' :: parts) := by
  induction fs generalizing g f with
  | nil => exact ⟨f, rfl, h⟩
  | cons f₂ fs ih =>
    have hmore := ih (Phrase.isArms_snoc harms)
      (h.rearrange (.addArm _ _) (h.assembled.addArm harms))
    rwa [Phrase.fragment_snoc harms] at hmore

/-! ### Symbols -/

/-- A new symbol without a production and a flag is added. -/
theorem push {sym : Symbol} {ds : Diagnostics} (h : g.Building base parts)
    (hnumber : sym.kind = .nonterminal → sym.number = g.nonterminals.length)
    (hproduction : sym.production = none) (hflag : sym.deletable = false) :
    (g.push sym ds).Building base parts := by
  -- what has a production was there before
  have hold : ∀ s ∈ (g.push sym ds).nonterminals, ((g.push sym ds).sym s).production.isSome →
      s ∈ g.nonterminals ∧ (g.push sym ds).sym s = g.sym s := by
    intro s hs hsome
    rcases mem_nonterminals_push hs with hs | ⟨_, heq, _⟩
    · exact hs
    · rw [heq, hproduction] at hsome
      cases hsome
  constructor
  · exact h.assembled.declare (Nat.le_refl _) fun _ _ _ _ => ⟨rfl, rfl⟩
  · intro s hs p hp
    obtain ⟨hs, heq⟩ := hold s hs (Option.isSome_of_mem hp)
    exact h.production s hs p (heq ▸ hp)
  · intro s hs t ht hsome hst
    obtain ⟨hs, hs'⟩ := hold s hs hsome
    obtain ⟨ht, ht'⟩ := hold t ht (hst ▸ hsome)
    rw [hs'] at hsome hst
    rw [ht'] at hst
    exact h.apart s hs t ht hsome hst
  · exact fun p s hs => mem_nonterminals_push_of_mem (h.refers p s hs)
  · exact h.numbered.push hnumber
  · exact fun s hs => mem_nonterminals_push_of_mem (h.start s hs)
  · intro s
    rw [sym_push]
    split
    · exact hflag
    · exact h.unflagged s

theorem declareSymbol (h : g.Building base parts) (kind : SymbolKind) (name : String) (line : Nat) :
    (g.declareSymbol kind name line).2.Building base parts := by
  obtain ⟨name', ds, heq⟩ := exists_declareSymbol_eq g kind name line
  rw [heq]
  exact h.push (fun hkind => by rw [show kind = .nonterminal from hkind]; rfl) rfl rfl

/-- A symbol is found or declared. -/
theorem internSymbol (h : g.Building base parts) (kind : SymbolKind) (name : String) (line : Nat) :
    (g.internSymbol kind name line).2.Building base parts ∧
      (g.internSymbol kind name line).1 ∈ (g.internSymbol kind name line).2.ofKind kind := by
  unfold Grammar.internSymbol
  cases hfind : g.findOfKind kind name with
  | some s => exact ⟨h, List.mem_of_find?_eq_some hfind⟩
  | none =>
    refine ⟨h.declareSymbol kind name line, ?_⟩
    obtain ⟨name', ds, heq⟩ := exists_declareSymbol_eq g kind name line
    have hlt : g.symbols.size < (g.push { kind, name := name', number := g.nextNumber kind, line }
      ds).symbols.size := Nat.lt_of_lt_of_eq (Nat.lt_succ_self _) (Array.size_push _).symm
    refine mem_ofKind.2 ⟨heq ▸ hlt, ?_⟩
    show ((g.declareSymbol kind name line).2.sym g.symbols.size).kind = kind
    rw [heq, sym_push, if_pos rfl]

theorem addSymbolLeaf (h : g.Building base parts) {make : SymbolId → NodeKind}
    (hleaf : ∀ s, (make s).isLeaf = true)
    (href : ∀ s, ∀ t ∈ (make s).reference?, t = s ∧ kind = .nonterminal) :
    ∃ f : Phrase, (g.addSymbolLeaf kind make name line).1 = f.fragment ∧
      (g.addSymbolLeaf kind make name line).2.Building base (f :: parts) := by
  obtain ⟨hintern, hmem⟩ := h.internSymbol kind name line
  refine ⟨.leaf (g.internSymbol kind name line).2.nodes.size, rfl,
    hintern.leaf (hleaf _) (fun t ht => ?_) line none⟩
  obtain ⟨rfl, rfl⟩ := href _ t ht
  exact hmem

/-! ### Expressions -/

mutual

/-- An expression without old parts becomes one part. -/
theorem addExpr {g : Grammar} {parts : List Phrase} (h : g.Building base parts) (line : Nat)
    (e : Expr) (he : e.isNew = true) :
    ∃ f : Phrase, (g.addExpr line e).1 = f.fragment ∧
      (g.addExpr line e).2.Building base (f :: parts) := by
  have hleaf : ∀ {kind : NodeKind} (pos : Option Position), kind.isLeaf = true →
      kind.reference? = none → ∃ f : Phrase, (g.addLeaf { kind, line, pos }).1 = f.fragment ∧
        (g.addLeaf { kind, line, pos }).2.Building base (f :: parts) :=
    fun pos hkind hnone => ⟨.leaf g.nodes.size, rfl,
      h.leaf hkind (fun s hs => by rw [hnone] at hs; cases hs) line pos⟩
  cases e with
  | terminal name | weak name | pragma name =>
    exact h.addSymbolLeaf (fun _ => rfl) fun _ _ ht => by cases ht
  | nonterminal name =>
    exact h.addSymbolLeaf (fun _ => rfl) fun _ _ ht => ⟨(Option.some.inj ht).symm, rfl⟩
  | any | eps | sync | char c | cls id => exact hleaf none rfl rfl
  | action pos | resolver pos => exact hleaf (some (pos.getD ⟨0, 0, line, 1⟩)) rfl rfl
  | quoted text => exact h.text text line
  | seq e es =>
    obtain ⟨he, hes⟩ := Bool.and_eq_true_iff.1 he
    obtain ⟨f, hf, hfirst⟩ := addExpr h line e he
    obtain ⟨fs, hfs, hall⟩ := addExprs hfirst line es hes
    simp only [Grammar.addExpr, hf, hfs]
    exact (hall.perm List.perm_middle).sequenceAll
  | alt e es =>
    obtain ⟨he, hes⟩ := Bool.and_eq_true_iff.1 he
    obtain ⟨f, hf, hfirst⟩ := addExpr h line e he
    obtain ⟨fs, hfs, hall⟩ := addExprs hfirst line es hes
    have hparts := hall.perm List.perm_middle
    simp only [Grammar.addExpr, hf, hfs]
    exact (hparts.rearrange (.firstArm _) hparts.assembled.firstArm).addArms rfl
  | iter e =>
    obtain ⟨f, hf, hbody⟩ := addExpr h line e he
    simp only [Grammar.addExpr, hf]
    exact ⟨.iter _ f, rfl, hbody.rearrange (.iteration _) hbody.assembled.iteration⟩
  | opt e =>
    obtain ⟨f, hf, hbody⟩ := addExpr h line e he
    simp only [Grammar.addExpr, hf]
    exact ⟨.opt _ f, rfl, hbody.rearrange (.option _) hbody.assembled.option⟩
  | onLine line' e => exact addExpr h line' e he
  | context e | fragment f => cases he

/-- Expressions become parts, one for each. -/
theorem addExprs {g : Grammar} {parts : List Phrase} (h : g.Building base parts) (line : Nat)
    (es : List Expr) (hes : Expr.areNew es = true) :
    ∃ fs : List Phrase, (g.addExprs line es).1 = fs.map Phrase.fragment ∧
      (g.addExprs line es).2.Building base (fs ++ parts) := by
  cases es with
  | nil => exact ⟨[], rfl, h⟩
  | cons e es =>
    obtain ⟨he, hes⟩ := Bool.and_eq_true_iff.1 hes
    obtain ⟨f, hf, hfirst⟩ := addExpr h line e he
    obtain ⟨fs, hfs, hall⟩ := addExprs hfirst line es hes
    refine ⟨f :: fs, ?_, hall.perm List.perm_middle⟩
    simp only [Grammar.addExprs, hf, hfs, List.map_cons]

end

/-! ### Productions -/

/-- No production begins where a part does. -/
theorem production_ne (h : g.Building base [f]) (ht : t ∈ g.nonterminals) :
    (g.sym t).production ≠ some f.entry := by
  intro heq
  obtain ⟨e, he, hentry⟩ := h.production t ht f.entry heq
  have hdisjoint := (List.pairwise_cons.1 h.assembled.toPool.disjoint).1 e he
  exact hdisjoint f.entry_mem_nodes (hentry ▸ e.entry_mem_nodes)

/-- A part becomes the production of a nonterminal. -/
theorem giveProduction (h : g.Building base [f]) (hs : s ∈ g.nonterminals)
    (hg' : g' = { g.modifySym s (fun sym => { sym with production := some f.entry }) with
      start := g.start <|> some s }) : g'.Building (f :: base) [] := by
  have hsize : g'.symbols.size = g.symbols.size := by
    rw [hg']
    exact size_modifySym
  have hself : (g'.sym s).production = some f.entry := by
    rw [hg']
    exact congrArg Symbol.production (sym_modifySym_self (mem_nonterminals.1 hs).1)
  have hother : ∀ t, t ≠ s → (g'.sym t).production = (g.sym t).production := by
    intro t ht
    rw [hg']
    exact congrArg Symbol.production (sym_modifySym_of_ne ht)
  have hkeeps : ∀ {α : Type} (field : Symbol → α), (∀ sym : Symbol,
      field { sym with production := some f.entry } = field sym) →
      ∀ t, field (g'.sym t) = field (g.sym t) := by
    intro α field hfield t
    rw [hg']
    exact modifySym_keeps field hfield
  have hnts : g'.nonterminals = g.nonterminals := by
    unfold nonterminals ofKind
    simp only [hsize, hkeeps Symbol.kind fun _ => rfl]
  constructor
  · rw [hg']
    exact h.assembled.declare (Nat.le_refl _) fun _ _ _ _ => ⟨rfl, rfl⟩
  · intro t ht p hp
    by_cases hts : t = s
    · rw [hts, hself] at hp
      exact ⟨f, List.mem_cons_self, Option.some.inj hp⟩
    · rw [hother t hts] at hp
      obtain ⟨e, he, hentry⟩ := h.production t (hnts ▸ ht) p hp
      exact ⟨e, List.mem_cons_of_mem f he, hentry⟩
  · intro t ht u hu hsome heq
    rw [hnts] at ht hu
    by_cases hts : t = s <;> by_cases hus : u = s
    · rw [hts, hus]
    · rw [hts, hself, hother u hus] at heq
      exact absurd heq.symm (h.production_ne hu)
    · rw [hus, hself, hother t hts] at heq
      exact absurd heq (h.production_ne ht)
    · rw [hother t hts] at hsome heq
      rw [hother u hus] at heq
      exact h.apart t ht u hu hsome heq
  · rw [hnts, hg']
    exact h.refers
  · simp only [Numbered, hnts, hkeeps Symbol.number fun _ => rfl]
    exact h.numbered
  · rw [hnts, hg']
    intro t ht
    cases hstart : g.start with
    | none =>
      rw [hstart] at ht
      exact Option.some.inj ht ▸ hs
    | some r =>
      rw [hstart] at ht
      exact h.start t (hstart.trans ht)
  · exact fun t => (hkeeps Symbol.deletable (fun _ => rfl) t).trans (h.unflagged t)

/-- Declaring a production adds its phrase. -/
theorem declareProduction (h : g.Building base []) (name : String) (e : Expr) (he : e.isNew = true)
    (line : Nat) : ∃ f : Phrase, (g.declareProduction name e line).2.2.Building (f :: base) [] := by
  obtain ⟨f, hf, hexpr⟩ := h.addExpr line e he
  obtain ⟨hintern, hmem⟩ := hexpr.internSymbol .nonterminal name line
  have hclose := hintern.rearrange .link (hintern.assembled.close List.mem_cons_self)
  refine ⟨f, ?_⟩
  simp only [Grammar.declareProduction, hf]
  refine hclose.giveProduction ?_ rfl
  rwa [nonterminals_congr Rearranges.link.symbols_eq]

end Building

theorem building_initial : initial.Building [] [] where
  assembled := .start initial
  production := by decide
  apart := by decide
  refers p s hs := by cases hs
  numbered := by
    unfold Numbered
    decide
  start := by decide
  unflagged s := by
    cases s <;> rfl

/-- The grammars that arise when symbols and productions are declared. -/
inductive Written : Grammar → Prop
  | initial : Written initial
  /-- classes, literals and ignored characters do not matter; any nonterminal can be the start
  symbol -/
  | change {g g' : Grammar} (h : Written g) (hsymbols : g'.symbols = g.symbols)
      (hnodes : g'.nodes = g.nodes) (hstart : ∀ s ∈ g'.start, s ∈ g.nonterminals) : Written g'
  | declareSymbol {g : Grammar} (h : Written g) (kind : SymbolKind) (name : String) (line : Nat) :
      Written (g.declareSymbol kind name line).2
  | declareProduction {g : Grammar} (h : Written g) (name : String) {e : Expr} (he : e.isNew = true)
      (line : Nat) : Written (g.declareProduction name e line).2.2

/-- In a grammar that is written down productions are phrases, each nonterminal has one of its own, and
no symbol is flagged as deletable. -/
theorem Written.exists_orderly (h : Written g) :
    ∃ pool, g.Orderly pool ∧ ∀ sym ∈ g.symbols, sym.deletable = false := by
  have hbuilding : ∃ pool, g.Building pool [] := by
    induction h with
    | initial => exact ⟨[], building_initial⟩
    | change _ hsymbols hnodes hstart ih =>
      obtain ⟨pool, hpool⟩ := ih
      exact ⟨pool, hpool.change hsymbols hnodes hstart⟩
    | declareSymbol _ kind name line ih =>
      obtain ⟨pool, hpool⟩ := ih
      exact ⟨pool, hpool.declareSymbol kind name line⟩
    | declareProduction _ name he line ih =>
      obtain ⟨pool, hpool⟩ := ih
      obtain ⟨f, hmore⟩ := hpool.declareProduction name _ he line
      exact ⟨f :: pool, hmore⟩
  obtain ⟨pool, hpool⟩ := hbuilding
  refine ⟨pool, hpool.orderly, fun sym hsym => ?_⟩
  obtain ⟨s, hs, rfl⟩ := Array.mem_iff_getElem.1 hsym
  have hflag := hpool.unflagged s
  rwa [Grammar.sym, Array.getD_eq_getD_getElem?, Array.getElem?_eq_getElem hs] at hflag

end Grammar

end Ebnf
