import Ebnf.Proofs.Analysis.AnyBehind
import Ebnf.Proofs.Analysis.Sync
import Ebnf.Proofs.Check.Verdict

/-!
# Numbers in symbol sets

A terminal is declared for unknown text behind all others, and no node refers to it.  The
numbers in symbol sets come from the terminals that nodes refer to, from the end of the
input, and from what ANYs stand for.  The analyses take unions and differences of these
sets in an order in which a set can be read before it is final; but each single step
keeps to the numbers that were there from the beginning.

Main results:

- Theorem `Grammar.Within.mem_first`: what a chain starts with is a token, whatever sets
  are known.
- Theorem `Grammar.Within.computeSets`: the analyses keep to the numbers of tokens, and
  ANYs only lose members.
-/

namespace Ebnf

/-- The terminal that a node stands for. -/
def NodeKind.terminal? : NodeKind → Option SymbolId
  | terminal s | weak s => some s
  | _ => none

namespace Grammar

variable {g₀ g g' : Grammar} {nodes : NodeId → Prop} {k : Option NodeId} {p : NodeId}
  {s cur : SymbolId} {n : Nat}

/-- The number of a terminal other than the one for unknown text. -/
structure IsToken (g : Grammar) (n : Nat) : Prop where
  lt_length : n < g.terminals.length
  ne_unknown : ∀ u ∈ g.unknown, n ≠ (g.sym u).number

theorem Ordinary.isToken (h : g.Ordinary n) : g.IsToken n :=
  ⟨h.lt_length, h.ne_unknown⟩

/-- The terminals that nodes stand for are tokens, and so is the end of the input. -/
structure NamesTokens (g : Grammar) : Prop where
  refers : ∀ p < g.nodes.size, ∀ s ∈ (g.node p).kind.terminal?, g.IsToken (g.sym s).number
  eof : g.IsToken (g.sym g.eof).number

/-- The grammar has the symbols and nodes of `g₀`, its ANYs stand for no more terminals than there,
and all its sets hold tokens of `g₀` only. -/
structure Within (g₀ g : Grammar) : Prop where
  size_eq : g.nodes.size = g₀.nodes.size
  kind_eq : ∀ p, (g.node p).kind = (g₀.node p).kind
  symbols_size_eq : g.symbols.size = g₀.symbols.size
  heading_eq : ∀ s, (g.sym s).heading = (g₀.sym s).heading
  eof_eq : g.eof = g₀.eof
  unknown_eq : g.unknown = g₀.unknown
  mem_any : ∀ p, (g₀.node p).kind = .any → ∀ n ∈ (g.node p).set, n ∈ (g₀.node p).set
  mem_set : ∀ p, ∀ n ∈ (g.node p).set, g₀.IsToken n
  mem_firstSet : ∀ s, ∀ n ∈ (g.sym s).first, g₀.IsToken n
  mem_follow : ∀ s, ∀ n ∈ (g.sym s).follow, g₀.IsToken n

namespace Within

/-! ## What is left alone -/

theorem symbolKind_eq (h : g₀.Within g) (s : SymbolId) : (g.sym s).kind = (g₀.sym s).kind :=
  congrArg Prod.fst (h.heading_eq s)

theorem number_eq (h : g₀.Within g) (s : SymbolId) : (g.sym s).number = (g₀.sym s).number :=
  congrArg (·.2.1) (h.heading_eq s)

theorem ofKind_eq (h : g₀.Within g) (kind : SymbolKind) : g.ofKind kind = g₀.ofKind kind := by
  unfold ofKind
  simp only [h.symbols_size_eq, h.symbolKind_eq]

theorem isToken_iff (h : g₀.Within g) : g.IsToken n ↔ g₀.IsToken n := by
  have hterminals : g.terminals = g₀.terminals := h.ofKind_eq .terminal
  constructor
  · intro hn
    refine ⟨hterminals ▸ hn.lt_length, fun u hu => ?_⟩
    rw [← h.number_eq]
    exact hn.ne_unknown u (h.unknown_eq ▸ hu)
  · intro hn
    refine ⟨hterminals ▸ hn.lt_length, fun u hu => ?_⟩
    rw [h.number_eq]
    exact hn.ne_unknown u (h.unknown_eq ▸ hu)

/-- Fields that the analyses do not read may change. -/
theorem congr (h : g₀.Within g) (hsymbols : g'.symbols = g.symbols) (hnodes : g'.nodes = g.nodes)
    (heof : g'.eof = g.eof) (hunknown : g'.unknown = g.unknown) : g₀.Within g' := by
  have hsym : ∀ s, g'.sym s = g.sym s := fun s => by rw [sym, hsymbols, sym]
  have hnode : ∀ p, g'.node p = g.node p := fun p => by rw [node, hnodes, node]
  constructor
  · rw [hnodes, h.size_eq]
  · simpa only [hnode] using h.kind_eq
  · rw [hsymbols, h.symbols_size_eq]
  · simpa only [hsym] using h.heading_eq
  · rw [heof, h.eof_eq]
  · rw [hunknown, h.unknown_eq]
  · simpa only [hnode] using h.mem_any
  · simpa only [hnode] using h.mem_set
  · simpa only [hsym] using h.mem_firstSet
  · simpa only [hsym] using h.mem_follow

theorem reportAll (h : g₀.Within g) (ds : List Diagnostic) : g₀.Within (g.reportAll ds) :=
  h.congr rfl rfl rfl rfl

/-! ## Single changes -/

/-- Sets of tokens are noted in a symbol. -/
theorem modifySym {f : Symbol → Symbol} (h : g₀.Within g)
    (hf : ∀ sym, (f sym).heading = sym.heading)
    (hfirst : ∀ n ∈ (f (g.sym s)).first, g₀.IsToken n)
    (hfollow : ∀ n ∈ (f (g.sym s)).follow, g₀.IsToken n) : g₀.Within (g.modifySym s f) where
  size_eq := h.size_eq
  kind_eq := h.kind_eq
  symbols_size_eq := size_modifySym.trans h.symbols_size_eq
  heading_eq t := (modifySym_keeps Symbol.heading hf).trans (h.heading_eq t)
  eof_eq := h.eof_eq
  unknown_eq := h.unknown_eq
  mem_any := h.mem_any
  mem_set := h.mem_set
  mem_firstSet t n hn := by
    rw [sym_modifySym] at hn
    split at hn
    · next ht => exact hfirst n (ht.1 ▸ hn)
    · exact h.mem_firstSet t n hn
  mem_follow t n hn := by
    rw [sym_modifySym] at hn
    split at hn
    · next ht => exact hfollow n (ht.1 ▸ hn)
    · exact h.mem_follow t n hn

/-- A set of tokens is noted in a node; an ANY keeps no others than it had. -/
theorem modifyNode {f : Node → Node} (h : g₀.Within g) (hf : ∀ n, (f n).kind = n.kind)
    (hset : ∀ n ∈ (f (g.node p)).set, g₀.IsToken n)
    (hany : (g₀.node p).kind = .any → ∀ n ∈ (f (g.node p)).set, n ∈ (g₀.node p).set) :
    g₀.Within (g.modifyNode p f) where
  size_eq := size_modifyNode.trans h.size_eq
  kind_eq q := by
    rw [node_modifyNode]
    split
    · exact (hf _).trans (h.kind_eq q)
    · exact h.kind_eq q
  symbols_size_eq := h.symbols_size_eq
  heading_eq := h.heading_eq
  eof_eq := h.eof_eq
  unknown_eq := h.unknown_eq
  mem_any q hq n hn := by
    rw [node_modifyNode] at hn
    split at hn
    · next hqp =>
      obtain ⟨rfl, -⟩ := hqp
      exact hany hq n hn
    · exact h.mem_any q hq n hn
  mem_set q n hn := by
    rw [node_modifyNode] at hn
    split at hn
    · next hqp => exact hset n (hqp.1 ▸ hn)
    · exact h.mem_set q n hn
  mem_firstSet := h.mem_firstSet
  mem_follow := h.mem_follow

/-! ## What a chain starts with -/

section Chains

variable (hnames : g₀.NamesTokens)
include hnames

theorem mem_startTerminals (h : g₀.Within g) (hp : p < g.nodes.size)
    (hn : n ∈ g.startTerminals p) : g₀.IsToken n := by
  have hrefers : ∀ s ∈ (g.node p).kind.terminal?, g₀.IsToken (g.sym s).number := by
    intro s hs
    rw [h.kind_eq] at hs
    rw [h.number_eq]
    exact hnames.refers p (h.size_eq ▸ hp) s hs
  unfold startTerminals at hn
  cases hkind : (g.node p).kind with
  | terminal s | weak s =>
    rw [hkind] at hn hrefers
    rw [BitSet.mem_singleton.1 hn]
    exact hrefers s rfl
  | any =>
    rw [hkind] at hn
    exact h.mem_set p n hn
  | nonterminal s =>
    simp only [hkind] at hn
    split at hn
    · exact h.mem_firstSet s n hn
    · exact absurd hn (BitSet.not_mem_empty n)
  | _ =>
    rw [hkind] at hn
    exact absurd hn (BitSet.not_mem_empty n)

theorem mem_first (h : g₀.Within g) (hn : n ∈ g.first k) : g₀.IsToken n := by
  obtain ⟨r, hreached, hn⟩ := Grammar.mem_first.1 hn
  exact h.mem_startTerminals hnames hreached.of_fresh hn

theorem mem_expected (h : g₀.Within g) (hn : n ∈ g.expected k cur) : g₀.IsToken n := by
  unfold expected at hn
  split at hn
  · rcases BitSet.mem_union.1 hn with hn | hn
    · exact h.mem_first hnames hn
    · exact h.mem_follow cur n hn
  · exact h.mem_first hnames hn

end Chains

/-! ## The analyses -/

theorem flagDeletable (h : g₀.Within g) (s : SymbolId) : g₀.Within (g.flagDeletable s) := by
  simp only [Grammar.flagDeletable]
  split
  · exact h.modifySym (fun _ => rfl) (h.mem_firstSet s) (h.mem_follow s)
  · exact h

theorem closeDeletable (fuel : Nat) (h : g₀.Within g) : g₀.Within (closeDeletable fuel g) := by
  induction fuel generalizing g with
  | zero => exact h
  | succ fuel ih =>
    have hround : g₀.Within (g.nonterminals.foldl Grammar.flagDeletable g) :=
      List.foldlRecOn g.nonterminals _ h fun _ h s _ => h.flagDeletable s
    rw [Grammar.closeDeletable]
    split
    · exact hround
    · exact ih hround

theorem computeDeletable (h : g₀.Within g) : g₀.Within g.computeDeletable :=
  (h.closeDeletable _).reportAll _

/-- Narrowing only takes members away. -/
theorem narrow (h : g₀.Within g) (any : NodeId) (set : BitSet) : g₀.Within (g.narrow any set) :=
  h.modifyNode (fun _ => rfl) (fun n hn => h.mem_set any n (BitSet.mem_diff.1 hn).1)
    fun hany n hn => h.mem_any any hany n (BitSet.mem_diff.1 hn).1

theorem narrows (h : g₀.Within g) (hnarrows : Narrows nodes g g') : g₀.Within g' := by
  induction hnarrows with
  | refl => exact h
  | tail _ hstep ih =>
    obtain ⟨any, _, _, set, rfl⟩ := hstep
    exact ih.narrow any set

theorem computeAnys (h : g₀.Within g) : g₀.Within g.computeAnys :=
  h.narrows g.computeAnys_narrows

theorem inheritFrom (h : g₀.Within g) (cur s : SymbolId) (i : Nat) (t : SymbolId) :
    g₀.Within (g.inheritFrom cur s i t) :=
  h.modifySym (fun _ => rfl) (h.mem_firstSet s) fun n hn =>
    (BitSet.mem_union.1 hn).elim (h.mem_follow s n) (h.mem_follow t n)

section Names

variable (hnames : g₀.NamesTokens)
include hnames

theorem computeFirst (h : g₀.Within g) (s : SymbolId) : g₀.Within (g.computeFirst s) :=
  h.modifySym (fun _ => rfl) (fun _ hn => h.mem_first hnames hn) (h.mem_follow s)

theorem computeFirsts (h : g₀.Within g) : g₀.Within g.computeFirsts := by
  refine List.foldlRecOn _ _ (List.foldlRecOn g.nonterminals _ h fun g' h s _ => ?_)
    fun _ h s _ => h.computeFirst hnames s
  exact h.modifySym (fun _ => rfl) (fun n hn => absurd hn (BitSet.not_mem_empty n)) (h.mem_follow s)

theorem clearFollow (h : g₀.Within g) : g₀.Within g.clearFollow := by
  have hclear : g₀.Within (g.nonterminals.foldl
      (fun g s => g.modifySym s fun sym => { sym with follow := ∅, inherits := ∅ }) g) :=
    List.foldlRecOn g.nonterminals _ h fun g' h s _ => h.modifySym (fun _ => rfl)
      (h.mem_firstSet s) fun n hn => absurd hn (BitSet.not_mem_empty n)
  unfold Grammar.clearFollow
  simp only
  split
  · next s _ =>
    refine hclear.modifySym (fun _ => rfl) (hclear.mem_firstSet s) fun n hn => ?_
    rcases BitSet.mem_insert.1 hn with rfl | hn
    · rw [hclear.number_eq, hclear.eof_eq]
      exact hnames.eof
    · exact hclear.mem_follow s n hn
  · exact hclear

theorem followNode (h : g₀.Within g) (cur : SymbolId) (p : NodeId) :
    g₀.Within (g.followNode cur p) := by
  unfold Grammar.followNode
  split
  · next s _ =>
    refine h.modifySym (fun _ => rfl) (h.mem_firstSet s) fun n hn => ?_
    exact (BitSet.mem_union.1 hn).elim (h.mem_follow s n) (h.mem_first hnames)
  · exact h

theorem computeFollows (h : g₀.Within g) : g₀.Within g.computeFollows := by
  refine List.foldlRecOn _ _ (List.foldlRecOn g.productionNodes _ (h.clearFollow hnames)
    fun _ h entry _ => h.followNode hnames entry.1 entry.2) fun _ h s _ => ?_
  exact complete_keeps _ s (fun _ t i u h => h.inheritFrom s t i u) _ s _ h

/-- The set of a SYNC holds what is expected there, and the end of the input. -/
theorem mem_resumption (h : g₀.Within g) (hn : n ∈ g.resumption cur p) : g₀.IsToken n := by
  rcases Grammar.mem_resumption.1 hn with hn | rfl
  · exact h.mem_expected hnames hn
  · rw [h.number_eq, h.eof_eq]
    exact hnames.eof

theorem syncNode (h : g₀.Within g) (cur : SymbolId) (p : NodeId) :
    g₀.Within (g.syncNode cur p) := by
  unfold Grammar.syncNode
  split
  · next hkind =>
    have hnode : g₀.Within (g.modifyNode p fun n => { n with set := g.resumption cur p }) := by
      refine h.modifyNode (fun _ => rfl) (fun n hn => h.mem_resumption hnames hn) fun hany => ?_
      rw [← h.kind_eq, hkind] at hany
      cases hany
    exact hnode.congr rfl rfl rfl rfl
  · exact h

/-- The SYNC nodes get sets of tokens, and so does their union. -/
theorem computeSyncs (h : g₀.Within g) :
    g₀.Within g.computeSyncs ∧ ∀ n ∈ g.computeSyncs.syncUnion, g₀.IsToken n := by
  refine List.foldlRecOn g.productionNodes _
    (motive := fun g' => g₀.Within g' ∧ ∀ n ∈ g'.syncUnion, g₀.IsToken n) ?_
    fun g' ⟨h, hunion⟩ entry _ => ⟨h.syncNode hnames entry.1 entry.2, fun n hn => ?_⟩
  · refine ⟨h.congr rfl rfl rfl rfl, fun n hn => ?_⟩
    rw [BitSet.mem_singleton.1 hn, h.number_eq, h.eof_eq]
    exact hnames.eof
  · rcases mem_syncUnion_syncNode.1 hn with hn | ⟨_, hn⟩
    · exact hunion n hn
    · exact h.mem_resumption hnames hn

/-- All analyses keep to the numbers of tokens. -/
theorem computeSets (h : g₀.Within g) :
    g₀.Within g.computeSets ∧ ∀ n ∈ g.computeSets.syncUnion, g₀.IsToken n :=
  (((h.computeDeletable.computeFirsts hnames).computeAnys).computeFollows hnames).computeSyncs
    hnames

end Names

end Within

/-! ## Before the analyses -/

/-- No set is computed yet, and the terminals are numbered in the order of their declaration. -/
structure Unanalysed (g : Grammar) : Prop where
  numbered : ∀ s ∈ g.terminals, g.terminals[(g.sym s).number]? = some s
  eof_mem : g.eof ∈ g.terminals
  set_eq : ∀ p, (g.node p).set = ∅
  first_eq : ∀ s, (g.sym s).first = ∅
  follow_eq : ∀ s, (g.sym s).follow = ∅

theorem Unanalysed.number_lt (h : g.Unanalysed) (hs : s ∈ g.terminals) :
    (g.sym s).number < g.terminals.length :=
  (List.getElem?_eq_some_iff.1 (h.numbered s hs)).1

/-- Only pragmas get other numbers. -/
structure Renumbers (g g' : Grammar) : Prop where
  nodes_eq : g'.nodes = g.nodes
  symbols_size_eq : g'.symbols.size = g.symbols.size
  sym_eq : ∀ s, g'.sym s = { g.sym s with number := (g'.sym s).number }
  number_eq : ∀ s, (g.sym s).kind ≠ .pragma → (g'.sym s).number = (g.sym s).number
  eof_eq : g'.eof = g.eof
  unknown_eq : g'.unknown = g.unknown

theorem numberPragmas_renumbers (g : Grammar) : g.Renumbers g.numberPragmas := by
  refine List.foldlRecOn _ _ (motive := g.Renumbers) ⟨rfl, rfl, fun _ => rfl, fun _ _ => rfl, rfl, rfl⟩
    fun g' h entry hentry => ?_
  have hpragma := (mem_ofKind.1 (List.fst_mem_of_mem_zipIdx hentry)).2
  refine ⟨h.nodes_eq, size_modifySym.trans h.symbols_size_eq, fun s => ?_, fun s hs => ?_, h.eof_eq,
    h.unknown_eq⟩
  · rw [sym_modifySym]
    split
    · rw [h.sym_eq s]
    · exact h.sym_eq s
  · have hne : s ≠ entry.1 := fun heq => hs (heq ▸ hpragma)
    rw [sym_modifySym_of_ne hne]
    exact h.number_eq s hs

namespace Renumbers

theorem node_eq (h : g.Renumbers g') (p : NodeId) : g'.node p = g.node p := by
  rw [node, h.nodes_eq, node]

theorem terminals_eq (h : g.Renumbers g') : g'.terminals = g.terminals := by
  have hkind : ∀ s, (g'.sym s).kind = (g.sym s).kind := fun s => by rw [h.sym_eq s]
  unfold terminals ofKind
  simp only [h.symbols_size_eq, hkind]

theorem number_eq_of_mem (h : g.Renumbers g') (hs : s ∈ g.terminals) :
    (g'.sym s).number = (g.sym s).number := by
  refine h.number_eq s fun hpragma => ?_
  rw [(mem_ofKind.1 hs).2] at hpragma
  cases hpragma

end Renumbers

/-- The grammar as it comes to the analyses. -/
def prepared (g : Grammar) : Grammar :=
  g.declareUnknown.2.fillAnys.numberPragmas

theorem prepared_renumbers (g : Grammar) : g.declareUnknown.2.fillAnys.Renumbers g.prepared :=
  numberPragmas_renumbers _

theorem terminals_declareUnknown : g.declareUnknown.2.terminals = g.terminals ++ [g.symbols.size] := by
  rw [declareUnknown_eq]
  exact @terminals_push g
    { kind := .terminal, name := "???", number := g.terminals.length, line := 0 } g.diags

theorem terminals_prepared : g.prepared.terminals = g.terminals ++ [g.symbols.size] :=
  g.prepared_renumbers.terminals_eq.trans terminals_declareUnknown

theorem unknown_prepared : g.prepared.unknown = some g.symbols.size := by
  rw [g.prepared_renumbers.unknown_eq]
  rfl

theorem eof_prepared : g.prepared.eof = g.eof := by
  rw [g.prepared_renumbers.eof_eq]
  show g.declareUnknown.2.eof = g.eof
  rw [declareUnknown_eq]

theorem number_unknown_prepared : (g.prepared.sym g.symbols.size).number = g.terminals.length := by
  have hmem : g.symbols.size ∈ g.declareUnknown.2.terminals := by
    rw [terminals_declareUnknown]
    exact List.mem_append_right _ List.mem_cons_self
  rw [g.prepared_renumbers.number_eq_of_mem hmem]
  refine (congrArg Symbol.number sym_declareUnknown).trans ?_
  rw [if_pos rfl]

/-- A terminal keeps its number. -/
theorem number_prepared (hs : s ∈ g.terminals) : (g.prepared.sym s).number = (g.sym s).number := by
  have hmem : s ∈ g.declareUnknown.2.terminals := by
    rw [terminals_declareUnknown]
    exact List.mem_append_left _ hs
  rw [g.prepared_renumbers.number_eq_of_mem hmem]
  refine (congrArg Symbol.number sym_declareUnknown).trans ?_
  rw [if_neg (Nat.ne_of_lt (mem_ofKind.1 hs).1)]

/-- The tokens are the terminals that were declared before. -/
theorem isToken_prepared_iff : g.prepared.IsToken n ↔ n < g.terminals.length := by
  have hlength : g.prepared.terminals.length = g.terminals.length + 1 := by
    rw [terminals_prepared, List.length_append, List.length_singleton]
  constructor
  · intro hn
    have hne := hn.ne_unknown _ unknown_prepared
    rw [number_unknown_prepared] at hne
    have hlt := hn.lt_length
    omega
  · intro hn
    refine ⟨by omega, fun u hu => ?_⟩
    obtain rfl := Option.some.inj (unknown_prepared.symm.trans hu)
    rw [number_unknown_prepared]
    exact Nat.ne_of_lt hn

/-- An ANY stands for the declared terminals, but not for the end of the input. -/
theorem mem_set_prepared (heof : g.eof ∈ g.terminals) (hkind : (g.node p).kind = .any)
    (hn : n ∈ (g.prepared.node p).set) :
    n < g.terminals.length ∧ n ≠ (g.sym g.eof).number := by
  have hnode : ∀ q, g.declareUnknown.2.node q = g.node q := fun q => by rw [declareUnknown_eq]; rfl
  have hp : p < g.nodes.size := by
    by_contra hp
    rw [node_of_size_le (Nat.le_of_not_lt hp)] at hkind
    cases hkind
  have hordinary : g.declareUnknown.2.Ordinary n := by
    rw [g.prepared_renumbers.node_eq] at hn
    refine (mem_set_fillAnys ((hnode p).symm ▸ hkind) ?_).1 hn
    rwa [declareUnknown_eq]
  have hlt := hordinary.lt_length
  have hunknown := hordinary.ne_unknown _ (congrArg Grammar.unknown declareUnknown_eq)
  have hne := hordinary.ne_eof
  rw [terminals_declareUnknown, List.length_append, List.length_singleton] at hlt
  rw [sym_declareUnknown, if_pos rfl] at hunknown
  rw [congrArg Grammar.eof declareUnknown_eq, sym_declareUnknown,
    if_neg (Nat.ne_of_lt (mem_ofKind.1 heof).1)] at hne
  exact ⟨by simp only at hunknown; omega, hne⟩

theorem prepared_kind_eq (p : NodeId) : (g.prepared.node p).kind = (g.node p).kind :=
  g.prepared_annotates.kind_eq p

theorem first_prepared (s : SymbolId) : (g.prepared.sym s).first = (g.sym s).first := by
  rw [g.prepared_renumbers.sym_eq s]
  exact declareUnknown_keeps Symbol.first rfl

theorem follow_prepared (s : SymbolId) : (g.prepared.sym s).follow = (g.sym s).follow := by
  rw [g.prepared_renumbers.sym_eq s]
  exact declareUnknown_keeps Symbol.follow rfl

/-- Only the sets of ANYs are filled. -/
theorem set_prepared_of_ne (hkind : (g.node p).kind ≠ .any) :
    (g.prepared.node p).set = (g.node p).set := by
  rw [g.prepared_renumbers.node_eq, declareUnknown_eq]
  unfold node at hkind ⊢
  simp only [fillAnys, Array.getD_eq_getD_getElem?, Array.getElem?_map] at hkind ⊢
  cases hp : g.nodes[p]? with
  | none => rfl
  | some n =>
    rw [hp] at hkind
    simp only [Option.map_some, Option.getD_some] at hkind ⊢
    rw [if_neg hkind]

namespace Unanalysed

theorem prepared_within (h : g.Unanalysed) : g.prepared.Within g.prepared where
  size_eq := rfl
  kind_eq _ := rfl
  symbols_size_eq := rfl
  heading_eq _ := rfl
  eof_eq := rfl
  unknown_eq := rfl
  mem_any _ _ _ hn := hn
  mem_set p n hn := by
    by_cases hkind : (g.node p).kind = .any
    · exact isToken_prepared_iff.2 (mem_set_prepared h.eof_mem hkind hn).1
    · rw [set_prepared_of_ne hkind, h.set_eq] at hn
      exact absurd hn (BitSet.not_mem_empty n)
  mem_firstSet s n hn := by
    rw [first_prepared, h.first_eq] at hn
    exact absurd hn (BitSet.not_mem_empty n)
  mem_follow s n hn := by
    rw [follow_prepared, h.follow_eq] at hn
    exact absurd hn (BitSet.not_mem_empty n)

theorem prepared_namesTokens (h : g.Unanalysed)
    (hrefers : ∀ p < g.nodes.size, ∀ s ∈ (g.node p).kind.terminal?, s ∈ g.terminals) :
    g.prepared.NamesTokens where
  refers p hp s hs := by
    rw [prepared_kind_eq] at hs
    have hmem := hrefers p (g.prepared_annotates.size_eq ▸ hp) s hs
    rw [isToken_prepared_iff, number_prepared hmem]
    exact h.number_lt hmem
  eof := by
    rw [isToken_prepared_iff, eof_prepared, number_prepared h.eof_mem]
    exact h.number_lt h.eof_mem

end Unanalysed

/-! ## After the analyses -/

/-- All sets of terminals hold tokens only, and no ANY stands for the end of the input. -/
structure Confined (g : Grammar) : Prop where
  unknown_mem : ∃ u ∈ g.unknown, u ∈ g.terminals
  mem_firstSet : ∀ s ∈ g.nonterminals, ∀ n ∈ (g.sym s).first, g.IsToken n
  mem_follow : ∀ s ∈ g.nonterminals, ∀ n ∈ (g.sym s).follow, g.IsToken n
  mem_any : ∀ p, (g.node p).kind = .any → ∀ n ∈ (g.node p).set, g.Ordinary n
  mem_sync : ∀ p, (g.node p).kind = .sync → ∀ n ∈ (g.node p).set, g.IsToken n
  mem_syncUnion : ∀ n ∈ g.syncUnion, g.IsToken n
  mem_first : ∀ k, ∀ n ∈ g.first k, g.IsToken n

/-- Where no set is computed yet and nodes stand for declared terminals, the analyses compute sets of
tokens. -/
theorem Unanalysed.confined_analysed (h : g.Unanalysed)
    (hrefers : ∀ p < g.nodes.size, ∀ s ∈ (g.node p).kind.terminal?, s ∈ g.terminals) :
    g.analysed.Confined := by
  have hnames := h.prepared_namesTokens hrefers
  obtain ⟨hwithin, hunion⟩ := h.prepared_within.computeSets hnames
  have htoken : ∀ {n}, g.prepared.IsToken n → g.analysed.IsToken n := hwithin.isToken_iff.2
  exact
    { unknown_mem := by
        refine ⟨g.symbols.size, hwithin.unknown_eq.trans unknown_prepared, ?_⟩
        have hterminals : g.analysed.terminals = g.prepared.terminals := hwithin.ofKind_eq .terminal
        rw [hterminals, terminals_prepared]
        exact List.mem_append_right _ List.mem_cons_self
      mem_firstSet := fun s _ n hn => htoken (hwithin.mem_firstSet s n hn)
      mem_follow := fun s _ n hn => htoken (hwithin.mem_follow s n hn)
      mem_any := by
        intro p hkind n hn
        have hany : (g.prepared.node p).kind = .any := (hwithin.kind_eq p).symm.trans hkind
        have hset := hwithin.mem_any p hany n hn
        have hlost := (mem_set_prepared h.eof_mem (prepared_kind_eq p ▸ hany) hset).2
        obtain ⟨hlt, hne⟩ := htoken (hwithin.mem_set p n hn)
        refine ⟨hlt, ?_, hne⟩
        have heof : (g.analysed.sym g.analysed.eof).number = (g.sym g.eof).number := by
          have hsame : g.analysed.eof = g.eof := hwithin.eof_eq.trans eof_prepared
          rw [hsame, ← number_prepared h.eof_mem]
          exact hwithin.number_eq g.eof
        rwa [heof]
      mem_sync := fun p _ n hn => htoken (hwithin.mem_set p n hn)
      mem_syncUnion := fun n hn => htoken (hunion n hn)
      mem_first := fun k n hn => htoken (hwithin.mem_first hnames hn) }

end Grammar

end Ebnf
