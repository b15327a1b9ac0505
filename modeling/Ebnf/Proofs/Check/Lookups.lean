import Ebnf.Proofs.Grammar.Combined
import Ebnf.Proofs.Scanner.Literals

/-!
# Looking up terminals

A listing, a warning about a conflict and a test look up the terminals of a set by number.
A number without a terminal would have no name.  Here each lookup is made to fail in that
case; that none does is a matter of the sets that it is made for.

Main results:

- Theorem `Grammar.Confined.mem_symbolSet`: whatever is made from the sets of a grammar by
  the analyses, the checks and a parser holds tokens only.
- Theorem `Grammar.Confined.inRange`: no lookup fails where all sets are confined.
- Theorem `Draft.generate_inRange`: in a grammar that is put together from nodes for
  declared terminals, all sets are confined from the analyses on.
-/

namespace Ebnf

variable {g : Grammar} {set s t : BitSet} {cur : SymbolId} {n : Nat}

/-- A lookup that finds everything goes through a list as a function. -/
theorem mapM_eq_some_map {α β : Type} {find : α → Option β} {f : α → β} {xs : List α}
    (h : ∀ x ∈ xs, find x = some (f x)) : xs.mapM find = some (xs.map f) := by
  induction xs with
  | nil => rfl
  | cons x xs ih =>
    obtain ⟨hx, hxs⟩ := List.forall_mem_cons.1 h
    rw [List.mapM_cons, hx, ih hxs]
    rfl

/-! ## Lookups that can fail -/

namespace Grammar

/-- The terminal with a number, if there is one. -/
def terminal? (g : Grammar) (n : Nat) : Option SymbolId :=
  g.terminals[n]?

/-- The name of the terminal with a number, if there is one. -/
def terminalName? (g : Grammar) (n : Nat) : Option String :=
  (g.terminal? n).map fun s => (g.sym s).name

/-- The warnings for two sets that overlap, if all common numbers are those of terminals. -/
def overlapOn? (g : Grammar) (cur : SymbolId) (line : Nat) (what : String → Conflict)
    (s t : BitSet) : Option (List Diagnostic) :=
  (s.inter t).toList.mapM fun n => (g.terminalName? n).map fun name => g.conflictOn cur line (what name)

/-- Conflicts of an option or iteration by itself, if every lookup succeeds. -/
def groupConflicts? (g : Grammar) (cur : SymbolId) (p : NodeId) (body : Outline) :
    Option (List Diagnostic) :=
  let n := g.node p
  if g.deletableOutline body then some [g.conflictOn cur n.line .deletableContents]
  else g.overlapOn? cur n.line .successor (g.selecting n.sub cur) (g.expected n.next cur)

mutual

/-- Conflicts of an outline in the production of `cur`, if every lookup succeeds. -/
def conflicts? (g : Grammar) (cur : SymbolId) : Outline → Option (List Diagnostic)
  | .done => some []
  | .leaf p next => do
    let behind ← g.conflicts? cur (next ())
    pure ((if (g.node p).kind = .any ∧ (g.node p).set.isEmpty then
      [g.conflictOn cur (g.node p).line .emptyAny] else []) ++ behind)
  | .group p body next => do
    let here ← g.groupConflicts? cur p (body ())
    let inside ← g.conflicts? cur (body ())
    let behind ← g.conflicts? cur (next ())
    pure (here ++ inside ++ behind)
  | .arm p body down next => do
    let inside ← g.conflicts? cur (body ())
    let others ← g.armConflicts? cur (g.node p).line (g.selecting (g.node p).sub cur) (down ())
    let behind ← g.conflicts? cur (next ())
    pure (inside ++ others ++ behind)

/-- Conflicts of the further arms of an alternative, if every lookup succeeds. -/
def armConflicts? (g : Grammar) (cur : SymbolId) (line : Nat) (taken : BitSet) :
    Outline → Option (List Diagnostic)
  | .arm p body down _ => do
    let set := g.selecting (g.node p).sub cur
    let here ← g.overlapOn? cur line .alternatives taken set
    let inside ← g.conflicts? cur (body ())
    let others ← g.armConflicts? cur line (taken.union set) (down ())
    pure (here ++ inside ++ others)
  | _ => some []

end

/-- Conflicts of all productions, if every lookup succeeds. -/
def lookaheadConflicts? (g : Grammar) : Option (List Diagnostic) := do
  let found ← g.nonterminals.mapM fun s => g.conflicts? s (g.outline (g.sym s).production)
  pure found.flatten

end Grammar

namespace Listing

/-- A label and the names of the terminals of a set, if every lookup succeeds. -/
def setLines? (g : Grammar) (label : String) (indent : Nat) (set : BitSet) : Option (List String) := do
  let names ← set.toList.mapM g.terminalName?
  pure (wrapNames indent (Column.left indent label) names)

/-- Start and follow sets of a nonterminal, if every lookup succeeds. -/
def setsOf? (g : Grammar) (s : SymbolId) : Option String := do
  let sym := g.sym s
  let first ← setLines? g "first:" 9 sym.first
  let follow ← setLines? g "follow:" 9 sym.follow
  pure (Column.unlines (sym.name :: first ++ follow))

/-- Start and follow sets of all nonterminals, if every lookup succeeds. -/
def sets? (g : Grammar) : Option String := do
  let all ← g.nonterminals.mapM (setsOf? g)
  pure ("\n".intercalate all)

/-- The sets of all ANY and SYNC nodes, if every lookup succeeds. -/
def anySync? (g : Grammar) : Option String := do
  let all ← g.nodes.toList.zipIdx.mapM fun (n, p) =>
    if n.kind = .any ∨ n.kind = .sync then
      (setLines? g (Column.number 4 p ++ " " ++ Column.left 4 n.kind.label ++ ":") 10 n.set).map
        Column.unlines
    else some ""
  pure (String.join all)

end Listing

/-- The test for a set, if every terminal with which it compares is found. -/
def TestSets.test? (ts : TestSets) (g : Grammar) (set : BitSet) : Option (Test × TestSets) :=
  if set.size = 0 then some (.never, ts)
  else if set.size ≤ maxCompared then do
    let terminals ← set.toList.mapM g.terminal?
    pure (.oneOf terminals, ts)
  else
    let (i, ts) := ts.register set
    some (.inSet i, ts)

namespace Grammar

/-! ## Sets of tokens -/

/-- The sets of terminals that are made from the sets of a grammar. -/
inductive SymbolSet (g : Grammar) : BitSet → Prop
  | first {s : SymbolId} (hs : s ∈ g.nonterminals) : SymbolSet g (g.sym s).first
  | follow {s : SymbolId} (hs : s ∈ g.nonterminals) : SymbolSet g (g.sym s).follow
  | node {p : NodeId} (hkind : (g.node p).kind = .any ∨ (g.node p).kind = .sync) :
      SymbolSet g (g.node p).set
  | syncUnion : SymbolSet g g.syncUnion
  /-- what starts a chain -/
  | chain (k : Option NodeId) : SymbolSet g (g.first k)
  | empty : SymbolSet g ∅
  | union {s t : BitSet} (hs : SymbolSet g s) (ht : SymbolSet g t) : SymbolSet g (s.union t)
  | inter {s : BitSet} (hs : SymbolSet g s) (t : BitSet) : SymbolSet g (s.inter t)
  | diff {s : BitSet} (hs : SymbolSet g s) (t : BitSet) : SymbolSet g (s.diff t)

theorem SymbolSet.expected (hcur : cur ∈ g.nonterminals) (k : Option NodeId) :
    g.SymbolSet (g.expected k cur) := by
  unfold Grammar.expected
  split
  · exact (chain k).union (follow hcur)
  · exact chain k

theorem SymbolSet.selecting (hcur : cur ∈ g.nonterminals) (k : Option NodeId) :
    g.SymbolSet (g.selecting k cur) := by
  unfold Grammar.selecting
  split
  · exact empty
  · exact expected hcur k

namespace Confined

variable (h : g.Confined)
include h

/-- All sets that are made from the sets of the grammar hold tokens only. -/
theorem mem_symbolSet (hset : g.SymbolSet set) (hn : n ∈ set) : g.IsToken n := by
  induction hset with
  | first hs => exact h.mem_firstSet _ hs n hn
  | follow hs => exact h.mem_follow _ hs n hn
  | node hkind =>
    rcases hkind with hkind | hkind
    · exact (h.mem_any _ hkind n hn).isToken
    · exact h.mem_sync _ hkind n hn
  | syncUnion => exact h.mem_syncUnion n hn
  | chain k => exact h.mem_first k n hn
  | empty => exact absurd hn (BitSet.not_mem_empty n)
  | union _ _ ihs iht => exact (BitSet.mem_union.1 hn).elim ihs iht
  | inter _ t ih => exact ih (BitSet.mem_inter.1 hn).1
  | diff _ t ih => exact ih (BitSet.mem_diff.1 hn).1

/-! ## No lookup fails -/

theorem terminal?_eq (hset : g.SymbolSet set) (hn : n ∈ set) : g.terminal? n = some (g.terminal n) := by
  have hlt := (h.mem_symbolSet hset hn).lt_length
  simp [terminal?, terminal, hlt]

theorem terminalName?_eq (hset : g.SymbolSet set) (hn : n ∈ set) :
    g.terminalName? n = some (g.sym (g.terminal n)).name := by
  rw [terminalName?, h.terminal?_eq hset hn]
  rfl

theorem overlapOn?_eq (hs : g.SymbolSet s) (cur : SymbolId) (line : Nat) (what : String → Conflict)
    (t : BitSet) : g.overlapOn? cur line what s t = some (g.overlapOn cur line what s t) := by
  refine mapM_eq_some_map fun n hn => ?_
  rw [h.terminalName?_eq (hs.inter t) (BitSet.mem_toList.1 hn)]
  rfl

theorem groupConflicts?_eq (hcur : cur ∈ g.nonterminals) (p : NodeId) (body : Outline) :
    g.groupConflicts? cur p body = some (g.groupConflicts cur p body) := by
  unfold groupConflicts? groupConflicts
  dsimp only
  split
  · rfl
  · exact h.overlapOn?_eq (.selecting hcur _) cur _ _ _

/-- The check goes through an outline in two ways, as a chain and as the further arms of an
alternative. -/
theorem conflicts?_eq (hcur : cur ∈ g.nonterminals) (o : Outline) :
    g.conflicts? cur o = some (g.conflicts cur o) ∧ ∀ line taken, g.SymbolSet taken →
      g.armConflicts? cur line taken o = some (g.armConflicts cur line taken o) := by
  induction o with
  | done => exact ⟨by rw [conflicts?, conflicts], fun _ _ _ => by rw [armConflicts?, armConflicts] <;> simp⟩
  | leaf p next ih =>
    refine ⟨?_, fun _ _ _ => by rw [armConflicts?, armConflicts] <;> simp⟩
    rw [conflicts?, conflicts, (ih ()).1]
    rfl
  | group p body next ihb ihn =>
    refine ⟨?_, fun _ _ _ => by rw [armConflicts?, armConflicts] <;> simp⟩
    rw [conflicts?, conflicts, h.groupConflicts?_eq hcur, (ihb ()).1, (ihn ()).1]
    rfl
  | arm p body down next ihb ihd ihn =>
    have hselect := SymbolSet.selecting hcur (g.node p).sub
    refine ⟨?_, fun line taken htaken => ?_⟩
    · rw [conflicts?, conflicts, (ihb ()).1, (ihd ()).2 _ _ hselect, (ihn ()).1]
      rfl
    · rw [armConflicts?, armConflicts, h.overlapOn?_eq htaken, (ihb ()).1, (ihd ()).2 _ _ (htaken.union hselect)]
      rfl

theorem lookaheadConflicts?_eq : g.lookaheadConflicts? = some g.lookaheadConflicts := by
  rw [lookaheadConflicts?, mapM_eq_some_map fun s hs => (h.conflicts?_eq hs _).1]
  rfl

theorem setLines?_eq (hset : g.SymbolSet set) (label : String) (indent : Nat) :
    Listing.setLines? g label indent set = some (Listing.setLines g label indent set) := by
  rw [Listing.setLines?, mapM_eq_some_map fun n hn => h.terminalName?_eq hset (BitSet.mem_toList.1 hn)]
  rfl

theorem sets?_eq : Listing.sets? g = some (Listing.sets g) := by
  have hall : ∀ s ∈ g.nonterminals, Listing.setsOf? g s = some (Listing.setsOf g s) := by
    intro s hs
    simp only [Listing.setsOf?, h.setLines?_eq (.first hs), h.setLines?_eq (.follow hs)]
    rfl
  rw [Listing.sets?, mapM_eq_some_map hall]
  rfl

theorem anySync?_eq : Listing.anySync? g = some (Listing.anySync g) := by
  unfold Listing.anySync? Listing.anySync
  rw [mapM_eq_some_map fun x hx => ?_]
  · rfl
  · obtain ⟨n, p⟩ := x
    have hnode : n = g.node p := by
      have hfound := List.mk_mem_zipIdx_iff_getElem?.1 hx
      rw [Array.getElem?_toList] at hfound
      rw [node, Array.getD_eq_getD_getElem?, hfound]
      rfl
    dsimp only
    split
    · next hkind =>
      rw [h.setLines?_eq (hnode ▸ .node (hnode ▸ hkind))]
      rfl
    · rfl

theorem test?_eq (hset : g.SymbolSet set) (ts : TestSets) : ts.test? g set = some (ts.test g set) := by
  unfold TestSets.test? TestSets.test
  split
  · rfl
  · split
    · rw [mapM_eq_some_map fun n hn => h.terminal?_eq hset (BitSet.mem_toList.1 hn)]
      rfl
    · rfl

end Confined

/-- All sets are confined to tokens, and no listing, no warning and no test fails for want of a
terminal. -/
structure InRange (g : Grammar) : Prop extends g.Confined where
  sets : Listing.sets? g = some (Listing.sets g)
  anySync : Listing.anySync? g = some (Listing.anySync g)
  conflicts : g.lookaheadConflicts? = some g.lookaheadConflicts
  tests : ∀ (ts : TestSets) set, g.SymbolSet set → ts.test? g set = some (ts.test g set)

theorem Confined.inRange (h : g.Confined) : g.InRange :=
  ⟨h, h.sets?_eq, h.anySync?_eq, h.lookaheadConflicts?_eq, fun ts _ hset => h.test?_eq hset ts⟩

/-! ## Behind the analyses -/

/-- Classes and complaints do not matter. -/
theorem Confined.revise (h : g.Confined) (classes : Array CharClass) (madeUpNames : Nat)
    (diags : Diagnostics) : Confined { g with classes, madeUpNames, diags } := by
  have htoken : ∀ {n}, g.IsToken n → IsToken { g with classes, madeUpNames, diags } n :=
    fun hn => ⟨hn.lt_length, hn.ne_unknown⟩
  have hsame : g.Shrinks { g with classes, madeUpNames, diags } :=
    ⟨rfl, rfl, fun _ => rfl, fun _ _ => id⟩
  exact
    { unknown_mem := h.unknown_mem
      mem_firstSet := fun s hs n hn => htoken (h.mem_firstSet s hs n hn)
      mem_follow := fun s hs n hn => htoken (h.mem_follow s hs n hn)
      mem_any := fun p hkind n hn =>
        let ⟨hlt, heof, hunknown⟩ := h.mem_any p hkind n hn
        ⟨hlt, heof, hunknown⟩
      mem_sync := fun p hkind n hn => htoken (h.mem_sync p hkind n hn)
      mem_syncUnion := fun n hn => htoken (h.mem_syncUnion n hn)
      mem_first := fun k n hn => htoken (h.mem_first k n (hsame.mem_first hn)) }

theorem Confined.reportAll (h : g.Confined) (ds : List Diagnostic) : (g.reportAll ds).Confined :=
  h.revise g.classes g.madeUpNames _

theorem Confined.declareClass (h : g.Confined) (name : String) (set : CharSet) :
    (g.declareClass name set).2.Confined := by
  rw [grows_declareClass.eq]
  exact h.revise _ _ g.diags

/-- The checks only report. -/
theorem exists_checkAll_eq (g : Grammar) : ∃ ds, g.checkAll.2 = g.reportAll ds := by
  unfold checkAll
  simp only [runCheck, reportAll_reportAll]
  split <;> exact ⟨_, rfl⟩

end Grammar

namespace Draft

variable {d : Draft} {options : Options}

/-- What complaints and classes keep, a run keeps from the analyses on. -/
theorem generate_keeps {P : Grammar → Prop} (hreport : ∀ g ds, P g → P (g.reportAll ds))
    (hclass : ∀ (g : Grammar) set, P g → P (g.declareClass "#" set).2)
    (herrors : d.grammar.diags.errors = 0) (hanalysed : P d.grammar.analysed) (options : Options) :
    P (d.generate options).2 := by
  have hchecked : P d.checked.grammar := by
    obtain ⟨ds, heq⟩ := d.grammar.analysed.exists_checkAll_eq
    rw [checked]
    dsimp only
    rw [heq]
    exact hreport _ ds hanalysed
  cases hok : d.grammar.analysed.checkAll.1 with
  | false => simpa only [generate_of_fault herrors hok] using hchecked
  | true =>
    rw [(generate_of_usable options herrors hok).1, generateScanner_snd]
    split
    · exact toScanner_keeps hclass hreport hchecked
    · exact hchecked

/-- In a grammar that is put together from nodes for declared terminals, all sets are confined to
tokens when the analyses end, whatever is reported from then on, and when the run ends.  So whatever is
listed, checked and tested, every number that is looked up is that of a terminal. -/
theorem generate_inRange (h : d.grammar.Combined)
    (hrefers : ∀ p < d.grammar.nodes.size, ∀ s ∈ (d.grammar.node p).kind.terminal?,
      s ∈ d.grammar.terminals)
    (herrors : d.grammar.diags.errors = 0) (options : Options) :
    d.grammar.analysed.InRange ∧ (∀ ds, (d.grammar.analysed.reportAll ds).InRange) ∧
      (d.generate options).2.InRange := by
  have hanalysed := h.unanalysed.confined_analysed hrefers
  have hresult : (d.generate options).2.Confined :=
    generate_keeps (fun _ ds hg => hg.reportAll ds) (fun _ set hg => hg.declareClass "#" set)
      herrors hanalysed options
  exact ⟨hanalysed.inRange, fun ds => (hanalysed.reportAll ds).inRange, hresult.inRange⟩

/-- The productions `S = a ANY | SYNC [ WEAK b ] T` and `T = { c }`, without tokens. -/
def resuming : Draft :=
  ⟨.initial, ((Grammar.initial.declareProduction "S" (.alt (.seq (.terminal "a") [.any])
    [.seq .sync [.opt (.weak "b"), .nonterminal "T"]]) 1).2.2.declareProduction "T"
      (.iter (.terminal "c")) 2).2.2⟩

theorem combined_resuming : resuming.grammar.Combined := by
  unfold resuming
  dsimp only
  exact (Grammar.Combined.initial.declareProduction _ _ _).declareProduction _ _ _

/-- The ANY stands for all three tokens, and behind the SYNC the end of the input may come. -/
theorem generate_inRange_resuming :
    resuming.grammar.Combined ∧ resuming.grammar.diags.errors = 0 ∧
      (resuming.grammar.analysed.node 1).set.toList = [1, 2, 3] ∧
      resuming.grammar.analysed.syncUnion.toList = [0, 2, 3] ∧
      (resuming.generate {}).2.InRange := by
  have hrefers : ∀ p < resuming.grammar.nodes.size, ∀ s ∈ (resuming.grammar.node p).kind.terminal?,
      s ∈ resuming.grammar.terminals := by decide +kernel
  have herrors : resuming.grammar.diags.errors = 0 := by decide +kernel
  exact ⟨combined_resuming, herrors, by decide +kernel, by decide +kernel,
    (generate_inRange combined_resuming hrefers herrors {}).2.2⟩

end Draft

end Ebnf
