import Ebnf.Proofs.Machine.Literals
import Ebnf.Proofs.Machine.Recognition

/-!
# Which token structures are refused

A token that may be empty is refused, and so is an option or iteration whose body
may be empty.  The body is looked at where a search for moves meets the option or
iteration.  Searches begin at some nodes only, and end at a fault; but from the
nodes at which they begin one gets to all nodes, so that none of several faults
keeps all searches from the others.

Main results:

- Theorem `Grammar.Shows.exists_faults`: the searches of a token structure report
  something exactly if it has a hollow option or iteration.
- Theorem `Grammar.Assembled.diags_addToken`: declaring a token adds errors only, and
  adds one exactly if the token may be empty or has such a fault.
-/

namespace Ebnf

/-- What a demand reports. -/
def Demand.fault? : Demand → Option Diagnostic
  | .fault diag => some diag
  | .edge _ _ _ _ => none

theorem Demand.mem_faults {demands : List Demand} {diag : Diagnostic} :
    diag ∈ demands.filterMap Demand.fault? ↔ .fault diag ∈ demands := by
  rw [List.mem_filterMap]
  constructor
  · rintro ⟨demand, hmem, hfault⟩
    cases demand with
    | fault diag' => exact Option.some.inj hfault ▸ hmem
    | edge => cases hfault
  · exact fun hmem => ⟨.fault diag, hmem, rfl⟩

namespace Grammar

variable {g : Grammar} {e : Phrase} {pool : List Phrase} {fuel : Nat} {s : StateId}
  {demands : List Demand} {passed passed' : BitSet}

/-! ## What the searches report -/

/-- Only errors are reported. -/
theorem severity_of_mem_leaving {p : Option NodeId} {diag : Diagnostic}
    (h : g.leaving fuel s p passed = some (demands, passed')) (hmem : .fault diag ∈ demands) :
    diag.severity = .error := by
  obtain ⟨_, _, t, q, _, hedge | ⟨_, diag', heq, hseverity⟩⟩ := leaving_origin h hmem
  · obtain ⟨_, _, heq⟩ := Option.map_eq_some_iff.1 hedge
    cases heq
  · cases heq
    exact hseverity

/-- The demand is among the moves that leave some state at the node `x`. -/
def Leaves (g : Grammar) (x : NodeId) (demand : Demand) : Prop :=
  ∃ s ds passed, g.leaving g.searchBound s (some x) ∅ = some (ds, passed) ∧ demand ∈ ds

/-- All moves of a token structure were searched from its nodes, and those searched from its starts
are among them. -/
theorem Shows.exists_tokenMoves (h : g.Shows e none false) (hnodup : e.nodes.Nodup)
    (hreads : e.ReadsAll g) (hstate : ∀ x ∈ e.nodes, ∃ s, (g.node x).state = some s) :
    ∃ demands, g.tokenMoves g.searchBound (g.nodes.size + 1) e.entry = some demands ∧
      (∀ demand ∈ demands, ∃ x ∈ e.nodes, g.Leaves x demand) ∧
      ∀ x ∈ e.starts true, ∀ demand, g.CollectedAt g.searchBound demand x → demand ∈ demands := by
  obtain ⟨own, marked, hmoves, hown⟩ := h.exists_moves hnodup hreads hstate
  have hsearched : ∀ demand ∈ own, ∃ x ∈ e.nodes, g.Leaves x demand := by
    intro demand hmem
    obtain ⟨x, hx, t, ds, passed, _, hrun, hin⟩ := (hown demand).1 hmem
    exact ⟨x, Phrase.mem_nodes_of_mem_starts hx, t, ds, passed, hrun, hin⟩
  unfold tokenMoves
  simp only [hmoves, Option.bind_eq_bind, Option.bind_some]
  by_cases hiter : (g.node e.entry).kind = .iter
  · obtain ⟨⟨ds, passed⟩, hrun⟩ := Option.isSome_iff_exists.1
      (h.leaving_isSome hnodup e.entry_mem_nodes Machine.start ∅)
    refine ⟨own ++ ds, by simp [hiter, hrun], fun demand hmem => ?_,
      fun x hx demand hcollected => List.mem_append_left _ ((hown demand).2 ⟨x, hx, hcollected⟩)⟩
    rcases List.mem_append.1 hmem with hmem | hmem
    · exact hsearched demand hmem
    · exact ⟨e.entry, e.entry_mem_nodes, Machine.start, ds, passed, hrun, hmem⟩
  · exact ⟨own, by simp [hiter], hsearched,
      fun x hx demand hcollected => (hown demand).2 ⟨x, hx, hcollected⟩⟩

/-- The searches report errors only, and report none exactly if no option or iteration has a body
that may be empty. -/
theorem Shows.exists_faults (h : g.Shows e none false) (hnodup : e.nodes.Nodup)
    (hreads : e.ReadsAll g) (hstate : ∀ x ∈ e.nodes, ∃ s, (g.node x).state = some s) :
    ∃ demands, g.tokenMoves g.searchBound (g.nodes.size + 1) e.entry = some demands ∧
      (∀ diag, .fault diag ∈ demands → diag.severity = .error) ∧
      ((∀ diag, .fault diag ∉ demands) ↔ e.solid = true) := by
  obtain ⟨demands, hmoves, hsearched, hcollected⟩ := h.exists_tokenMoves hnodup hreads hstate
  refine ⟨demands, hmoves, fun diag hmem => ?_, fun hclean => ?_, fun hsolid diag hmem => ?_⟩
  · obtain ⟨x, _, s, ds, passed, hrun, hin⟩ := hsearched _ hmem
    exact severity_of_mem_leaving hrun hin
  · -- the search from a start covers all nodes to which one gets from there
    have hstart : ∀ z ∈ e.starts true, g.Solid z := by
      intro z hz
      have hmem := Phrase.mem_nodes_of_mem_starts hz
      obtain ⟨s, hs⟩ := hstate z hmem
      obtain ⟨⟨ds, passed⟩, hrun⟩ := Option.isSome_iff_exists.1
        (h.leaving_isSome hnodup hmem s ∅)
      exact solid_of_clean (fun diag hin =>
        hclean diag (hcollected z hz _ ⟨s, ds, passed, hs, hrun, hin⟩)) hrun
    refine (h.solid_iff_mem hnodup hreads).2 fun p hp => ?_
    obtain ⟨z, hz, hpass⟩ := h.exists_passes true hreads hnodup hp
    have hz : z ∈ e.starts true :=
      hz.elim (fun heq => heq ▸ (Phrase.entry_mem_starts hnodup).2 rfl) id
    exact Grammar.solid_iff.1 (hstart z hz) p hpass
  · obtain ⟨x, hx, s, ds, passed, hrun, hin⟩ := hsearched _ hmem
    exact (h.solid hnodup hreads hsolid hx).ne_fault hrun hin diag rfl

end Grammar

namespace Draft

variable {d : Draft} {tok : SymbolId}

/-! ## What is reported -/

theorem diags_meet (d : Draft) (tok : SymbolId) (demand : Demand) :
    (d.meet tok demand).grammar.diags = d.grammar.diags ++ demand.fault?.toList := by
  have hconnect : ∀ (d : Draft) source on part target,
      (d.connect tok source on part target).grammar.diags = d.grammar.diags := by
    intro d source on part target
    unfold connect
    dsimp only
    split <;> rfl
  match demand with
  | .fault diag => rfl
  | .edge source on part (some target) =>
    exact (hconnect d source on part target).trans (List.append_nil _).symm
  | .edge source on part none => exact (hconnect _ source on part _).trans (List.append_nil _).symm

theorem diags_foldl_meet (demands : List Demand) (d : Draft) :
    (demands.foldl (meet tok) d).grammar.diags =
      d.grammar.diags ++ demands.filterMap Demand.fault? := by
  induction demands generalizing d with
  | nil => exact (List.append_nil _).symm
  | cons demand demands ih =>
    rw [List.foldl_cons, ih, diags_meet, List.append_assoc]
    congr 1
    cases demand <;> rfl

/-- What declaring a closed token structure reports. -/
theorem exists_faults_addToken {m : Machine} {g : Grammar} {e : Phrase} (hpos : 0 < m.states.size)
    (hshows : g.Shows e none false) (hnodup : e.nodes.Nodup) (hreads : e.ReadsAll g)
    (hstate : ∀ x ∈ e.nodes, (g.node x).state = none) (tok : SymbolId) :
    ∃ faults, (addToken ⟨m, g⟩ e.entry tok).grammar.diags = g.diags ++ faults ∧
      (∀ diag ∈ faults, diag.severity = .error) ∧
      (faults ≠ [] ↔ e.nullable (fun _ => false) = true ∨ e.solid = false) := by
  have hdel := hshows.deletableChain_eq hnodup hreads
  cases hnull : e.nullable (fun _ => false) with
  | true =>
    refine ⟨[.errorOn (g.sym tok).line .tokenMightBeEmpty], ?_, fun diag hmem => ?_,
      iff_of_true (List.cons_ne_nil _ _) (.inl rfl)⟩
    · unfold addToken
      rw [if_pos (hdel.trans hnull)]
      rfl
    · rw [List.mem_singleton.1 hmem]
      rfl
  | false =>
    obtain ⟨d, heads, hrun, hnumbers, _, _⟩ :=
      exists_numbers (d := ⟨m, g⟩) tok hpos hshows hnodup hreads hstate
    have halike : g.Alike d.grammar := hnumbers.alike
    have hdiags : d.grammar.diags = g.diags :=
      assignStates_keeps (P := fun g' => g'.diags = g.diags) (fun _ _ _ h => h) rfl hrun
    obtain ⟨demands, hmoves, herror, hclean⟩ :=
      (halike.shows hshows).exists_faults hnodup (halike.readsAll hreads) fun x hx => by
        obtain ⟨s, hs, _⟩ := hnumbers.state_mem x hx
        exact ⟨s, hs⟩
    rw [Grammar.searchBound, halike.size_eq] at hmoves
    refine ⟨demands.filterMap Demand.fault?, ?_,
      fun diag hmem => herror diag (Demand.mem_faults.1 hmem), ?_⟩
    · rw [addToken_eq (hdel.trans hnull) hrun hmoves, diags_foldl_meet, hdiags]
    · rw [Ne, List.eq_nil_iff_forall_not_mem]
      simp only [Demand.mem_faults, hclean, Bool.not_eq_true, Bool.false_eq_true, false_or]

end Draft

namespace Grammar

variable {g : Grammar} {e : Phrase} {pool : List Phrase}

/-! ## Declaring an assembled token -/

/-- Declaring a token adds errors only, and adds one exactly if the token may be empty or an option
or iteration in it has a body that may be empty. -/
theorem Assembled.diags_addToken (h : Assembled g (e :: pool)) (hreads : e.ReadsAll g)
    {m : Machine} (hpos : 0 < m.states.size) (tok : SymbolId) :
    ∃ faults, (Draft.addToken ⟨m, g.close e.fragment⟩ e.entry tok).grammar.diags =
        (g.close e.fragment).diags ++ faults ∧
      (∀ diag ∈ faults, diag.severity = .error) ∧
      (faults ≠ [] ↔ e.nullable (fun _ => false) = true ∨ e.solid = false) := by
  have hpool := h.toPool
  refine Draft.exists_faults_addToken hpos h.shows_close (hpool.nodup e List.mem_cons_self)
    (readsAll_close hreads) (fun x hx => ?_) tok
  rw [state_close]
  exact hpool.state_eq e List.mem_cons_self x hx

/-- A grammar in which the token structure `a {[b]}` is put together. -/
def hollowGrammar : Grammar :=
  let (a, g) := initial.addLeaf { kind := .char 97 .main, line := 1 }
  let (b, g) := g.addLeaf { kind := .char 98 .main, line := 1 }
  let (body, g) := g.option b
  let (loop, g) := g.iteration body
  (g.sequence a loop).2

/-- The token structure `a {[b]}`. -/
def hollowPhrase : Phrase :=
  .seq (.leaf 0) (.iter 3 (.opt 2 (.leaf 1)))

theorem assembled_hollow : Assembled hollowGrammar [hollowPhrase] := by
  have hchar : ∀ c, (NodeKind.char c .main).isLeaf = true := fun _ => rfl
  have hbody := (((Assembled.start .initial).leaf (hchar 97) 1 none).leaf (hchar 98) 1 none).option
  exact (hbody.iteration.perm (.swap _ _ _)).sequence

theorem Assembled.diags_addToken_hollow :
    ∃ faults, (Draft.addToken ⟨.initial, hollowGrammar.close hollowPhrase.fragment⟩
        hollowPhrase.entry 1).grammar.diags =
      (hollowGrammar.close hollowPhrase.fragment).diags ++ faults ∧ faults ≠ [] := by
  have hreads : ∀ p ∈ [0, 1], (hollowGrammar.node p).kind.reads?.isSome = true := by decide +kernel
  obtain ⟨faults, hdiags, _, hne⟩ := assembled_hollow.diags_addToken (m := .initial)
    ⟨hreads 0 (by simp), hreads 1 (by simp)⟩ Nat.one_pos 1
  exact ⟨faults, hdiags, hne.2 (.inr rfl)⟩

end Grammar

end Ebnf
