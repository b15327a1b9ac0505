import Ebnf.Proofs.Machine.Edits
import Ebnf.Proofs.Machine.Recognition
import Ebnf.Proofs.Phrase.Front
import Mathlib.Data.Nat.Count

/-!
# Declaring a token comes to an end

A token structure is a graph with loops, and every pass over it is a recursion.  Numbering the
nodes and visiting them for their moves treat each node once, whatever the nodes are linked to.  The
search for the moves that leave a state is different: it goes round iterations, and begins again
wherever an iteration has a state of its own.  It comes to an end since it does not look inside an
option or iteration whose body may be empty, so that without reading one does not come back.

Main results:

- Theorem `Draft.numberable`: numbering comes to an end.
- Theorem `Grammar.leaving_mono`: a search that has come to an end does not depend on the bound.
- Theorem `Grammar.Shows.exists_leaving`: from every node of a token structure the search comes to
  an end.
- Theorem `Grammar.Searchable.visitable`: so does visiting the nodes.
- Theorem `Grammar.Assembled.addToken_ends`: declaring a token comes to an end.
-/

namespace Ebnf

/-! ## Recursions with a bound -/

/-- With every bound from `n` on, a recursion has the result `r`: without a bound it comes to an end
with this result, at most `n` calls deep. -/
def HaltsWith {α : Type} (run : Nat → Option α) (n : Nat) (r : α) : Prop :=
  ∀ fuel, n ≤ fuel → run fuel = some r

namespace HaltsWith

variable {α β : Type} {run run' : Nat → Option α} {n : Nat} {r : α} {r' : β}

/-- One call deeper. -/
theorem succ (h : HaltsWith run n r) (hrun : ∀ fuel, run' (fuel + 1) = run fuel) :
    HaltsWith run' (n + 1) r := by
  intro fuel hfuel
  obtain ⟨fuel, rfl⟩ := Nat.exists_eq_add_of_le' (Nat.le_trans (Nat.le_add_left 1 n) hfuel)
  rw [hrun]
  exact h fuel (Nat.le_of_succ_le_succ hfuel)

theorem bind {go : Nat → α → Option β} (h : HaltsWith run n r)
    (hgo : HaltsWith (fun fuel => go fuel r) n r') :
    HaltsWith (fun fuel => (run fuel).bind (go fuel)) n r' := by
  intro fuel hfuel
  simp only [h fuel hfuel, Option.bind_some]
  exact hgo fuel hfuel

end HaltsWith

/-- If the parts of a computation keep their results, it keeps its own. -/
theorem bind_mono {α β : Type} {a a' : Option α} {f f' : α → Option β} {r : β}
    (h : a.bind f = some r) (ha : ∀ x, a = some x → a' = some x)
    (hf : ∀ x, f x = some r → f' x = some r) : a'.bind f' = some r := by
  obtain ⟨x, hx, hr⟩ := Option.bind_eq_some_iff.1 h
  rw [ha x hx]
  exact hf x hr

theorem ite_mono {α : Type} {c : Prop} [Decidable c] {a a' b b' r : α}
    (h : (if c then a else b) = r) (ha : a = r → a' = r) (hb : b = r → b' = r) :
    (if c then a' else b') = r := by
  split at h
  next hc =>
    rw [if_pos hc]
    exact ha h
  next hc =>
    rw [if_neg hc]
    exact hb h

/-- When one of the numbers below `n` loses a property, fewer have it. -/
theorem count_lt_count {n p : Nat} {P Q : Nat → Prop} [DecidablePred P] [DecidablePred Q]
    (h : ∀ x, Q x → P x) (hp : p < n) (hP : P p) (hQ : ¬ Q p) : n.count Q < n.count P := by
  rw [Nat.count_eq_card_filter_range, Nat.count_eq_card_filter_range]
  apply Finset.card_lt_card
  rw [Finset.ssubset_iff_of_subset (Finset.monotone_filter_right _ fun x _ hx => h x hx)]
  refine ⟨p, ?_, ?_⟩
  · exact Finset.mem_filter.2 ⟨Finset.mem_range.2 hp, hP⟩
  · intro hmem
    exact hQ (Finset.mem_filter.1 hmem).2

/-! ## Numbering -/

/-- The calls that follow when a node got the state `s`, in order: for which node, which state is
offered there, and whether an iteration refuses it. -/
def Node.calls (n : Node) (s : StateId) (renumber : Bool) :
    List (Option NodeId × Option StateId × Bool) :=
  match n.kind with
  | .cls _ _ | .char _ _ => [(n.next, none, false)]
  | .opt => [(n.next, none, false), (n.sub, some s, true)]
  | .iter => [(n.next, some s, true), (n.sub, some s, true)]
  | .alt => [(n.next, none, false), (n.sub, some s, true), (n.down, some s, renumber)]
  | _ => []

namespace Draft

variable {d d' d'' : Draft} {tok : SymbolId} {p : NodeId} {st : Option StateId} {renumber : Bool}
  {fuel n : Nat}

/-- Several calls, one after the other. -/
def assignAll (tok : SymbolId) (fuel : Nat) (calls : List (Option NodeId × Option StateId × Bool))
    (d : Draft) : Option Draft :=
  calls.foldlM (fun d call => assignStates tok fuel call.1 call.2.1 call.2.2 d) d

/-- A node without a state gets one, then the calls follow. -/
theorem assignStates_node (hstate : (d.grammar.node p).state = none) :
    assignStates tok (fuel + 1) (some p) st renumber d =
      assignAll tok fuel ((d.grammar.node p).calls (d.claimState tok p st renumber).1 renumber)
        (d.claimState tok p st renumber).2 := by
  rw [assignStates]
  cases hkind : (d.grammar.node p).kind <;> simp [assignAll, Node.calls, hstate, hkind]

/-- The number of nodes without a state. -/
def unnumbered (d : Draft) : Nat :=
  d.grammar.nodes.size.count fun p => (d.grammar.node p).state = none

/-- From `d` to `d'` nodes get states only, and no node loses its state. -/
structure Advances (d d' : Draft) : Prop where
  alike : d.grammar.Alike d'.grammar
  keeps : ∀ p, (d'.grammar.node p).state = none → (d.grammar.node p).state = none

theorem Advances.refl (d : Draft) : d.Advances d :=
  ⟨.refl _, fun _ h => h⟩

theorem Advances.trans (h : d.Advances d') (h' : d'.Advances d'') : d.Advances d'' :=
  ⟨h.alike.trans h'.alike, fun p hp => h.keeps p (h'.keeps p hp)⟩

theorem Advances.unnumbered_le (h : d.Advances d') : d'.unnumbered ≤ d.unnumbered := by
  unfold unnumbered
  rw [h.alike.size_eq]
  exact Nat.count_mono_left fun p _ => h.keeps p

theorem node_claimState {q : NodeId} : (d.claimState tok p st renumber).2.grammar.node q =
    if q = p ∧ p < d.grammar.nodes.size then
      { d.grammar.node q with state := some (d.claimState tok p st renumber).1 }
    else d.grammar.node q :=
  Grammar.node_modifyNode

theorem advances_claimState : d.Advances (d.claimState tok p st renumber).2 := by
  constructor
  · exact .modifyNode p _
  · intro q hq
    rw [node_claimState] at hq
    split at hq
    · cases hq
    · exact hq

/-- When a node gets a state, fewer are without one. -/
theorem unnumbered_claimState_lt (hstate : (d.grammar.node p).state = none)
    (hp : p < d.grammar.nodes.size) :
    (d.claimState tok p st renumber).2.unnumbered < d.unnumbered := by
  have hadvances : d.Advances (d.claimState tok p st renumber).2 := advances_claimState
  unfold unnumbered
  rw [hadvances.alike.size_eq]
  apply count_lt_count hadvances.keeps hp hstate
  rw [node_claimState, if_pos ⟨rfl, hp⟩]
  exact nofun

/-- Every call comes to an end that finds fewer than `n` nodes without a state. -/
def Numberable (tok : SymbolId) (n : Nat) : Prop :=
  ∀ (d : Draft) (r : Option NodeId) (st : Option StateId) (renumber : Bool), d.unnumbered < n →
    ∃ d', HaltsWith (fun fuel => assignStates tok fuel r st renumber d) n d' ∧ d.Advances d'

/-- Several calls come to an end if each of them does. -/
theorem Numberable.exists_assignAll (h : Numberable tok n)
    (calls : List (Option NodeId × Option StateId × Bool)) (hd : d.unnumbered < n) :
    ∃ d', HaltsWith (fun fuel => assignAll tok fuel calls d) n d' ∧ d.Advances d' := by
  induction calls generalizing d with
  | nil => exact ⟨d, fun _ _ => rfl, .refl d⟩
  | cons call calls ih =>
    obtain ⟨d₁, hfirst, hadvances⟩ := h d call.1 call.2.1 call.2.2 hd
    obtain ⟨d', hrest, hadvances'⟩ := ih (Nat.lt_of_le_of_lt hadvances.unnumbered_le hd)
    exact ⟨d', hfirst.bind hrest, hadvances.trans hadvances'⟩

/-- A node that gets a state leaves fewer without one to the calls that follow. -/
theorem Numberable.exists_assignAll_calls (h : Numberable tok n)
    (hstate : (d.grammar.node p).state = none) (hd : d.unnumbered < n + 1) :
    ∃ d', HaltsWith (fun fuel => assignAll tok fuel
        ((d.grammar.node p).calls (d.claimState tok p st renumber).1 renumber)
        (d.claimState tok p st renumber).2) n d' ∧
      (d.claimState tok p st renumber).2.Advances d' := by
  by_cases hp : p < d.grammar.nodes.size
  · apply h.exists_assignAll
    exact Nat.lt_of_lt_of_le (unnumbered_claimState_lt hstate hp) (Nat.le_of_lt_succ hd)
  · -- behind the last node nothing follows
    rw [Grammar.node_of_size_le (Nat.not_lt.1 hp)]
    exact ⟨_, fun _ _ => rfl, .refl _⟩

/-- Numbering comes to an end, whatever the nodes are linked to. -/
theorem numberable (tok : SymbolId) (n : Nat) : Numberable tok n := by
  induction n with
  | zero =>
    intro d r st renumber hd
    cases hd
  | succ n ih =>
    intro d r st renumber hd
    by_cases hnumbered : ∀ p ∈ r, (d.grammar.node p).state.isSome = true
    · exact ⟨d, fun _ _ => assignStates_of_isSome hnumbered, .refl d⟩
    · push Not at hnumbered
      obtain ⟨p, rfl, hp⟩ := hnumbered
      have hstate : (d.grammar.node p).state = none := by simpa using hp
      obtain ⟨d', hhalts, hadvances⟩ := ih.exists_assignAll_calls hstate hd
      exact ⟨d', hhalts.succ fun _ => assignStates_node hstate, advances_claimState.trans hadvances⟩

end Draft

namespace Grammar

variable {g : Grammar} {e : Phrase} {k : Option NodeId} {up : Bool} {s : StateId} {p q : NodeId}
  {passed marked marked' : BitSet} {bound m n : Nat} {P : NodeId → Prop}

/-! ## Searching -/

/-- A search that has come to an end does not depend on the bound. -/
theorem leaving_mono {r : Option NodeId} {found : List Demand × BitSet} (hle : n ≤ m)
    (h : g.leaving n s r passed = some found) : g.leaving m s r passed = some found := by
  induction n generalizing m s r passed found with
  | zero =>
    cases r with
    | none => cases m <;> exact h
    | some p => cases h
  | succ n ih =>
    obtain ⟨m, rfl⟩ := Nat.exists_eq_add_of_le' (Nat.le_trans (Nat.le_add_left 1 n) hle)
    have hcall : ∀ {s r passed} x, g.leaving n s r passed = some x →
        g.leaving m s r passed = some x := fun x hx => ih (Nat.le_of_succ_le_succ hle) hx
    cases r with
    | none => exact h
    | some p =>
      rcases g.search_cases s p with ⟨demand, hedge⟩ | hkind | hhollow | ⟨hkind, hdel⟩ |
        ⟨hedge, halt, hgroup⟩
      · rw [leaving_edge hedge] at h ⊢
        exact h
      · rw [leaving_alt hkind] at h ⊢
        exact bind_mono h hcall fun _ h => bind_mono h hcall fun _ h => h
      · obtain ⟨diag, _, hrun⟩ := leaving_hollow hhollow
        rw [hrun] at h ⊢
        exact h
      · rw [leaving_group hkind hdel] at h ⊢
        refine bind_mono h (fun _ h => ite_mono h id (hcall _)) fun _ h => bind_mono h hcall
          fun _ h => bind_mono h (fun own hown => ?_) fun _ h => h
        revert hown
        unfold leavingOwn
        split
        · intro hown
          refine ite_mono hown id fun hown => ?_
          obtain ⟨r, hrun, rfl⟩ := Option.map_eq_some_iff.1 hown
          rw [hcall r hrun]
          rfl
        · exact id
      · rw [leaving_nothing hedge halt hgroup] at h ⊢
        exact h

/-- From a node of a token structure the search comes to an end. -/
theorem Shows.exists_leaving (h : g.Shows e none up) (hnodup : e.nodes.Nodup) (hp : p ∈ e.nodes)
    (s : StateId) (passed : BitSet) :
    ∃ found, HaltsWith (fun depth => g.leaving depth s (some p) passed) g.searchBound found := by
  obtain ⟨found, hrun⟩ := Option.isSome_iff_exists.1 (h.leaving_isSome hnodup hp s passed)
  exact ⟨found, fun depth hdepth => leaving_mono hdepth hrun⟩

/-! ## Visiting -/

/-- The number of nodes that are not marked. -/
def unmarked (g : Grammar) (marked : BitSet) : Nat :=
  g.nodes.size.count (· ∉ marked)

theorem unmarked_le (h : ∀ x ∈ marked, x ∈ marked') : g.unmarked marked' ≤ g.unmarked marked :=
  Nat.count_mono_left fun x _ hx hmem => hx (h x hmem)

theorem unmarked_insert_lt (hp : p < g.nodes.size) (hmarked : p ∉ marked) :
    g.unmarked (marked.insert p) < g.unmarked marked := by
  apply count_lt_count (fun x hx hmem => hx (BitSet.mem_insert.2 (.inr hmem))) hp hmarked
  rw [not_not]
  exact BitSet.mem_insert.2 (.inl rfl)

/-- From each node with the property `P` the search comes to an end, and visits stay among these
nodes. -/
structure Searchable (g : Grammar) (bound : Nat) (P : NodeId → Prop) : Prop where
  lt_size : ∀ x, P x → x < g.nodes.size
  search : ∀ x, P x → ∀ s passed,
    ∃ found, HaltsWith (fun depth => g.leaving depth s (some x) passed) bound found
  onward : ∀ x, P x → ∀ call ∈ (g.node x).onward, ∀ y ∈ call.1, P y

/-- What is collected at a node does not depend on the bound for searches. -/
theorem Searchable.exists_begins (h : g.Searchable bound P) (hp : P p) (own : Bool) :
    ∃ here, ∀ depth, bound ≤ depth → g.Begins depth p own here := by
  cases own with
  | false => exact ⟨[], fun _ _ => .nothing (.inl rfl)⟩
  | true =>
    cases hstate : (g.node p).state with
    | none => exact ⟨[], fun _ _ => .nothing (.inr hstate)⟩
    | some s =>
      obtain ⟨⟨demands, passed⟩, hrun⟩ := h.search p hp s ∅
      exact ⟨demands, fun depth hdepth => .state hstate (hrun depth hdepth)⟩

/-- Every visit of one of the nodes comes to an end that finds fewer than `n` nodes unmarked. -/
def Visitable (g : Grammar) (bound : Nat) (P : NodeId → Prop) (n : Nat) : Prop :=
  ∀ (r : Option NodeId) (own : Bool) (marked : BitSet), (∀ x ∈ r, P x) → g.unmarked marked < n →
    ∃ found, (∀ depth, bound ≤ depth →
        HaltsWith (fun fuel => g.moves depth fuel r own marked) n found) ∧
      ∀ x ∈ marked, x ∈ found.2

/-- Several visits come to an end if each of them does. -/
theorem Visitable.exists_visits {calls : List (Option NodeId × Bool)} (h : g.Visitable bound P n)
    (hcalls : ∀ call ∈ calls, ∀ y ∈ call.1, P y) (hmarked : g.unmarked marked < n) :
    ∃ demands marked', (∀ depth, bound ≤ depth → ∀ fuel, n ≤ fuel →
      g.Visits depth fuel calls marked demands marked') ∧ ∀ x ∈ marked, x ∈ marked' := by
  induction calls generalizing marked with
  | nil => exact ⟨[], marked, fun _ _ _ _ => .nil marked, fun _ hx => hx⟩
  | cons call calls ih =>
    obtain ⟨hfirst, hrest⟩ := List.forall_mem_cons.1 hcalls
    obtain ⟨⟨demands₁, marked₁⟩, hrun, hkeeps⟩ := h call.1 call.2 marked hfirst hmarked
    obtain ⟨demands₂, marked₂, hvisits, hkeeps'⟩ :=
      ih hrest (Nat.lt_of_le_of_lt (unmarked_le hkeeps) hmarked)
    refine ⟨demands₁ ++ demands₂, marked₂, ?_, fun x hx => hkeeps' x (hkeeps x hx)⟩
    intro depth hdepth fuel hfuel
    exact .cons (hrun depth hdepth fuel hfuel) (hvisits depth hdepth fuel hfuel)

/-- Visiting comes to an end: each visit leaves fewer nodes unmarked to the visits that follow. -/
theorem Searchable.visitable (h : g.Searchable bound P) (n : Nat) : g.Visitable bound P n := by
  induction n with
  | zero =>
    intro r own marked hr hmarked
    cases hmarked
  | succ n ih =>
    intro r own marked hr hmarked
    by_cases hdone : ∀ p ∈ r, p ∈ marked
    · refine ⟨([], marked), fun depth _ fuel _ => ?_, fun _ hx => hx⟩
      cases r with
      | none => cases fuel <;> rfl
      | some p =>
        have hmem : marked.contains p = true := hdone p rfl
        cases fuel <;> simp [moves, hmem]
    · push Not at hdone
      obtain ⟨p, rfl, hp⟩ := hdone
      have hpP := hr p rfl
      obtain ⟨here, hbegins⟩ := h.exists_begins hpP own
      have hfewer : g.unmarked (marked.insert p) < n :=
        Nat.lt_of_lt_of_le (unmarked_insert_lt (h.lt_size p hpP) hp) (Nat.le_of_lt_succ hmarked)
      obtain ⟨rest, marked', hvisits, hkeeps⟩ := ih.exists_visits (h.onward p hpP) hfewer
      refine ⟨(here ++ rest, marked'), fun depth hdepth fuel hfuel => ?_,
        fun x hx => hkeeps x (BitSet.mem_insert.2 (.inr hx))⟩
      obtain ⟨fuel, rfl⟩ := Nat.exists_eq_add_of_le' (Nat.le_trans (Nat.le_add_left 1 n) hfuel)
      exact moves_of_visits hp (hbegins depth hdepth)
        (hvisits depth hdepth fuel (Nat.le_of_succ_le_succ hfuel))

/-- The visits that begin at one of the nodes, with none marked, come to an end. -/
theorem Searchable.exists_moves (h : g.Searchable bound P) (hp : P p) (own : Bool) :
    ∃ found, ∀ depth, bound ≤ depth →
      HaltsWith (fun fuel => g.moves depth fuel (some p) own ∅) (g.nodes.size + 1) found := by
  have hall : g.unmarked ∅ < g.nodes.size + 1 := Nat.lt_succ_of_le (Nat.count_le _)
  obtain ⟨found, hhalts, _⟩ :=
    h.visitable _ (some p) own ∅ (fun x hx => Option.some.inj hx ▸ hp) hall
  exact ⟨found, hhalts⟩

/-- Collecting all moves of a token structure comes to an end. -/
theorem Searchable.exists_tokenMoves (h : g.Searchable bound P) (hp : P p) :
    ∃ demands, ∀ depth, bound ≤ depth →
      HaltsWith (fun fuel => g.tokenMoves depth fuel p) (g.nodes.size + 1) demands := by
  obtain ⟨⟨own, marked⟩, hmoves⟩ := h.exists_moves hp true
  obtain ⟨⟨fromStart, passed⟩, hsearch⟩ := h.search p hp Machine.start ∅
  by_cases hiter : (g.node p).kind = .iter
  · refine ⟨own ++ fromStart, fun depth hdepth fuel hfuel => ?_⟩
    simp [tokenMoves, hmoves depth hdepth fuel hfuel, hiter, hsearch depth hdepth]
  · refine ⟨own, fun depth hdepth fuel hfuel => ?_⟩
    simp [tokenMoves, hmoves depth hdepth fuel hfuel, hiter]

/-! ## Walks along the nodes -/

/-- The contents of a node begin with a phrase whose ends leave the structure. -/
theorem Shows.exists_contents (h : g.Shows e none up) (hnodup : e.nodes.Nodup) (hp : p ∈ e.nodes)
    (hq : (g.node p).sub = some q ∨ (g.node p).down = some q) :
    ∃ f k, g.Shows f k true ∧ f.nodes.Nodup ∧ f.entry = q := by
  obtain ⟨a, k, up', ha, hnodup', hfinite, rfl⟩ := h.exists_part hnodup (h.finite hnodup) hp
  clear h hnodup hp hfinite
  induction a generalizing k up' with
  | leaf r => simp [Phrase.entry, ha.2.sub_eq, ha.2.down_eq] at hq
  | seq a b iha _ => exact iha _ _ ha.1 (List.nodup_append'.1 hnodup').1 hq
  | arm r f | opt r f =>
    have hentry : f.entry = q := by simpa [Phrase.entry, ha.1.sub_eq, ha.1.down_eq] using hq
    exact ⟨f, k, ha.2, (List.nodup_cons.1 hnodup').2, hentry⟩
  | iter r f =>
    have hentry : f.entry = q := by simpa [Phrase.entry, ha.1.sub_eq, ha.1.down_eq] using hq
    exact ⟨f, some r, ha.2, (List.nodup_cons.1 hnodup').2, hentry⟩
  | alt r f f' =>
    obtain ⟨hf, hf', _⟩ := List.nodup_append'.1 (List.nodup_cons.1 hnodup').2
    have hentry : f.entry = q ∨ f'.entry = q := by
      simpa [Phrase.entry, ha.2.1.sub_eq, ha.2.1.down_eq] using hq
    rcases hentry with hentry | hentry
    · exact ⟨f, k, ha.2.2.1, hf, hentry⟩
    · exact ⟨f', k, ha.2.2.2, hf', hentry⟩

/-- All recursions over the token structure `e` come to an end. -/
structure Terminates (g : Grammar) (e : Phrase) : Prop where
  /-- whether nothing has to follow a node is found out along its successors, which end -/
  along : ∀ p ∈ e.nodes, ∃ n, n ≤ g.nodes.size ∧ g.Ends n (some p)
  /-- and in its contents, of which one sees the same to every sufficient depth -/
  within : ∀ p ∈ e.nodes, ∀ q, (g.node p).sub = some q ∨ (g.node p).down = some q →
    ∀ n, g.nodes.size ≤ n → g.outlineWithin n (some q) = g.outline (some q)
  /-- the moves that leave a state are searched -/
  searches : ∀ p ∈ e.nodes, ∀ s passed,
    ∃ found, HaltsWith (fun depth => g.leaving depth s (some p) passed) g.searchBound found
  /-- the nodes are visited for their moves -/
  visits : ∃ found, ∀ depth, g.searchBound ≤ depth →
    HaltsWith (fun fuel => g.moves depth fuel (some e.entry) true ∅) (g.nodes.size + 1) found

theorem Shows.searchable (h : g.Shows e none up) (hnodup : e.nodes.Nodup) :
    g.Searchable g.searchBound (· ∈ e.nodes) where
  lt_size _ hx := h.lt_size hx
  search _ hx := h.exists_leaving hnodup hx
  onward := h.mem_of_onward

theorem Shows.terminates (h : g.Shows e none up) (hnodup : e.nodes.Nodup) : g.Terminates e := by
  constructor
  · intro p hp
    obtain ⟨n, hn, hends⟩ := h.ends hp .done
    refine ⟨n, ?_, hends⟩
    rw [Nat.zero_add] at hn
    exact Nat.le_trans hn (h.length_nodes_le hnodup)
  · intro p hp q hq n hn
    obtain ⟨f, k, hf, hnodup', rfl⟩ := h.exists_contents hnodup hp hq
    rw [outline_entry hf hnodup' (.inl rfl)]
    exact outlineWithin_closed hf (.inl rfl) (Nat.le_trans (hf.length_nodes_le hnodup') hn)
  · intro p hp s passed
    exact h.exists_leaving hnodup hp s passed
  · exact (h.searchable hnodup).exists_moves e.entry_mem_nodes true

/-! ## Declaring a token -/

variable {pool : List Phrase}

/-- Declaring a token comes to an end, however its structure was put together, and for any machine.
Numbering ends; whatever states the nodes have then, so do all other recursions; and what is done in
the end are the demands that were collected, unless the token may be empty. -/
theorem Assembled.addToken_ends (h : Assembled g (e :: pool)) (machine : Machine) (tok : SymbolId) :
    let d : Draft := ⟨machine, g.close e.fragment⟩
    (∀ g', d.grammar.Alike g' → g'.Terminates e) ∧
    ∃ d' demands, d.grammar.Alike d'.grammar ∧
      HaltsWith (fun fuel => Draft.assignStates tok fuel (some e.entry) (some Machine.start) true d)
        (d.grammar.nodes.size + 1) d' ∧
      (∀ depth, d.grammar.searchBound ≤ depth →
        HaltsWith (fun fuel => d'.grammar.tokenMoves depth fuel e.entry)
          (d.grammar.nodes.size + 1) demands) ∧
      d.addToken e.entry tok =
        if d.grammar.deletableChain (some e.entry) then
          d.report (.errorOn (d.grammar.sym tok).line .tokenMightBeEmpty)
        else demands.foldl (Draft.meet tok) d' := by
  intro d
  have hshows : d.grammar.Shows e none false := h.shows_close
  have hnodup := h.toPool.nodup e List.mem_cons_self
  obtain ⟨d', hnumbers, hadvances⟩ := Draft.numberable tok (d.grammar.nodes.size + 1) d
    (some e.entry) (some Machine.start) true (Nat.lt_succ_of_le (Nat.count_le _))
  have halike := hadvances.alike
  obtain ⟨demands, hdemands⟩ :=
    ((halike.shows hshows).searchable hnodup).exists_tokenMoves e.entry_mem_nodes
  rw [searchBound, halike.size_eq] at hdemands
  refine ⟨fun g' halike => (halike.shows hshows).terminates hnodup, d', demands, halike, hnumbers,
    hdemands, ?_⟩
  cases hdel : d.grammar.deletableChain (some e.entry) with
  | true =>
    rw [if_pos rfl, Draft.addToken, if_pos hdel]
  | false =>
    rw [if_neg Bool.false_ne_true]
    exact Draft.addToken_eq hdel (hnumbers _ (Nat.le_refl _))
      (hdemands _ (Nat.le_refl _) _ (Nat.le_refl _))

/-- A grammar in which the token structure `a {[""] {b}}` is put together. -/
def nestedGrammar : Grammar :=
  let (a, g) := initial.addLeaf { kind := .char 97 .main, line := 1 }
  let (nothing, g) := g.addString "\"\"" 2
  let (b, g) := g.addLeaf { kind := .char 98 .main, line := 3 }
  let (option, g) := g.option nothing
  let (inner, g) := g.iteration b
  let (body, g) := g.sequence option inner
  let (outer, g) := g.iteration body
  (g.sequence a outer).2

/-- The token structure `a {[""] {b}}`. -/
def nestedPhrase : Phrase :=
  .seq (.leaf 0) (.iter 5 (.seq (.opt 3 (.leaf 1)) (.iter 4 (.leaf 2))))

theorem assembled_nested : Assembled nestedGrammar [nestedPhrase] := by
  have hchar : ∀ c, (NodeKind.char c .main).isLeaf = true := fun _ => rfl
  have hempty := ((Assembled.start .initial).leaf (hchar 97) 1 none).emptyText "\"\"" 2
    (by decide +kernel)
  have hoption := ((hempty.leaf (hchar 98) 3 none).perm (.swap _ _ _)).option
  have hinner := (hoption.perm (.swap _ _ _)).iteration
  have houter := ((hinner.perm (.swap _ _ _)).sequence).iteration
  exact (houter.perm (.swap _ _ _)).sequence

/-- Both loops of `a {[""] {b}}` are searched although the outer one may be empty inside, which is
complained about where the searches get there. -/
theorem Assembled.addToken_ends_nested :
    let d : Draft := ⟨.initial, nestedGrammar.close nestedPhrase.fragment⟩
    Assembled nestedGrammar [nestedPhrase] ∧ d.grammar.Terminates nestedPhrase ∧
      ∃ d', ∃ demands : List Demand,
        HaltsWith (fun fuel => Draft.assignStates 1 fuel (some nestedPhrase.entry)
          (some Machine.start) true d) (d.grammar.nodes.size + 1) d' ∧
        d.addToken nestedPhrase.entry 1 = demands.foldl (Draft.meet 1) d' ∧
        (d.addToken nestedPhrase.entry 1).grammar.diags.map (·.cause) =
          [.emptyToken, .deletableLoop, .deletableLoop] := by
  intro d
  have hfilled : d.grammar.deletableChain (some nestedPhrase.entry) = false := by decide +kernel
  obtain ⟨hends, d', demands, _, hnumbers, _, heq⟩ := assembled_nested.addToken_ends .initial 1
  refine ⟨assembled_nested, hends _ (.refl _), d', demands, hnumbers, ?_, by decide +kernel⟩
  rw [if_neg (by rw [hfilled]; exact Bool.false_ne_true)] at heq
  exact heq

end Grammar

end Ebnf
