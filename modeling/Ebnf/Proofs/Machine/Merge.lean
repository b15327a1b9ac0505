import Ebnf.Machine.Merge
import Ebnf.Proofs.Machine.Split

/-!
# Merged states do what the states behind them do

While moves are redirected to merged states, every state stands for a set of
declared states: what the declared machine can do in any of them, the state can
do, up to the states that stand for the same.  Different states stand for
different sets, which bounds their number.

Main results:

- Theorem `Merging.Represents.redirect`: redirecting a move keeps the invariant.
- Theorem `Merging.Represents.size_le`: there are at most as many states as sets
  of declared ones.
- Theorem `Draft.mergeStates_spec`: in the merged machine the moves of a state are
  disjoint, lead to one state each, and do what the declared states behind do.
-/

namespace Ebnf

/-! ## Making all moves disjoint -/

namespace Draft

variable {d d' d'' : Draft} {s t : StateId} {c : Nat}

/-- Another draft over the same states that recognises and does the same. -/
structure Refines (d d' : Draft) : Prop where
  wellFormed : d'.WellFormed
  grows : d.grammar.Grows d'.grammar
  size_eq : d'.machine.states.size = d.machine.states.size
  endOf_eq : ∀ s, (d'.machine.state s).endOf = (d.machine.state s).endOf
  steps_iff : ∀ s c t, d'.Steps s c t ↔ d.Steps s c t

theorem Refines.refl (h : d.WellFormed) : d.Refines d :=
  ⟨h, .refl _, rfl, fun _ => rfl, fun _ _ _ => Iff.rfl⟩

theorem Refines.trans (h : d.Refines d') (h' : d'.Refines d'') : d.Refines d'' where
  wellFormed := h'.wellFormed
  grows := h.grows.trans h'.grows
  size_eq := h'.size_eq.trans h.size_eq
  endOf_eq s := (h'.endOf_eq s).trans (h.endOf_eq s)
  steps_iff s c t := (h'.steps_iff s c t).trans (h.steps_iff s c t)

/-- Marking context states changes nothing else. -/
theorem markContextStates_eq (d : Draft) :
    d.markContextStates.machine.states.size = d.machine.states.size ∧
      d.markContextStates.machine.comments = d.machine.comments ∧
      ∀ s, ∃ context, d.markContextStates.machine.state s = { d.machine.state s with context } := by
  have hmark : ∀ (ss : List StateId) (m : Machine),
      let m' := ss.foldl (fun m s => m.modifyState s fun st => { st with context := true }) m
      m'.states.size = m.states.size ∧ m'.comments = m.comments ∧
        ∀ t, ∃ context, m'.state t = { m.state t with context } := by
    intro ss
    induction ss with
    | nil => exact fun m => ⟨rfl, rfl, fun t => ⟨(m.state t).context, rfl⟩⟩
    | cons s ss ih =>
      intro m
      obtain ⟨hsize, hcomments, hstate⟩ := ih (m.modifyState s fun st => { st with context := true })
      refine ⟨hsize.trans Machine.size_modifyState, hcomments, fun t => ?_⟩
      obtain ⟨context, ht⟩ := hstate t
      refine ⟨context, ht.trans ?_⟩
      rw [Machine.state_modifyState]
      split <;> rfl
  exact hmark _ d.machine

theorem markContextStates_spec (h : d.WellFormed) : d.Refines d.markContextStates := by
  obtain ⟨hsize, _, hstate⟩ := d.markContextStates_eq
  have hmoves : ∀ t, (d.markContextStates.machine.state t).moves = (d.machine.state t).moves := by
    intro t
    obtain ⟨context, ht⟩ := hstate t
    rw [ht]
  have hend : ∀ t, (d.markContextStates.machine.state t).endOf = (d.machine.state t).endOf := by
    intro t
    obtain ⟨context, ht⟩ := hstate t
    rw [ht]
  refine ⟨⟨h.canonical, fun t m hm => ?_, fun t m hm u hu => ?_, ?_⟩, .refl _, hsize, hend,
    fun t c u => ?_⟩
  · exact h.knows t m (hmoves t ▸ hm)
  · rw [hsize]
    exact h.target_lt t m (hmoves t ▸ hm) u hu
  · rw [hsize]
    exact h.size_pos
  · unfold Steps
    rw [hmoves]
    exact Iff.rfl

theorem state_separate_of_ne (hne : t ≠ s) :
    (d.separate s).machine.state t = d.machine.state t := by
  simp only [separate, Machine.state_modifyState, hne, false_and, if_false]

theorem moves_separate (hs : s < d.machine.states.size) :
    ((d.separate s).machine.state s).moves = (d.grammar.separate (d.machine.state s).moves).1 := by
  simp only [separate, Machine.state_modifyState, hs, and_self, if_true]

/-- When the moves of a state become disjoint, no state does more or less than before. -/
theorem offers_separate {e : Effect} (h : d.WellFormed) (hs : s < d.machine.states.size) :
    (d.separate s).grammar.Offers ((d.separate s).machine.state t).moves c e ↔
      d.grammar.Offers (d.machine.state t).moves c e := by
  have hrefines := (Grammar.separate_spec h.canonical (h.knows s)).1
  by_cases ht : t = s
  · subst ht
    rw [moves_separate hs]
    exact hrefines.offers_iff c e
  · rw [state_separate_of_ne ht]
    exact hrefines.grows.offers_iff (h.knows t)

/-- One state at a time: its moves become disjoint, and everything else stays. -/
theorem separate_spec (h : d.WellFormed) (hs : s < d.machine.states.size) :
    d.Refines (d.separate s) ∧
      (d.separate s).grammar.Separated ((d.separate s).machine.state s).moves := by
  obtain ⟨hrefines, hsep⟩ := Grammar.separate_spec h.canonical (h.knows s)
  have hmoves := moves_separate hs
  have hsize : (d.separate s).machine.states.size = d.machine.states.size :=
    Machine.size_modifyState
  have hsteps : ∀ t c u, (d.separate s).Steps t c u ↔ d.Steps t c u := fun _ _ _ =>
    offers_separate h hs
  refine ⟨⟨⟨hrefines.canonical, fun t m hm => ?_, fun t m hm u hu => ?_, ?_⟩, hrefines.grows, hsize,
    fun t => ?_, hsteps⟩, ?_⟩
  · by_cases ht : t = s
    · subst ht
      exact hrefines.knows m (hmoves ▸ hm)
    · rw [state_separate_of_ne ht] at hm
      exact hrefines.grows.knows (h.knows t m hm)
  · rw [hsize]
    by_cases ht : t = s
    · subst ht
      obtain ⟨n, hn, hnu⟩ := hrefines.of_has m (hmoves ▸ hm) (.target u) hu
      exact h.target_lt t n hn u hnu
    · rw [state_separate_of_ne ht] at hm
      exact h.target_lt t m hm u hu
  · rw [hsize]
    exact h.size_pos
  · simp only [separate, Machine.state_modifyState]
    split <;> rfl
  · rw [hmoves]
    exact hsep

theorem foldl_separate_spec {ss : List StateId} (h : d.WellFormed)
    (hss : ∀ s ∈ ss, s < d.machine.states.size) :
    d.Refines (ss.foldl separate d) ∧
      ∀ s, s ∈ ss ∨ d.grammar.Separated (d.machine.state s).moves →
        (ss.foldl separate d).grammar.Separated ((ss.foldl separate d).machine.state s).moves := by
  induction ss generalizing d with
  | nil => exact ⟨.refl h, fun s hs => hs.resolve_left List.not_mem_nil⟩
  | cons s ss ih =>
    obtain ⟨hstep, hsep⟩ := separate_spec h (hss s List.mem_cons_self)
    obtain ⟨hrun, hall⟩ := ih hstep.wellFormed fun t ht => by
      rw [hstep.size_eq]
      exact hss t (List.mem_cons_of_mem s ht)
    refine ⟨hstep.trans hrun, fun t ht => hall t ?_⟩
    by_cases hts : t = s
    · subst hts
      exact .inr hsep
    · refine ht.imp (fun hmem => (List.mem_cons.1 hmem).resolve_left hts) fun hold => ?_
      rw [state_separate_of_ne hts]
      exact hstep.grows.separated (h.knows t) hold

theorem separateAll_spec (h : d.WellFormed) :
    d.Refines d.separateAll ∧ ∀ s < d.machine.states.size,
      d.separateAll.grammar.Separated (d.separateAll.machine.state s).moves := by
  obtain ⟨hrefines, hsep⟩ := foldl_separate_spec h fun s hs => List.mem_range.1 hs
  exact ⟨hrefines, fun s hs => hsep s (.inl (List.mem_range.2 hs))⟩

/-- What making the moves of one state disjoint keeps, making all of them disjoint keeps. -/
theorem separateAll_keeps {P : Draft → Prop}
    (hP : ∀ {d : Draft} {s : StateId}, d.WellFormed → s < d.machine.states.size → P d →
      P (d.separate s))
    (h : d.WellFormed) (hd : P d) : P d.separateAll := by
  refine (List.foldlRecOn _ separate (motive := fun d' => d.Refines d' ∧ P d') ⟨.refl h, hd⟩ ?_).2
  intro d' ⟨hrefines, hd'⟩ s hs
  have hlt : s < d'.machine.states.size := by
    rw [hrefines.size_eq]
    exact List.mem_range.1 hs
  have hstep := (separate_spec hrefines.wellFormed hlt).1
  exact ⟨hrefines.trans hstep, hP hrefines.wellFormed hlt hd'⟩

end Draft

/-! ## The invariant -/

namespace Merging

variable {m : Merging} {d : Draft} {s t : StateId}

/-- Every state of a merging stands for a set of states of the declared machine `d`. -/
structure Represents (m : Merging) (d : Draft) : Prop where
  wellFormed : m.draft.WellFormed
  separated : ∀ s < m.draft.machine.states.size, m.draft.grammar.Separated (m.state s).moves
  declared_eq : m.declared = d.machine.states.size
  size_eq : m.draft.machine.states.size = m.declared + m.merged.size
  behind_lt : ∀ s < m.draft.machine.states.size, ∀ x ∈ m.behind s, x < m.declared
  behind_nonempty : ∀ s < m.draft.machine.states.size, ∃ x, x ∈ m.behind s
  behind_injective : ∀ s < m.draft.machine.states.size, ∀ t < m.draft.machine.states.size,
    m.behind s = m.behind t → s = t
  /-- what a state does is what the states behind it do -/
  steps_iff : ∀ s < m.draft.machine.states.size, ∀ c x,
    (∃ t, m.draft.Steps s c t ∧ x ∈ m.behind t) ↔ ∃ y ∈ m.behind s, d.Steps y c x
  /-- the diagnostics so far: those of the grammar, then errors -/
  diags_eq : ∃ errors, m.draft.grammar.diags = d.grammar.diags ++ errors ∧
    ∀ diag ∈ errors, diag.severity = .error
  /-- as long as there is no error, a state recognises what the states behind it recognise -/
  endOf_iff : m.draft.grammar.diags = d.grammar.diags → ∀ s < m.draft.machine.states.size, ∀ tok,
    (m.state s).endOf = some tok ↔ ∃ y ∈ m.behind s, (d.machine.state y).endOf = some tok

theorem behind_of_lt (hs : s < m.declared) : m.behind s = .singleton s :=
  if_pos hs

theorem behind_merged {i : Nat} (hi : i < m.merged.size) :
    m.behind (m.declared + i) = m.merged[i] := by
  simp [behind, hi]

/-- The machine with which merging begins. -/
theorem represents_initial {d' : Draft} (h : d.Refines d')
    (hsep : ∀ s < d.machine.states.size, d'.grammar.Separated (d'.machine.state s).moves) :
    Represents { draft := d', declared := d.machine.states.size } d := by
  have hlt : ∀ s < d'.machine.states.size, s < d.machine.states.size := fun s hs =>
    Nat.lt_of_lt_of_eq hs h.size_eq
  have hbehind : ∀ s < d'.machine.states.size, ∀ x,
      x ∈ behind { draft := d', declared := d.machine.states.size } s ↔ x = s := by
    intro s hs x
    rw [behind_of_lt (hlt s hs), BitSet.mem_singleton]
  refine ⟨h.wellFormed, fun s hs => hsep s (hlt s hs), rfl, h.size_eq, fun s hs x hx => ?_,
    fun s hs => ?_, fun s hs t ht hst => ?_, fun s hs c x => ?_, ⟨[], ?_, fun _ hd => (List.not_mem_nil hd).elim⟩,
    fun _ s hs tok => ?_⟩
  · rw [(hbehind s hs x).1 hx]
    exact hlt s hs
  · exact ⟨s, (hbehind s hs s).2 rfl⟩
  · exact (hbehind t ht s).1 (hst ▸ (hbehind s hs s).2 rfl)
  · constructor
    · rintro ⟨t, hstep, hx⟩
      obtain rfl := (hbehind t (h.wellFormed.lt_of_steps hstep) x).1 hx
      exact ⟨s, (hbehind s hs s).2 rfl, (h.steps_iff s c x).1 hstep⟩
    · rintro ⟨y, hy, hstep⟩
      obtain rfl := (hbehind s hs y).1 hy
      have hstep' := (h.steps_iff y c x).2 hstep
      exact ⟨x, hstep', (hbehind x (h.wellFormed.lt_of_steps hstep') x).2 rfl⟩
  · rw [List.append_nil]
    exact h.grows.diags_eq
  · change (d'.machine.state s).endOf = some tok ↔ _
    rw [h.endOf_eq]
    constructor
    · exact fun hend => ⟨s, (hbehind s hs s).2 rfl, hend⟩
    · rintro ⟨y, hy, hend⟩
      rwa [← (hbehind s hs y).1 hy]

/-! ## The token of several states -/

theorem commonToken_cons_of_none {tok : Option SymbolId} {ss : List StateId}
    (hend : (m.state s).endOf = none) : m.commonToken tok (s :: ss) = m.commonToken tok ss := by
  cases tok <;> simp [commonToken, hend]

theorem commonToken_none_cons {found : SymbolId} {ss : List StateId}
    (hend : (m.state s).endOf = some found) :
    m.commonToken none (s :: ss) = m.commonToken (some found) ss := by
  simp [commonToken, hend]

theorem commonToken_same_cons {tok : SymbolId} {ss : List StateId}
    (hend : (m.state s).endOf = some tok) :
    m.commonToken (some tok) (s :: ss) = m.commonToken (some tok) ss := by
  simp [commonToken, hend]

theorem commonToken_other_cons {tok found : SymbolId} (ss : List StateId)
    (hend : (m.state s).endOf = some found) (hne : found ≠ tok) :
    ∃ cause, m.commonToken (some tok) (s :: ss) =
      ((m.commonToken (some tok) ss).1, .error cause :: (m.commonToken (some tok) ss).2) := by
  simp [commonToken, hend, hne]

/-- Without a complaint the common token is the token of every state that has one. -/
theorem commonToken_eq_some {tok : Option SymbolId} {ss : List StateId}
    (hdiags : (m.commonToken tok ss).2 = []) (k : SymbolId) :
    (m.commonToken tok ss).1 = some k ↔
      tok = some k ∨ ∃ s ∈ ss, (m.state s).endOf = some k := by
  induction ss generalizing tok with
  | nil => simp [commonToken]
  | cons s ss ih =>
    simp only [List.mem_cons, exists_eq_or_imp]
    cases hend : (m.state s).endOf with
    | none =>
      rw [commonToken_cons_of_none hend] at hdiags ⊢
      simpa using ih hdiags
    | some found =>
      cases tok with
      | none =>
        rw [commonToken_none_cons hend] at hdiags ⊢
        simpa using ih hdiags
      | some tok =>
        by_cases heq : found = tok
        · subst heq
          rw [commonToken_same_cons hend] at hdiags ⊢
          rw [ih hdiags]
          tauto
        · obtain ⟨cause, hstep⟩ := commonToken_other_cons ss hend heq
          rw [hstep] at hdiags
          cases hdiags

/-- All complaints about tokens are errors. -/
theorem severity_commonToken {tok : Option SymbolId} {ss : List StateId} {diag : Diagnostic}
    (hd : diag ∈ (m.commonToken tok ss).2) : diag.severity = .error := by
  induction ss generalizing tok with
  | nil => exact (List.not_mem_nil hd).elim
  | cons s ss ih =>
    cases hend : (m.state s).endOf with
    | none =>
      rw [commonToken_cons_of_none hend] at hd
      exact ih hd
    | some found =>
      cases tok with
      | none =>
        rw [commonToken_none_cons hend] at hd
        exact ih hd
      | some tok =>
        by_cases heq : found = tok
        · subst heq
          rw [commonToken_same_cons hend] at hd
          exact ih hd
        · obtain ⟨cause, hstep⟩ := commonToken_other_cons ss hend heq
          rw [hstep] at hd
          rcases List.mem_cons.1 hd with rfl | hd
          · rfl
          · exact ih hd

/-! ## Adding a merged state -/

theorem merged?_eq_some {set : BitSet} (hsize : m.draft.machine.states.size = m.declared + m.merged.size)
    (h : m.merged? set = some t) : t < m.draft.machine.states.size ∧ m.behind t = set := by
  obtain ⟨i, hfind, rfl⟩ := Option.map_eq_some_iff.1 h
  obtain ⟨hi, heq, _⟩ := Array.findIdx?_eq_some_iff_getElem.1 hfind
  refine ⟨Nat.lt_of_lt_of_eq (Nat.add_lt_add_left hi _) hsize.symm, ?_⟩
  rw [behind_merged hi]
  simpa using heq

theorem behind_ne_of_merged? {set : BitSet}
    (hsize : m.draft.machine.states.size = m.declared + m.merged.size) (h : m.merged? set = none)
    (hset : ∀ x, set ≠ .singleton x) (hs : s < m.draft.machine.states.size) : m.behind s ≠ set := by
  by_cases hdecl : s < m.declared
  · rw [behind_of_lt hdecl]
    exact (hset s).symm
  · obtain ⟨i, rfl⟩ := Nat.exists_eq_add_of_le (Nat.le_of_not_lt hdecl)
    have hi : i < m.merged.size := Nat.lt_of_add_lt_add_left (Nat.lt_of_lt_of_eq hs hsize)
    rw [behind_merged hi]
    have hnone := Array.findIdx?_eq_none_iff.1 (Option.map_eq_none_iff.1 h)
    simpa using hnone m.merged[i] (Array.getElem_mem hi)

/-- The states behind a state do not change when another state is added. -/
theorem behind_addMerged (m : Merging) (set : BitSet) (targets : List StateId)
    (tok : Option SymbolId) (hsize : m.draft.machine.states.size = m.declared + m.merged.size) :
    (∀ s < m.draft.machine.states.size, (m.addMerged set targets tok).2.behind s = m.behind s) ∧
      (m.addMerged set targets tok).2.behind m.draft.machine.states.size = set := by
  constructor
  · intro s hs
    by_cases hdecl : s < m.declared
    · rw [behind_of_lt hdecl]
      exact behind_of_lt hdecl
    · simp only [behind, addMerged, hdecl, if_false, Array.getD_eq_getD_getElem?, Array.getElem?_push]
      rw [if_neg (by omega)]
  · simp [behind, addMerged, hsize]

/-- The draft to which `addMerged` adds its state, before the moves of the state are separated. -/
def withMerged (m : Merging) (targets : List StateId) (tok : Option SymbolId) : Draft :=
  { m.draft with
    machine := (m.draft.machine.addState
      { moves := (targets.flatMap fun t => (m.state t).moves).foldl addMove []
        endOf := tok
        context := targets.any fun t => (m.state t).context }).2 }

theorem draft_addMerged {set : BitSet} {targets : List StateId} {tok : Option SymbolId} :
    (m.addMerged set targets tok).2.draft =
      (m.withMerged targets tok).separate m.draft.machine.states.size :=
  rfl

/-- The added state does what the targets do. -/
theorem offers_withMerged {targets : List StateId} {tok : Option SymbolId} {c : Nat} {e : Effect} :
    m.draft.grammar.Offers ((m.withMerged targets tok).machine.state s).moves c e ↔
      if s = m.draft.machine.states.size then
        ∃ u ∈ targets, m.draft.grammar.Offers (m.state u).moves c e
      else m.draft.grammar.Offers (m.state s).moves c e := by
  unfold withMerged
  rw [Machine.state_addState]
  split
  · rw [Grammar.offers_foldl_addMove, or_iff_left Grammar.offers_nil]
    simp only [Grammar.Offers, List.mem_flatMap]
    constructor
    · rintro ⟨n, ⟨u, hu, hn⟩, hoff⟩
      exact ⟨u, hu, n, hn, hoff⟩
    · rintro ⟨u, hu, n, hn, hoff⟩
      exact ⟨n, ⟨u, hu, hn⟩, hoff⟩
  · exact Iff.rfl

theorem steps_withMerged {targets : List StateId} {tok : Option SymbolId} {c : Nat} :
    (m.withMerged targets tok).Steps s c t ↔
      if s = m.draft.machine.states.size then ∃ u ∈ targets, m.draft.Steps u c t
      else m.draft.Steps s c t :=
  offers_withMerged

theorem wellFormed_withMerged (m : Merging) (targets : List StateId) (tok : Option SymbolId)
    (h : m.draft.WellFormed) : (m.withMerged targets tok).WellFormed := by
  have hsize : (m.withMerged targets tok).machine.states.size = m.draft.machine.states.size + 1 :=
    Machine.size_addState
  -- every move of the new state is a move of one of the targets
  have hmoves : ∀ s, ∀ n ∈ ((m.withMerged targets tok).machine.state s).moves,
      ∃ u, n ∈ (m.draft.machine.state u).moves := by
    intro s n hn
    unfold withMerged at hn
    rw [Machine.state_addState] at hn
    split at hn
    · obtain ⟨u, _, hnu⟩ := List.mem_flatMap.1
        ((Grammar.mem_foldl_addMove.1 hn).resolve_right List.not_mem_nil)
      exact ⟨u, hnu⟩
    · exact ⟨s, hn⟩
  refine ⟨h.canonical, fun s n hn => ?_, fun s n hn t ht => ?_, by omega⟩
  · obtain ⟨u, hu⟩ := hmoves s n hn
    exact h.knows u n hu
  · obtain ⟨u, hu⟩ := hmoves s n hn
    have := h.target_lt u n hu t ht
    omega

/-- What `addMerged` adds, and that it changes nothing else. -/
structure Adds (m : Merging) (targets : List StateId) (tok : Option SymbolId) (m' : Merging) :
    Prop where
  refines : (m.withMerged targets tok).Refines m'.draft
  separated : m'.draft.grammar.Separated (m'.state m.draft.machine.states.size).moves
  size_eq : m'.draft.machine.states.size = m.draft.machine.states.size + 1
  state_eq : ∀ s < m.draft.machine.states.size, m'.state s = m.state s

theorem adds_addMerged (m : Merging) (set : BitSet) (targets : List StateId)
    (tok : Option SymbolId) (h : m.draft.WellFormed) :
    m.Adds targets tok (m.addMerged set targets tok).2 := by
  have hgrown : (m.withMerged targets tok).machine.states.size =
      m.draft.machine.states.size + 1 := Machine.size_addState
  have hlast : m.draft.machine.states.size < (m.withMerged targets tok).machine.states.size :=
    Nat.lt_of_lt_of_eq (Nat.lt_succ_self _) hgrown.symm
  obtain ⟨hrefines, hsep⟩ := Draft.separate_spec (m.wellFormed_withMerged targets tok h) hlast
  refine ⟨hrefines, hsep, hrefines.size_eq.trans hgrown, fun s hs => ?_⟩
  have hne : s ≠ m.draft.machine.states.size := Nat.ne_of_lt hs
  rw [state, draft_addMerged, Draft.state_separate_of_ne hne, withMerged, Machine.state_addState,
    if_neg hne]
  rfl

theorem Adds.cases {targets : List StateId} {tok : Option SymbolId} {m' : Merging}
    (h : m.Adds targets tok m') (hs : s < m'.draft.machine.states.size) :
    s < m.draft.machine.states.size ∨ s = m.draft.machine.states.size := by
  rw [h.size_eq] at hs
  exact Nat.lt_or_eq_of_le (Nat.le_of_lt_succ hs)

section Targets

variable {set : BitSet} {targets : List StateId}

/-- What several states do together, the states behind them do. -/
theorem Represents.steps_targets (h : m.Represents d)
    (htargets : ∀ t ∈ targets, t < m.draft.machine.states.size)
    (hset : ∀ x, x ∈ set ↔ ∃ t ∈ targets, x ∈ m.behind t) (c : Nat) (x : StateId) :
    (∃ t, (∃ u ∈ targets, m.draft.Steps u c t) ∧ x ∈ m.behind t) ↔ ∃ y ∈ set, d.Steps y c x := by
  simp only [hset]
  constructor
  · rintro ⟨t, ⟨u, hu, hstep⟩, hx⟩
    obtain ⟨y, hy, hyx⟩ := (h.steps_iff u (htargets u hu) c x).1 ⟨t, hstep, hx⟩
    exact ⟨y, ⟨u, hu, hy⟩, hyx⟩
  · rintro ⟨y, ⟨u, hu, hy⟩, hyx⟩
    obtain ⟨t, hstep, hx⟩ := (h.steps_iff u (htargets u hu) c x).2 ⟨y, hy, hyx⟩
    exact ⟨t, ⟨u, hu, hstep⟩, hx⟩

/-- What several states recognise together, the states behind them recognise. -/
theorem Represents.endOf_targets (h : m.Represents d)
    (hclean : m.draft.grammar.diags = d.grammar.diags)
    (htargets : ∀ t ∈ targets, t < m.draft.machine.states.size)
    (hset : ∀ x, x ∈ set ↔ ∃ t ∈ targets, x ∈ m.behind t) (k : SymbolId) :
    (∃ t ∈ targets, (m.state t).endOf = some k) ↔
      ∃ y ∈ set, (d.machine.state y).endOf = some k := by
  simp only [hset]
  constructor
  · rintro ⟨t, ht, htk⟩
    obtain ⟨y, hy, hyk⟩ := (h.endOf_iff hclean t (htargets t ht) k).1 htk
    exact ⟨y, ⟨t, ht, hy⟩, hyk⟩
  · rintro ⟨y, ⟨t, ht, hy⟩, hyk⟩
    exact ⟨t, ht, (h.endOf_iff hclean t (htargets t ht) k).2 ⟨y, hy, hyk⟩⟩

theorem Represents.addMerged {tok : Option SymbolId}
    (h : m.Represents d) (htargets : ∀ t ∈ targets, t < m.draft.machine.states.size)
    (hset : ∀ x, x ∈ set ↔ ∃ t ∈ targets, x ∈ m.behind t) (hnonempty : ∃ x, x ∈ set)
    (hnew : ∀ s < m.draft.machine.states.size, m.behind s ≠ set)
    (htok : m.draft.grammar.diags = d.grammar.diags → ∀ k,
      tok = some k ↔ ∃ t ∈ targets, (m.state t).endOf = some k) :
    (m.addMerged set targets tok).2.Represents d := by
  obtain ⟨hold, hlast⟩ := m.behind_addMerged set targets tok h.size_eq
  have hadds := m.adds_addMerged set targets tok h.wellFormed
  have hdiags : (m.addMerged set targets tok).2.draft.grammar.diags = m.draft.grammar.diags :=
    hadds.refines.grows.diags_eq
  have hmerged : (m.addMerged set targets tok).2.merged.size = m.merged.size + 1 :=
    Array.size_push set
  have hdecl : (m.addMerged set targets tok).2.declared = m.declared := rfl
  generalize (m.addMerged set targets tok).2 = m' at *
  refine ⟨hadds.refines.wellFormed, fun s hs => ?_, hdecl.trans h.declared_eq, ?_, fun s hs x hx => ?_,
    fun s hs => ?_, fun s hs t ht hst => ?_, fun s hs c x => ?_, ?_, fun hclean s hs k => ?_⟩
  · rcases hadds.cases hs with hs | rfl
    · rw [hadds.state_eq s hs]
      exact hadds.refines.grows.separated (h.wellFormed.knows s) (h.separated s hs)
    · exact hadds.separated
  · have := h.size_eq
    have := hadds.size_eq
    omega
  · rw [hdecl]
    rcases hadds.cases hs with hs | rfl
    · exact h.behind_lt s hs x (hold s hs ▸ hx)
    · obtain ⟨t, ht, hx⟩ := (hset x).1 (hlast ▸ hx)
      exact h.behind_lt t (htargets t ht) x hx
  · rcases hadds.cases hs with hs | rfl
    · rw [hold s hs]
      exact h.behind_nonempty s hs
    · rw [hlast]
      exact hnonempty
  · rcases hadds.cases hs with hs | rfl
    · rcases hadds.cases ht with ht | rfl
      · exact h.behind_injective s hs t ht (by rw [← hold s hs, hst, hold t ht])
      · exact absurd (by rw [← hold s hs, hst, hlast]) (hnew s hs)
    · rcases hadds.cases ht with ht | rfl
      · exact absurd (by rw [← hold t ht, ← hst, hlast]) (hnew t ht)
      · rfl
  · -- the moves that were there already lead to states that were there already
    have hsteps : ∀ u t, m.draft.Steps u c t → (x ∈ m'.behind t ↔ x ∈ m.behind t) := fun u t hstep => by
      rw [hold t (h.wellFormed.lt_of_steps hstep)]
    simp only [hadds.refines.steps_iff, steps_withMerged]
    rcases hadds.cases hs with hs | rfl
    · simp only [Nat.ne_of_lt hs, if_false]
      rw [hold s hs, ← h.steps_iff s hs c x]
      exact exists_congr fun t => and_congr_right (hsteps s t)
    · simp only [if_true]
      rw [hlast, ← h.steps_targets htargets hset c x]
      exact exists_congr fun t => and_congr_right fun ⟨u, _, hstep⟩ => hsteps u t hstep
  · rw [hdiags]
    exact h.diags_eq
  · rw [hdiags] at hclean
    rcases hadds.cases hs with hs | rfl
    · rw [hadds.state_eq s hs, hold s hs]
      exact h.endOf_iff hclean s hs k
    · have hend : (m'.state m.draft.machine.states.size).endOf = tok := by
        refine (hadds.refines.endOf_eq _).trans ?_
        rw [withMerged, Machine.state_addState, if_pos rfl]
      rw [hend, htok hclean, hlast]
      exact h.endOf_targets hclean htargets hset k

end Targets

/-! ## Redirecting a move -/

/-- Lets the `i`-th move of the state `s` lead to `t` only. -/
def retarget (m : Merging) (s : StateId) (i : Nat) (t : StateId) : Merging :=
  { m with draft.machine := m.draft.machine.modifyState s fun st =>
      { st with moves := st.moves.modify i fun move => { move with targets := .singleton t } } }

theorem state_retarget_of_ne {i : Nat} {u : StateId} (hne : u ≠ s) :
    (m.retarget s i t).state u = m.state u := by
  simp [retarget, state, Machine.state_modifyState, hne]

theorem state_retarget {i : Nat} (hs : s < m.draft.machine.states.size) :
    (m.retarget s i t).state s =
      { m.state s with moves :=
          (m.state s).moves.modify i fun move => { move with targets := .singleton t } } := by
  simp only [retarget, state, Machine.state_modifyState, hs, and_self, if_true]

@[simp]
theorem size_retarget {i : Nat} :
    (m.retarget s i t).draft.machine.states.size = m.draft.machine.states.size :=
  Machine.size_modifyState

@[simp]
theorem behind_retarget {i : Nat} : (m.retarget s i t).behind = m.behind :=
  rfl

@[simp]
theorem grammar_retarget {i : Nat} : (m.retarget s i t).draft.grammar = m.draft.grammar :=
  rfl

section Retarget

variable {i : Nat} {move : Move} {u : StateId}

/-- Only the move itself changes. -/
theorem moves_retarget (hs : s < m.draft.machine.states.size)
    (hmove : (m.state s).moves[i]? = some move) (t : StateId) :
    ∃ before after, (m.state s).moves = before ++ move :: after ∧
      ((m.retarget s i t).state s).moves =
        before ++ { move with targets := .singleton t } :: after := by
  obtain ⟨hi, hget⟩ := List.getElem?_eq_some_iff.1 hmove
  obtain ⟨before, found, after, hmoves, hlen, hnew⟩ :=
    List.exists_of_modify (fun move : Move => { move with targets := .singleton t }) hi
  obtain rfl : found = move := by
    rw [← hget]
    simp [hmoves, ← hlen]
  refine ⟨before, after, hmoves, ?_⟩
  rw [state_retarget hs]
  exact hnew

theorem mem_moves_retarget {n : Move} (hs : s < m.draft.machine.states.size)
    (hmove : (m.state s).moves[i]? = some move) (hn : n ∈ ((m.retarget s i t).state u).moves) :
    n ∈ (m.state u).moves ∨ n = { move with targets := .singleton t } := by
  by_cases hus : u = s
  · subst hus
    obtain ⟨before, after, hmoves, hmoves'⟩ := moves_retarget hs hmove t
    rw [hmoves'] at hn
    rw [hmoves]
    simp only [List.mem_append, List.mem_cons] at hn ⊢
    tauto
  · rw [state_retarget_of_ne hus] at hn
    exact .inl hn

theorem endOf_retarget : ((m.retarget s i t).state u).endOf = (m.state u).endOf := by
  simp only [retarget, state, Machine.state_modifyState]
  split <;> rfl

theorem wellFormed_retarget (h : m.draft.WellFormed) (hs : s < m.draft.machine.states.size)
    (ht : t < m.draft.machine.states.size) (hmove : (m.state s).moves[i]? = some move) :
    (m.retarget s i t).draft.WellFormed where
  canonical := h.canonical
  knows u n hn := by
    rcases mem_moves_retarget hs hmove hn with hn | rfl
    · exact h.knows u n hn
    · exact h.knows s move (List.mem_of_getElem? hmove)
  target_lt u n hn v hv := by
    rw [size_retarget]
    rcases mem_moves_retarget hs hmove hn with hn | rfl
    · exact h.target_lt u n hn v hv
    · rw [BitSet.mem_singleton.1 hv]
      exact ht
  size_pos := by
    rw [size_retarget]
    exact h.size_pos

theorem separated_retarget (hs : s < m.draft.machine.states.size)
    (hmove : (m.state s).moves[i]? = some move)
    (hsep : m.draft.grammar.Separated (m.state u).moves) :
    m.draft.grammar.Separated ((m.retarget s i t).state u).moves := by
  by_cases hus : u = s
  · subst hus
    obtain ⟨before, after, hmoves, hmoves'⟩ := moves_retarget hs hmove t
    rw [hmoves] at hsep
    rw [hmoves']
    unfold Grammar.Separated at hsep ⊢
    simpa only [List.pairwise_append, List.pairwise_cons, List.forall_mem_cons] using hsep
  · rwa [state_retarget_of_ne hus]

/-- If the new target stands for what the targets stood for, no state does more or less. -/
theorem steps_retarget (hs : s < m.draft.machine.states.size)
    (hmove : (m.state s).moves[i]? = some move)
    (hbehind : ∀ x, x ∈ m.behind t ↔ ∃ u ∈ move.targets, x ∈ m.behind u) (c : Nat) (x : StateId) :
    (∃ v, (m.retarget s i t).draft.Steps u c v ∧ x ∈ m.behind v) ↔
      ∃ v, m.draft.Steps u c v ∧ x ∈ m.behind v := by
  change (∃ v, m.draft.grammar.Offers ((m.retarget s i t).state u).moves c (.target v) ∧ _) ↔
    ∃ v, m.draft.grammar.Offers (m.state u).moves c (.target v) ∧ _
  by_cases hus : u = s
  · subst hus
    obtain ⟨before, after, hmoves, hmoves'⟩ := moves_retarget hs hmove t
    rw [hmoves', hmoves]
    simp only [Grammar.offers_append, Grammar.offers_cons, or_and_right, exists_or]
    refine or_congr_right (or_congr_left ?_)
    simp only [Move.Has, BitSet.mem_singleton, and_assoc, exists_and_left, exists_eq_left, hbehind]
  · rw [state_retarget_of_ne hus]

theorem Represents.retarget (h : m.Represents d)
    (hs : s < m.draft.machine.states.size) (ht : t < m.draft.machine.states.size)
    (hmove : (m.state s).moves[i]? = some move)
    (hbehind : ∀ x, x ∈ m.behind t ↔ ∃ u ∈ move.targets, x ∈ m.behind u) :
    (m.retarget s i t).Represents d := by
  have hwellFormed := wellFormed_retarget h.wellFormed hs ht hmove
  refine ⟨hwellFormed, fun u hu => ?_, h.declared_eq, ?_, ?_, ?_, ?_, fun u hu c x => ?_, h.diags_eq,
    fun hclean u hu k => ?_⟩ <;>
    simp only [size_retarget, behind_retarget, grammar_retarget] at *
  · exact separated_retarget hs hmove (h.separated u hu)
  · exact h.size_eq
  · exact h.behind_lt
  · exact h.behind_nonempty
  · exact h.behind_injective
  · exact (steps_retarget hs hmove hbehind c x).trans (h.steps_iff u hu c x)
  · rw [endOf_retarget]
    exact h.endOf_iff hclean u hu k

end Retarget

/-- What redirecting one move does to the other moves. -/
structure Redirects (m : Merging) (s : StateId) (i : Nat) (m' : Merging) : Prop where
  size_le : m.draft.machine.states.size ≤ m'.draft.machine.states.size
  state_eq : ∀ u < m.draft.machine.states.size, u ≠ s → m'.state u = m.state u
  length_eq : (m'.state s).moves.length = (m.state s).moves.length
  move_eq : ∀ j, j ≠ i → (m'.state s).moves[j]? = (m.state s).moves[j]?
  targets_lt : ∀ move, (m'.state s).moves[i]? = some move → move.targets.toList.length < 2

/-- If there is no complaint in the end, there was none before. -/
theorem Represents.clean_of_report {diags : List Diagnostic} (h : m.Represents d)
    (hclean : (m.draft.grammar.reportAll diags).diags = d.grammar.diags) :
    m.draft.grammar.diags = d.grammar.diags ∧ diags = [] := by
  obtain ⟨errors, heq, _⟩ := h.diags_eq
  have hnil : m.draft.grammar.diags ++ diags = d.grammar.diags := hclean
  rw [heq, List.append_assoc] at hnil
  have hnone := List.append_eq_nil_iff.1 (List.append_right_eq_self.1 hnil)
  rw [heq, hnone.1, List.append_nil]
  exact ⟨rfl, hnone.2⟩

/-- Complaints do not change what states stand for. -/
theorem Represents.report (h : m.Represents d) (diags : List Diagnostic)
    (hdiags : ∀ diag ∈ diags, diag.severity = .error) :
    Represents { m with draft.grammar := m.draft.grammar.reportAll diags } d := by
  obtain ⟨errors, heq, herrors⟩ := h.diags_eq
  refine ⟨⟨h.wellFormed.canonical, h.wellFormed.knows, h.wellFormed.target_lt,
    h.wellFormed.size_pos⟩, h.separated, h.declared_eq, h.size_eq, h.behind_lt, h.behind_nonempty,
    h.behind_injective, h.steps_iff, ⟨errors ++ diags, ?_, ?_⟩,
    fun hclean => h.endOf_iff (h.clean_of_report hclean).1⟩
  · rw [← List.append_assoc, ← heq]
    rfl
  · intro diag hd
    rcases List.mem_append.1 hd with hd | hd
    · exact herrors diag hd
    · exact hdiags diag hd

/-- A state for a set of declared states: the one that there is, or a new one. -/
def intern (m : Merging) (set : BitSet) (targets : List StateId) (tok : Option SymbolId) :
    StateId × Merging :=
  match m.merged? set with
  | some t => (t, m)
  | none => m.addMerged set targets tok

theorem redirect_of_le {i : Nat} {move : Move} (hmove : (m.state s).moves[i]? = some move)
    (hlen : ¬ move.targets.toList.length < 2) :
    m.redirect s i =
      let common := m.commonToken none move.targets.toList
      let r := intern { m with draft.grammar := m.draft.grammar.reportAll common.2 }
        (move.targets.toList.foldl (fun set t => set.union (m.behind t)) ∅) move.targets.toList
        common.1
      r.2.retarget s i r.1 := by
  simp only [redirect, hmove, Option.map_some, Option.getD_some, hlen, if_false]
  rfl

theorem redirect_of_lt {i : Nat}
    (hlen : ∀ move, (m.state s).moves[i]? = some move → move.targets.toList.length < 2) :
    m.redirect s i = m := by
  unfold redirect
  cases hmove : (m.state s).moves[i]? with
  | none => simp
  | some move => simp [hlen move hmove]

/-- Redirecting a move changes nothing if it leads to one state at most; else there is one state for
all its targets then. -/
theorem redirect_cases (m : Merging) (s : StateId) (i : Nat) :
    (∀ move, (m.state s).moves[i]? = some move → move.targets.toList.length < 2) ∧
        m.redirect s i = m ∨
      ∃ move, (m.state s).moves[i]? = some move ∧ ¬ move.targets.toList.length < 2 ∧
        m.redirect s i =
          let common := m.commonToken none move.targets.toList
          let r := intern { m with draft.grammar := m.draft.grammar.reportAll common.2 }
            (move.targets.toList.foldl (fun set t => set.union (m.behind t)) ∅) move.targets.toList
            common.1
          r.2.retarget s i r.1 := by
  by_cases hlen : ∀ move, (m.state s).moves[i]? = some move → move.targets.toList.length < 2
  · exact .inl ⟨hlen, redirect_of_lt hlen⟩
  · push Not at hlen
    obtain ⟨move, hmove, hlen⟩ := hlen
    exact .inr ⟨move, hmove, Nat.not_lt.2 hlen, redirect_of_le hmove (Nat.not_lt.2 hlen)⟩

/-- Each single step of merging keeps the property `P`. -/
structure Kept (P : Draft → Prop) : Prop where
  mark : ∀ d, P d → P d.markContextStates
  separate : ∀ d s, P d → P (d.separate s)
  report : ∀ d diags, P d → P { d with grammar := d.grammar.reportAll diags }
  add : ∀ (m : Merging) targets tok, P m.draft → P (m.withMerged targets tok)
  retarget : ∀ (m : Merging) s i t, P m.draft → P (m.retarget s i t).draft

theorem Kept.redirect {P : Draft → Prop} (h : Kept P) (hm : P m.draft) (s : StateId) (i : Nat) :
    P (m.redirect s i).draft := by
  rcases m.redirect_cases s i with ⟨_, heq⟩ | ⟨move, _, _, heq⟩
  · rwa [heq]
  · rw [heq]
    refine h.retarget _ s i _ ?_
    unfold intern
    split
    · exact h.report _ _ hm
    · rw [draft_addMerged]
      exact h.separate _ _ (h.add _ _ _ (h.report _ _ hm))

/-- What each step keeps, merging keeps. -/
theorem Kept.mergeStates {P : Draft → Prop} (h : Kept P) (hd : P d) : P d.mergeStates := by
  have hrun : ∀ (fuel : Nat) (s : StateId) {m : Merging}, P m.draft →
      P (redirectFrom fuel s m).draft := by
    intro fuel
    induction fuel with
    | zero => exact fun _ _ hm => hm
    | succ fuel ih =>
      intro s m hm
      rw [redirectFrom]
      split
      · exact ih (s + 1) (List.foldlRecOn _ _ (motive := fun m : Merging => P m.draft) hm fun _ hm i _ =>
          h.redirect hm s i)
      · exact hm
  refine hrun _ 0 ?_
  exact List.foldlRecOn _ Draft.separate (motive := P) (h.mark d hd) fun d hd s _ => h.separate d s hd

/-- A set that is put together from several states is not one of a single declared state. -/
theorem Represents.union_ne_singleton {targets : List StateId} {set : BitSet} (h : m.Represents d)
    (htargets : ∀ t ∈ targets, t < m.draft.machine.states.size)
    (hset : ∀ x, x ∈ set ↔ ∃ t ∈ targets, x ∈ m.behind t) (hnodup : targets.Nodup)
    (hlen : ¬ targets.length < 2) (x : Nat) : set ≠ .singleton x := by
  intro heq
  have hall : ∀ t ∈ targets, m.behind t = .singleton x := by
    intro t ht
    have hsub : ∀ y ∈ m.behind t, y = x := fun y hy =>
      BitSet.mem_singleton.1 (heq ▸ (hset y).2 ⟨t, ht, hy⟩)
    obtain ⟨y, hy⟩ := h.behind_nonempty t (htargets t ht)
    refine BitSet.ext_mem fun z => ⟨fun hz => BitSet.mem_singleton.2 (hsub z hz), fun hz => ?_⟩
    rw [BitSet.mem_singleton.1 hz, ← hsub y hy]
    exact hy
  match targets, hlen, hnodup with
  | [], hlen, _ => exact hlen Nat.two_pos
  | [_], hlen, _ => exact hlen Nat.one_lt_two
  | t :: u :: _, _, hnodup =>
    have htu : t = u := h.behind_injective t (htargets t (by simp)) u (htargets u (by simp))
      ((hall t (by simp)).trans (hall u (by simp)).symm)
    simp [htu] at hnodup

/-- What interning a set gives. -/
structure Interns (m : Merging) (set : BitSet) (t : StateId) (m' : Merging) : Prop where
  size_le : m.draft.machine.states.size ≤ m'.draft.machine.states.size
  lt_size : t < m'.draft.machine.states.size
  behind_eq : m'.behind t = set
  behind_old : ∀ u < m.draft.machine.states.size, m'.behind u = m.behind u
  state_old : ∀ u < m.draft.machine.states.size, m'.state u = m.state u

theorem Represents.intern {targets : List StateId} {set : BitSet} {tok : Option SymbolId}
    (h : m.Represents d) (htargets : ∀ t ∈ targets, t < m.draft.machine.states.size)
    (hset : ∀ x, x ∈ set ↔ ∃ t ∈ targets, x ∈ m.behind t) (hnodup : targets.Nodup)
    (hlen : ¬ targets.length < 2)
    (htok : m.draft.grammar.diags = d.grammar.diags → ∀ k,
      tok = some k ↔ ∃ t ∈ targets, (m.state t).endOf = some k) :
    (m.intern set targets tok).2.Represents d ∧
      m.Interns set (m.intern set targets tok).1 (m.intern set targets tok).2 := by
  unfold Merging.intern
  cases hfind : m.merged? set with
  | some t =>
    obtain ⟨ht, hbehind⟩ := merged?_eq_some h.size_eq hfind
    exact ⟨h, Nat.le_refl _, ht, hbehind, fun _ _ => rfl, fun _ _ => rfl⟩
  | none =>
    have hne := h.union_ne_singleton htargets hset hnodup hlen
    have hnonempty : ∃ x, x ∈ set := by
      obtain ⟨t, ht⟩ := List.exists_mem_of_length_pos (l := targets) (by omega)
      obtain ⟨x, hx⟩ := h.behind_nonempty t (htargets t ht)
      exact ⟨x, (hset x).2 ⟨t, ht, hx⟩⟩
    have hadds := m.adds_addMerged set targets tok h.wellFormed
    obtain ⟨hold, hlast⟩ := m.behind_addMerged set targets tok h.size_eq
    refine ⟨h.addMerged htargets hset hnonempty
      (fun s hs => behind_ne_of_merged? h.size_eq hfind hne hs) htok, ?_, ?_, hlast, hold,
      hadds.state_eq⟩
    · exact Nat.le_of_lt (Nat.lt_of_lt_of_eq (Nat.lt_succ_self _) hadds.size_eq.symm)
    · exact Nat.lt_of_lt_of_eq (Nat.lt_succ_self _) hadds.size_eq.symm

theorem length_toList_singleton (t : StateId) : (BitSet.singleton t).toList.length < 2 := by
  have hall : ∀ x ∈ (BitSet.singleton t).toList, x = t := fun x hx =>
    BitSet.mem_singleton.1 (BitSet.mem_toList.1 hx)
  match (BitSet.singleton t).toList, hall, (BitSet.singleton t).nodup_toList with
  | [], _, _ => exact Nat.two_pos
  | [_], _, _ => exact Nat.one_lt_two
  | x :: y :: _, hall, hnodup =>
    have hxy : x = y := (hall x (by simp)).trans (hall y (by simp)).symm
    simp [hxy] at hnodup

theorem Represents.redirect (h : m.Represents d) (hs : s < m.draft.machine.states.size) (i : Nat) :
    (m.redirect s i).Represents d ∧ m.Redirects s i (m.redirect s i) := by
  rcases m.redirect_cases s i with ⟨hlen, heq⟩ | ⟨move, hmove, hlen, heq⟩
  · rw [heq]
    exact ⟨h, Nat.le_refl _, fun _ _ _ => rfl, rfl, fun _ _ => rfl, hlen⟩
  · have htargets : ∀ t ∈ move.targets.toList, t < m.draft.machine.states.size := fun t ht =>
      h.wellFormed.target_lt s move (List.mem_of_getElem? hmove) t (BitSet.mem_toList.1 ht)
    have hset : ∀ x, x ∈ move.targets.toList.foldl (fun set t => set.union (m.behind t))
        (∅ : BitSet) ↔ ∃ t ∈ move.targets.toList, x ∈ m.behind t := fun x => by
      rw [BitSet.mem_foldl_union, or_iff_right (BitSet.not_mem_empty x)]
    obtain ⟨hinterned, hi⟩ := (h.report (m.commonToken none move.targets.toList).2
      fun _ => severity_commonToken).intern htargets hset move.targets.nodup_toList hlen
      fun hclean k => by
        rw [commonToken_eq_some (h.clean_of_report hclean).2]
        simp [state]
    rw [heq]
    dsimp only
    generalize Merging.intern _ _ _ _ = r at hinterned hi ⊢
    obtain ⟨t, m'⟩ := r
    dsimp only at hinterned hi ⊢
    have hs' : s < m'.draft.machine.states.size := Nat.lt_of_lt_of_le hs hi.size_le
    have hstate : m'.state s = m.state s := hi.state_old s hs
    refine ⟨hinterned.retarget hs' hi.lt_size (hstate ▸ hmove) fun x => ?_, ?_, fun u hu hus => ?_,
      ?_, fun j hj => ?_, fun move' hmove' => ?_⟩
    · rw [hi.behind_eq, hset]
      refine exists_congr fun u => ?_
      rw [BitSet.mem_toList]
      refine and_congr_right fun hu => ?_
      rw [hi.behind_old u (htargets u (BitSet.mem_toList.2 hu))]
      rfl
    · rw [size_retarget]
      exact hi.size_le
    · rw [state_retarget_of_ne hus]
      exact hi.state_old u hu
    · rw [state_retarget hs', hstate]
      exact List.length_modify _ _ _
    · rw [state_retarget hs', hstate]
      exact List.getElem?_modify_ne _ _ hj.symm
    · rw [state_retarget hs', hstate] at hmove'
      have heq : { move with targets := .singleton t } = move' := by
        simpa [hmove] using hmove'
      rw [← heq]
      exact length_toList_singleton t

/-! ## Redirecting all moves -/

/-- What redirecting all moves of a state does. -/
structure RedirectsAll (m : Merging) (s : StateId) (m' : Merging) : Prop where
  size_le : m.draft.machine.states.size ≤ m'.draft.machine.states.size
  state_eq : ∀ u < m.draft.machine.states.size, u ≠ s → m'.state u = m.state u
  targets_lt : ∀ move ∈ (m'.state s).moves, move.targets.toList.length < 2

theorem Represents.foldl_redirect (h : m.Represents d) (hs : s < m.draft.machine.states.size)
    (n : Nat) :
    let m' := (List.range n).foldl (fun m i => m.redirect s i) m
    m'.Represents d ∧ m.draft.machine.states.size ≤ m'.draft.machine.states.size ∧
      (∀ u < m.draft.machine.states.size, u ≠ s → m'.state u = m.state u) ∧
      (m'.state s).moves.length = (m.state s).moves.length ∧
      ∀ j < n, ∀ move, (m'.state s).moves[j]? = some move → move.targets.toList.length < 2 := by
  induction n with
  | zero => exact ⟨h, Nat.le_refl _, fun _ _ _ => rfl, rfl, fun j hj => (Nat.not_lt_zero j hj).elim⟩
  | succ n ih =>
    simp only [List.range_succ, List.foldl_append, List.foldl_cons, List.foldl_nil]
    generalize (List.range n).foldl (fun m i => m.redirect s i) m = m' at ih ⊢
    obtain ⟨hrep, hsize, hstate, hlen, hdone⟩ := ih
    obtain ⟨hrep', hstep⟩ := hrep.redirect (Nat.lt_of_lt_of_le hs hsize) n
    refine ⟨hrep', Nat.le_trans hsize hstep.size_le, fun u hu hus => ?_,
      hstep.length_eq.trans hlen, fun j hj => ?_⟩
    · rw [hstep.state_eq u (Nat.lt_of_lt_of_le hu hsize) hus, hstate u hu hus]
    · by_cases hjn : j = n
      · subst hjn
        exact hstep.targets_lt
      · rw [hstep.move_eq j hjn]
        exact hdone j (by omega)

theorem Represents.redirectAll (h : m.Represents d) (hs : s < m.draft.machine.states.size) :
    (m.redirectAll s).Represents d ∧ m.RedirectsAll s (m.redirectAll s) := by
  obtain ⟨hrep, hsize, hstate, hlen, hdone⟩ := h.foldl_redirect hs (m.state s).moves.length
  refine ⟨hrep, hsize, hstate, fun move hmove => ?_⟩
  obtain ⟨j, hj, hget⟩ := List.getElem_of_mem hmove
  exact hdone j (Nat.lt_of_lt_of_eq hj hlen) move (List.getElem?_eq_some_iff.2 ⟨hj, hget⟩)

/-- There are at most as many states as sets of declared states. -/
theorem Represents.size_le (h : m.Represents d) :
    m.draft.machine.states.size ≤ 1 <<< m.declared := by
  have hinj : Set.InjOn (fun s => (m.behind s).mask) (Finset.range m.draft.machine.states.size) := by
    intro s hs t ht hst
    have hmask : m.behind s = m.behind t := by
      cases hbs : m.behind s
      cases hbt : m.behind t
      simpa [hbs, hbt] using hst
    exact h.behind_injective s (Finset.mem_range.1 hs) t (Finset.mem_range.1 ht) hmask
  have hmaps : ∀ s ∈ Finset.range m.draft.machine.states.size,
      (m.behind s).mask ∈ Finset.range (1 <<< m.declared) := by
    intro s hs
    rw [Finset.mem_range, Nat.one_shiftLeft]
    refine Nat.lt_pow_two_of_testBit _ fun i hi => ?_
    refine Bool.eq_false_iff.2 fun hbit => ?_
    exact Nat.not_lt.2 hi (h.behind_lt s (Finset.mem_range.1 hs) i hbit)
  simpa using Finset.card_le_card_of_injOn _ hmaps hinj

/-- Every state gets its turn, also those that are added on the way. -/
theorem Represents.redirectFrom (fuel : Nat) (s : StateId) (h : m.Represents d)
    (hfuel : 1 <<< m.declared ≤ s + fuel)
    (hdone : ∀ u < s, ∀ move ∈ (m.state u).moves, move.targets.toList.length < 2) :
    (redirectFrom fuel s m).Represents d ∧
      ∀ u < (redirectFrom fuel s m).draft.machine.states.size,
        ∀ move ∈ ((redirectFrom fuel s m).state u).moves, move.targets.toList.length < 2 := by
  induction fuel generalizing s m with
  | zero =>
    refine ⟨h, fun u hu => hdone u ?_⟩
    exact Nat.lt_of_lt_of_le hu (Nat.le_trans h.size_le hfuel)
  | succ fuel ih =>
    rw [Merging.redirectFrom]
    split
    next hs =>
      obtain ⟨hrep, hall⟩ := h.redirectAll hs
      have hdecl : (m.redirectAll s).declared = m.declared :=
        hrep.declared_eq.trans h.declared_eq.symm
      refine ih (s + 1) hrep ?_ fun u hu move hmove => ?_
      · rw [hdecl]
        omega
      · by_cases hus : u = s
        · subst hus
          exact hall.targets_lt move hmove
        · have hlt : u < s := Nat.lt_of_le_of_ne (Nat.le_of_lt_succ hu) hus
          rw [hall.state_eq u (Nat.lt_trans hlt hs) hus] at hmove
          exact hdone u hlt move hmove
    next hs =>
      exact ⟨h, fun u hu => hdone u (Nat.lt_of_lt_of_le hu (Nat.not_lt.1 hs))⟩

/-- What redirecting moves keeps, one after the other, redirecting all of them keeps. -/
theorem Represents.redirectFrom_keeps {P : Merging → Prop}
    (hP : ∀ {m : Merging} {s : StateId}, m.Represents d → s < m.draft.machine.states.size → P m →
      ∀ i, P (m.redirect s i))
    (fuel : Nat) (s : StateId) (h : m.Represents d) (hm : P m) : P (Merging.redirectFrom fuel s m) := by
  induction fuel generalizing s m with
  | zero => exact hm
  | succ fuel ih =>
    rw [Merging.redirectFrom]
    split
    next hs =>
      have hfold : ∀ (n : Nat), P ((List.range n).foldl (fun m i => m.redirect s i) m) := by
        intro n
        induction n with
        | zero => exact hm
        | succ n ihn =>
          obtain ⟨hrep, hsize, _⟩ := h.foldl_redirect hs n
          rw [List.range_succ, List.foldl_append]
          exact hP hrep (Nat.lt_of_lt_of_le hs hsize) ihn n
      exact ih (s + 1) (h.redirectAll hs).1 (hfold _)
    next => exact hm

end Merging

/-! ## The merged machine -/

/-- `d'` is deterministic, and its states stand for sets of states of `d`. -/
structure Draft.Determinizes (d d' : Draft) (behind : StateId → BitSet) : Prop where
  wellFormed : d'.WellFormed
  separated : ∀ s < d'.machine.states.size, d'.grammar.Separated (d'.machine.state s).moves
  targets_lt : ∀ s < d'.machine.states.size, ∀ move ∈ (d'.machine.state s).moves,
    move.targets.toList.length < 2
  behind_start : ∀ x, x ∈ behind Machine.start ↔ x = Machine.start
  behind_nonempty : ∀ s < d'.machine.states.size, ∃ x, x ∈ behind s
  steps_iff : ∀ s < d'.machine.states.size, ∀ c x,
    (∃ t, d'.Steps s c t ∧ x ∈ behind t) ↔ ∃ y ∈ behind s, d.Steps y c x
  diags_eq : ∃ errors, d'.grammar.diags = d.grammar.diags ++ errors ∧
    ∀ diag ∈ errors, diag.severity = .error
  endOf_iff : d'.grammar.diags = d.grammar.diags → ∀ s < d'.machine.states.size, ∀ tok,
    (d'.machine.state s).endOf = some tok ↔ ∃ y ∈ behind s, (d.machine.state y).endOf = some tok

namespace Draft

variable {d : Draft}

/-- The merging that the merged machine is the result of. -/
def merging (d : Draft) : Merging :=
  Merging.redirectFrom (1 <<< d.machine.states.size) 0
    { draft := d.markContextStates.separateAll, declared := d.machine.states.size }

/-- Before a move is redirected, every state stands for itself. -/
theorem represents_separateAll (h : d.WellFormed) :
    Merging.Represents { draft := d.markContextStates.separateAll
                         declared := d.machine.states.size } d := by
  obtain ⟨hsep, hdisjoint⟩ := separateAll_spec (markContextStates_spec h).wellFormed
  have hmark := markContextStates_spec h
  exact Merging.represents_initial (hmark.trans hsep) fun s hs =>
    hdisjoint s (Nat.lt_of_lt_of_eq hs hmark.size_eq.symm)

theorem represents_merging (h : d.WellFormed) :
    d.merging.Represents d ∧ ∀ s < d.mergeStates.machine.states.size,
      ∀ move ∈ (d.mergeStates.machine.state s).moves, move.targets.toList.length < 2 :=
  (represents_separateAll h).redirectFrom (1 <<< d.machine.states.size) 0 (Nat.le_add_left _ _)
    fun u hu => (Nat.not_lt_zero u hu).elim

/-- The merged machine does what the declared one does, with one target for each move. -/
theorem determinizes_mergeStates (h : d.WellFormed) :
    d.Determinizes d.mergeStates d.merging.behind := by
  obtain ⟨hrep, htargets⟩ := represents_merging h
  refine ⟨hrep.wellFormed, hrep.separated, htargets, fun x => ?_, hrep.behind_nonempty,
    hrep.steps_iff, hrep.diags_eq, hrep.endOf_iff⟩
  rw [Merging.behind_of_lt, BitSet.mem_singleton]
  rw [hrep.declared_eq]
  exact h.size_pos

theorem mergeStates_spec (h : d.WellFormed) : ∃ behind, d.Determinizes d.mergeStates behind :=
  ⟨_, determinizes_mergeStates h⟩

end Draft

end Ebnf
