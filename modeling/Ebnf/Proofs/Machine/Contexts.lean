import Ebnf.Proofs.Machine.Merge

/-!
# Contexts in merged machines

A move of a merged machine reads context if one of the moves behind it does.  So a
state of the merged machine reads a character as context, or can go on with a context,
if one of the declared states does for which it stands.  The states that a context
move leads to are marked before, and merged states keep the mark.

Main results:

- Theorem `Grammar.separate_carries`: what a move does, some move still does when the
  moves of a state are made disjoint.
- Theorem `Merging.Marks.redirect`: redirecting a move keeps what is read as context.
- Theorem `Draft.marks_merging`: in the merged machine, a state reads as context
  what the declared states behind it do.
-/

namespace Ebnf

/-! ## Splitting -/

namespace Grammar

variable {g g' : Grammar} {ms ms' ms'' : List Move}

/-- What a move of the first list does, some move of the second list does; and every move of the
second list does all that some move of the first one does. -/
structure Carries (ms ms' : List Move) : Prop where
  exists_new : ∀ n ∈ ms, ∃ m ∈ ms', ∀ e, n.Has e → m.Has e
  exists_old : ∀ m ∈ ms', ∃ n ∈ ms, ∀ e, n.Has e → m.Has e

theorem Carries.refl (ms : List Move) : Carries ms ms :=
  ⟨fun n hn => ⟨n, hn, fun _ => id⟩, fun m hm => ⟨m, hm, fun _ => id⟩⟩

theorem Carries.trans (h : Carries ms ms') (h' : Carries ms' ms'') : Carries ms ms'' where
  exists_new n hn := by
    obtain ⟨m, hm, hnm⟩ := h.exists_new n hn
    obtain ⟨l, hl, hml⟩ := h'.exists_new m hm
    exact ⟨l, hl, fun e he => hml e (hnm e he)⟩
  exists_old l hl := by
    obtain ⟨m, hm, hml⟩ := h'.exists_old l hl
    obtain ⟨n, hn, hnm⟩ := h.exists_old m hm
    exact ⟨n, hn, fun e he => hml e (hnm e he)⟩

/-- The order of the moves does not matter. -/
theorem Carries.perm {ns ns' : List Move} (h : Carries ms ms') (hms : ns.Perm ms)
    (hms' : ns'.Perm ms') : Carries ns ns' where
  exists_new n hn := by
    obtain ⟨m, hm, hnm⟩ := h.exists_new n (hms.mem_iff.1 hn)
    exact ⟨m, hms'.mem_iff.2 hm, hnm⟩
  exists_old m hm := by
    obtain ⟨n, hn, hnm⟩ := h.exists_old m (hms'.mem_iff.1 hm)
    exact ⟨n, hms.mem_iff.2 hn, hnm⟩

/-- Further moves carry on themselves. -/
theorem Carries.append (h : Carries ms ms') (ls : List Move) : Carries (ms ++ ls) (ms' ++ ls) where
  exists_new n hn := by
    rcases List.mem_append.1 hn with hn | hn
    · obtain ⟨m, hm, hnm⟩ := h.exists_new n hn
      exact ⟨m, List.mem_append_left _ hm, hnm⟩
    · exact ⟨n, List.mem_append_right _ hn, fun _ => id⟩
  exists_old m hm := by
    rcases List.mem_append.1 hm with hm | hm
    · obtain ⟨n, hn, hnm⟩ := h.exists_old m hm
      exact ⟨n, List.mem_append_left _ hn, hnm⟩
    · exact ⟨m, List.mem_append_right _ hm, fun _ => id⟩

theorem Carries.cons {m n : Move} (h : Carries ms ms') (hn : n ∈ ms)
    (hnm : ∀ e, n.Has e → m.Has e) : Carries ms (m :: ms') where
  exists_new l hl := by
    obtain ⟨k, hk, hlk⟩ := h.exists_new l hl
    exact ⟨k, List.mem_cons_of_mem m hk, hlk⟩
  exists_old := List.forall_mem_cons.2 ⟨⟨n, hn, hnm⟩, h.exists_old⟩

theorem carries_pair {x y x' y' : Move} (hx : ∀ e, x.Has e → x'.Has e)
    (hy : ∀ e, y.Has e → y'.Has e) : Carries [x, y] [x', y'] where
  exists_new := List.forall_mem_cons.2 ⟨⟨x', by simp, hx⟩,
    List.forall_mem_singleton.2 ⟨y', by simp, hy⟩⟩
  exists_old := List.forall_mem_cons.2 ⟨⟨x, by simp, hx⟩,
    List.forall_mem_singleton.2 ⟨y, by simp, hy⟩⟩

/-- Moves that take the places of two others carry on what these did. -/
theorem Resolves.carries {x y : Move} {ns : List Move} (h : g.Resolves x y ns g') :
    Carries [x, y] ns := by
  have hfirst : ∀ {m n : Move} e, m.Has e → (m.absorb n).Has e := fun _ h =>
    Move.has_absorb.2 (.inl h)
  have hsecond : ∀ {m n : Move} e, n.Has e → (m.absorb n).Has e := fun _ h =>
    Move.has_absorb.2 (.inr h)
  have hkept : ∀ {m : Move} {on : Trigger} e, m.Has e → { m with on }.Has e := fun _ h =>
    Move.has_with_on.2 h
  cases h with
  | same =>
    constructor
    · exact List.forall_mem_cons.2 ⟨⟨_, List.mem_cons_self, hfirst⟩,
        List.forall_mem_singleton.2 ⟨_, List.mem_cons_self, hsecond⟩⟩
    · exact List.forall_mem_singleton.2 ⟨x, List.mem_cons_self, hfirst⟩
  | first => exact carries_pair hkept hfirst
  | second => exact carries_pair hfirst hkept
  | neither =>
    exact (carries_pair hkept hkept).cons List.mem_cons_self fun e h => hfirst e (hsecond e h)

theorem resolve_carries (g : Grammar) (o : Overlap) :
    Carries (o.replace o.first o.second) (g.resolve o).1 := by
  obtain ⟨ns, hns, hperm⟩ := g.exists_resolves o
  exact (hns.carries.append o.rest).perm replace_perm_append hperm

/-- When the moves of a state are made disjoint, what a move does is carried on. -/
theorem separate_carries (g : Grammar) (ms : List Move) : Carries ms (g.separate ms).1 :=
  separateWithin_induction (P := fun _ ms' => Carries ms ms')
    (fun g o _ h => h.trans (resolve_carries g o)) _ (.refl ms)

end Grammar

/-! ## Contexts of states -/

namespace Draft

variable {d d' d'' : Draft} {s t : StateId} {c : Nat}

/-- The state reads a character as context. -/
def Trails (d : Draft) (s : StateId) (c : Nat) : Prop :=
  d.grammar.Offers (d.machine.state s).moves c .context

/-- The state can go on with a context. -/
def GoesOn (d : Draft) (s : StateId) : Prop :=
  ∃ m ∈ (d.machine.state s).moves, m.part = .context

/-- What is read as context does not depend on where the moves lead. -/
theorem trails_congr (hgrammar : d'.grammar = d.grammar)
    (hmoves : (d'.machine.state s).moves.map (fun m => (m.on, m.part)) =
      (d.machine.state s).moves.map fun m => (m.on, m.part)) : d'.Trails s c ↔ d.Trails s c := by
  have hmap : ∀ {e : Draft}, e.Trails s c ↔ ∃ p ∈ (e.machine.state s).moves.map fun m => (m.on, m.part),
      e.grammar.triggers p.1 c = true ∧ p.2 = .context := by
    intro e
    simp only [List.mem_map, exists_exists_and_eq_and]
    exact Iff.rfl
  rw [hmap, hmap, hmoves, hgrammar]

theorem goesOn_congr (hmoves : (d'.machine.state s).moves.map (fun m => (m.on, m.part)) =
    (d.machine.state s).moves.map fun m => (m.on, m.part)) : d'.GoesOn s ↔ d.GoesOn s := by
  have hmap : ∀ {e : Draft}, e.GoesOn s ↔ ∃ p ∈ (e.machine.state s).moves.map fun m => (m.on, m.part),
      p.2 = .context := by
    intro e
    simp only [List.mem_map, exists_exists_and_eq_and]
    exact Iff.rfl
  rw [hmap, hmap, hmoves]

/-- Every move leads to some state. -/
def Aimed (d : Draft) : Prop :=
  ∀ s, ∀ m ∈ (d.machine.state s).moves, ∃ t, t ∈ m.targets

/-- Another draft over the same states that reads the same as context. -/
structure SameContexts (d d' : Draft) : Prop where
  trails_iff : ∀ s c, d'.Trails s c ↔ d.Trails s c
  goesOn_iff : ∀ s, d'.GoesOn s ↔ d.GoesOn s
  context_eq : ∀ s, (d'.machine.state s).context = (d.machine.state s).context
  aimed : d.Aimed → d'.Aimed

theorem SameContexts.refl (d : Draft) : d.SameContexts d :=
  ⟨fun _ _ => Iff.rfl, fun _ => Iff.rfl, fun _ => rfl, id⟩

theorem SameContexts.trans (h : d.SameContexts d') (h' : d'.SameContexts d'') :
    d.SameContexts d'' where
  trails_iff s c := (h'.trails_iff s c).trans (h.trails_iff s c)
  goesOn_iff s := (h'.goesOn_iff s).trans (h.goesOn_iff s)
  context_eq s := (h'.context_eq s).trans (h.context_eq s)
  aimed hd := h'.aimed (h.aimed hd)

theorem sameContexts_separate (h : d.WellFormed) (hs : s < d.machine.states.size) :
    d.SameContexts (d.separate s) := by
  have hcarries := Grammar.separate_carries d.grammar (d.machine.state s).moves
  have hrefines := (Grammar.separate_spec h.canonical (h.knows s)).1
  refine ⟨fun t c => offers_separate h hs, fun t => ?_, fun t => ?_, fun haimed t => ?_⟩
  · by_cases ht : t = s
    · subst ht
      rw [GoesOn, moves_separate hs]
      constructor
      · rintro ⟨m, hm, hpart⟩
        exact hrefines.of_has m hm .context hpart
      · rintro ⟨n, hn, hpart⟩
        obtain ⟨m, hm, hnm⟩ := hcarries.exists_new n hn
        exact ⟨m, hm, hnm .context hpart⟩
    · rw [GoesOn, state_separate_of_ne ht]
      exact Iff.rfl
  · simp only [separate, Machine.state_modifyState]
    split <;> rfl
  · by_cases ht : t = s
    · subst ht
      rw [moves_separate hs]
      intro m hm
      obtain ⟨n, hn, hnm⟩ := hcarries.exists_old m hm
      obtain ⟨u, hu⟩ := haimed t n hn
      exact ⟨u, hnm (.target u) hu⟩
    · rw [state_separate_of_ne ht]
      exact haimed t

theorem sameContexts_separateAll (h : d.WellFormed) : d.SameContexts d.separateAll :=
  separateAll_keeps (P := fun d' => d.SameContexts d')
    (fun hd hs hsame => hsame.trans (sameContexts_separate hd hs)) h (.refl d)

/-! ## Marking -/

theorem moves_markContextStates (s : StateId) :
    (d.markContextStates.machine.state s).moves = (d.machine.state s).moves := by
  obtain ⟨context, hs⟩ := d.markContextStates_eq.2.2 s
  rw [hs]

theorem trails_markContextStates : d.markContextStates.Trails s c ↔ d.Trails s c := by
  rw [Trails, moves_markContextStates]
  exact Iff.rfl

theorem goesOn_markContextStates : d.markContextStates.GoesOn s ↔ d.GoesOn s := by
  rw [GoesOn, moves_markContextStates, GoesOn]

/-- A set of states with those that the context moves of a state lead to. -/
def entered (set : BitSet) (st : MachineState) : BitSet :=
  st.moves.foldl (fun set move => if move.part = .context then set.union move.targets else set) set

theorem mem_entered {set : BitSet} {st : MachineState} :
    t ∈ entered set st ↔ t ∈ set ∨ ∃ m ∈ st.moves, m.part = .context ∧ t ∈ m.targets := by
  unfold entered
  induction st.moves generalizing set with
  | nil => simp
  | cons m ms ih =>
    rw [List.foldl_cons, ih]
    simp only [List.mem_cons, exists_eq_or_imp]
    split
    next hpart => rw [BitSet.mem_union, or_assoc, and_iff_right hpart]
    next hpart => simp only [hpart, false_and, false_or]

theorem mem_foldl_entered {sts : List MachineState} {set : BitSet} :
    t ∈ sts.foldl entered set ↔
      t ∈ set ∨ ∃ st ∈ sts, ∃ m ∈ st.moves, m.part = .context ∧ t ∈ m.targets := by
  induction sts generalizing set with
  | nil => simp
  | cons st sts ih =>
    rw [List.foldl_cons, ih, mem_entered, or_assoc]
    simp only [List.mem_cons, exists_eq_or_imp]

theorem context_foldl_modifyState {ss : List StateId} {m : Machine} (ht : t < m.states.size) :
    ((ss.foldl (fun m s => m.modifyState s fun st => { st with context := true }) m).state
      t).context = true ↔ t ∈ ss ∨ (m.state t).context = true := by
  induction ss generalizing m with
  | nil => simp
  | cons s ss ih =>
    rw [List.foldl_cons, ih (Nat.lt_of_lt_of_eq ht Machine.size_modifyState.symm),
      Machine.state_modifyState, List.mem_cons]
    by_cases hts : t = s
    · subst hts
      simp [ht]
    · simp [hts]

/-- Some context move leads to the state. -/
def Entered (d : Draft) (t : StateId) : Prop :=
  ∃ s, ∃ m ∈ (d.machine.state s).moves, m.part = .context ∧ t ∈ m.targets

/-- Marking marks the states that context moves lead to, and no others. -/
theorem context_markContextStates (h : d.WellFormed) :
    (d.markContextStates.machine.state t).context = true ↔
      d.Entered t ∨ (d.machine.state t).context = true := by
  by_cases ht : t < d.machine.states.size
  · have hmem : t ∈ (d.machine.states.foldl entered ∅).toList ↔ d.Entered t := by
      rw [BitSet.mem_toList, ← Array.foldl_toList, mem_foldl_entered,
        or_iff_right (BitSet.not_mem_empty t)]
      constructor
      · rintro ⟨st, hst, hmove⟩
        obtain ⟨s, hs, rfl⟩ := List.getElem_of_mem hst
        rw [Array.length_toList] at hs
        refine ⟨s, ?_⟩
        simpa [Machine.state, hs] using hmove
      · rintro ⟨s, m, hm, hmove⟩
        refine ⟨d.machine.state s, ?_, m, hm, hmove⟩
        by_cases hs : s < d.machine.states.size
        · simp [Machine.state, hs]
        · have hnone : d.machine.state s = default := by simp [Machine.state, hs]
          rw [hnone] at hm
          cases hm
    exact (context_foldl_modifyState ht).trans (or_congr_left hmem)
  · -- beyond the last state there is none, and no move leads there
    have hsize : ¬ t < d.markContextStates.machine.states.size := by
      rwa [d.markContextStates_eq.1]
    have hnone : ¬ d.Entered t := by
      rintro ⟨s, m, hm, _, htarget⟩
      exact ht (h.target_lt s m hm t htarget)
    have hdefault : d.markContextStates.machine.state t = d.machine.state t := by
      simp [Machine.state, ht, hsize]
    rw [hdefault, or_iff_right hnone]

end Draft

/-! ## Merging -/

namespace Merging

variable {m : Merging} {d d' : Draft} {s t : StateId} {set : BitSet} {targets : List StateId}
  {tok : Option SymbolId} {i : Nat}

/-- A state of a merging reads as context what the states of `d` do for which it stands, and can go on
with a context if one of them can.  It is marked if one of them is. -/
structure Marks (m : Merging) (d : Draft) : Prop where
  trails_iff : ∀ s < m.draft.machine.states.size, ∀ c,
    m.draft.Trails s c ↔ ∃ y ∈ m.behind s, d.Trails y c
  goesOn_iff : ∀ s < m.draft.machine.states.size,
    m.draft.GoesOn s ↔ ∃ y ∈ m.behind s, d.GoesOn y
  context_iff : ∀ s < m.draft.machine.states.size,
    (m.state s).context = true ↔ ∃ y ∈ m.behind s, (d.machine.state y).context = true
  aimed : m.draft.Aimed

/-- Where every state stands for itself, it only has to read the same. -/
theorem marks_initial {d' : Draft} (h : d.SameContexts d') (haimed : d.Aimed)
    (hsize : d'.machine.states.size = d.machine.states.size) :
    Marks { draft := d', declared := d.machine.states.size } d := by
  have hbehind : ∀ s < d'.machine.states.size, ∀ x,
      x ∈ behind { draft := d', declared := d.machine.states.size } s ↔ x = s := by
    intro s hs x
    rw [behind_of_lt (Nat.lt_of_lt_of_eq hs hsize), BitSet.mem_singleton]
  refine ⟨fun s hs c => ?_, fun s hs => ?_, fun s hs => ?_, h.aimed haimed⟩
  · simp only [hbehind s hs, exists_eq_left]
    exact h.trails_iff s c
  · simp only [hbehind s hs, exists_eq_left]
    exact h.goesOn_iff s
  · simp only [hbehind s hs, exists_eq_left]
    exact iff_of_eq (congrArg (· = true) (h.context_eq s))

/-! ### The added state -/

theorem goesOn_withMerged : (m.withMerged targets tok).GoesOn s ↔
    if s = m.draft.machine.states.size then ∃ t ∈ targets, m.draft.GoesOn t else m.draft.GoesOn s := by
  rw [Draft.GoesOn, withMerged, Machine.state_addState]
  split
  · simp only [Grammar.mem_foldl_addMove, List.not_mem_nil, or_false, List.mem_flatMap]
    constructor
    · rintro ⟨n, ⟨t, ht, hn⟩, hpart⟩
      exact ⟨t, ht, n, hn, hpart⟩
    · rintro ⟨t, ht, n, hn, hpart⟩
      exact ⟨n, ⟨t, ht, hn⟩, hpart⟩
  · exact Iff.rfl

theorem context_withMerged : ((m.withMerged targets tok).machine.state s).context =
    if s = m.draft.machine.states.size then targets.any fun t => (m.state t).context
    else (m.state s).context := by
  rw [withMerged, Machine.state_addState]
  split <;> rfl

theorem aimed_withMerged (h : m.draft.Aimed) : (m.withMerged targets tok).Aimed := by
  intro s n hn
  rw [withMerged, Machine.state_addState] at hn
  split at hn
  · -- the moves of the added state are those of the targets
    rw [Grammar.mem_foldl_addMove, List.mem_flatMap] at hn
    obtain ⟨t, _, hn⟩ := hn.resolve_right List.not_mem_nil
    exact h t n hn
  · exact h s n hn

/-- What holds of states if it holds of some state behind them, holds of some of them if it holds of
some state behind all of them. -/
theorem exists_behind_iff {P Q : StateId → Prop}
    (hset : ∀ x, x ∈ set ↔ ∃ t ∈ targets, x ∈ m.behind t)
    (h : ∀ t ∈ targets, (P t ↔ ∃ y ∈ m.behind t, Q y)) :
    (∃ t ∈ targets, P t) ↔ ∃ y ∈ set, Q y := by
  simp only [hset]
  constructor
  · rintro ⟨t, ht, hP⟩
    obtain ⟨y, hy, hQ⟩ := (h t ht).1 hP
    exact ⟨y, ⟨t, ht, hy⟩, hQ⟩
  · rintro ⟨y, ⟨t, ht, hy⟩, hQ⟩
    exact ⟨t, ht, (h t ht).2 ⟨y, hy, hQ⟩⟩

namespace Marks

theorem addMerged (h : m.Marks d) (hwf : m.draft.WellFormed)
    (hsize : m.draft.machine.states.size = m.declared + m.merged.size)
    (htargets : ∀ t ∈ targets, t < m.draft.machine.states.size)
    (hset : ∀ x, x ∈ set ↔ ∃ t ∈ targets, x ∈ m.behind t) :
    (m.addMerged set targets tok).2.Marks d := by
  obtain ⟨hold, hlast⟩ := m.behind_addMerged set targets tok hsize
  have hsame : (m.withMerged targets tok).SameContexts (m.addMerged set targets tok).2.draft := by
    rw [draft_addMerged]
    exact Draft.sameContexts_separate (m.wellFormed_withMerged targets tok hwf)
      (Nat.lt_of_lt_of_eq (Nat.lt_succ_self _) Machine.size_addState.symm)
  have hlt : ∀ u < (m.addMerged set targets tok).2.draft.machine.states.size,
      u ≠ m.draft.machine.states.size → u < m.draft.machine.states.size := by
    intro u hu hne
    rw [(m.adds_addMerged set targets tok hwf).size_eq] at hu
    omega
  generalize (m.addMerged set targets tok).2 = m' at *
  -- the added state does what the targets do, the others do what they did before
  refine ⟨fun u hu c => ?_, fun u hu => ?_, fun u hu => ?_, hsame.aimed (aimed_withMerged h.aimed)⟩
  · refine ((hsame.trails_iff u c).trans offers_withMerged).trans ?_
    split
    next heq =>
      rw [heq, hlast]
      exact exists_behind_iff hset fun t ht => h.trails_iff t (htargets t ht) c
    next hne =>
      have hu := hlt u hu hne
      rw [hold u hu]
      exact h.trails_iff u hu c
  · refine ((hsame.goesOn_iff u).trans goesOn_withMerged).trans ?_
    split
    next heq =>
      rw [heq, hlast]
      exact exists_behind_iff hset fun t ht => h.goesOn_iff t (htargets t ht)
    next hne =>
      have hu := hlt u hu hne
      rw [hold u hu]
      exact h.goesOn_iff u hu
  · rw [Merging.state, hsame.context_eq, context_withMerged]
    split
    next heq =>
      rw [heq, hlast, List.any_eq_true]
      exact exists_behind_iff hset fun t ht => h.context_iff t (htargets t ht)
    next hne =>
      have hu := hlt u hu hne
      rw [hold u hu]
      exact h.context_iff u hu

theorem report (h : m.Marks d) (diags : List Diagnostic) :
    Marks { m with draft.grammar := m.draft.grammar.reportAll diags } d :=
  ⟨h.trails_iff, h.goesOn_iff, h.context_iff, h.aimed⟩

theorem intern (h : m.Marks d) (hrep : m.Represents d')
    (htargets : ∀ t ∈ targets, t < m.draft.machine.states.size)
    (hset : ∀ x, x ∈ set ↔ ∃ t ∈ targets, x ∈ m.behind t) :
    (m.intern set targets tok).2.Marks d := by
  unfold Merging.intern
  cases m.merged? set with
  | some t => exact h
  | none => exact h.addMerged hrep.wellFormed hrep.size_eq htargets hset

/-- Redirecting a move changes its target only. -/
theorem retarget (h : m.Marks d) : (m.retarget s i t).Marks d := by
  have hmoves : ∀ u, ((m.retarget s i t).draft.machine.state u).moves.map
      (fun move => (move.on, move.part)) =
      (m.draft.machine.state u).moves.map fun move => (move.on, move.part) := by
    intro u
    unfold Merging.retarget
    dsimp only
    rw [Machine.state_modifyState]
    split
    · refine List.ext_getElem (by simp) fun j hj hj' => ?_
      simp only [List.getElem_map, List.getElem_modify]
      split <;> rfl
    · rfl
  refine ⟨fun u hu c => ?_, fun u hu => ?_, fun u hu => ?_, fun u n hn => ?_⟩
  · rw [size_retarget] at hu
    have htrails : (m.retarget s i t).draft.Trails u c ↔ m.draft.Trails u c :=
      Draft.trails_congr rfl (hmoves u)
    exact htrails.trans (h.trails_iff u hu c)
  · rw [size_retarget] at hu
    have hgoesOn : (m.retarget s i t).draft.GoesOn u ↔ m.draft.GoesOn u :=
      Draft.goesOn_congr (hmoves u)
    exact hgoesOn.trans (h.goesOn_iff u hu)
  · rw [size_retarget] at hu
    have hcontext := h.context_iff u hu
    change ((m.draft.machine.modifyState s _).state u).context = true ↔ _
    rw [Machine.state_modifyState]
    split <;> exact hcontext
  · change n ∈ ((m.draft.machine.modifyState s _).state u).moves at hn
    rw [Machine.state_modifyState] at hn
    split at hn
    · obtain ⟨j, hj, rfl⟩ := List.getElem_of_mem hn
      rw [List.getElem_modify]
      split
      · exact ⟨t, BitSet.mem_singleton.2 rfl⟩
      · exact h.aimed u _ (List.getElem_mem _)
    · exact h.aimed u n hn

/-- Redirecting a move keeps what is read as context. -/
theorem redirect (h : m.Marks d) (hrep : m.Represents d') (i : Nat) : (m.redirect s i).Marks d := by
  rcases m.redirect_cases s i with ⟨_, heq⟩ | ⟨move, hmove, _, heq⟩
  · rwa [heq]
  · rw [heq]
    refine ((h.report _).intern (hrep.report _ fun _ => severity_commonToken) (fun t ht => ?_)
      fun x => ?_).retarget
    · exact hrep.wellFormed.target_lt s move (List.mem_of_getElem? hmove) t (BitSet.mem_toList.1 ht)
    · rw [BitSet.mem_foldl_union, or_iff_right (BitSet.not_mem_empty x)]
      rfl

end Marks

end Merging

namespace Draft

variable {d : Draft}

/-- In the merged machine, a state reads as context what the declared states behind it do. -/
theorem marks_merging (h : d.WellFormed) (haimed : d.Aimed) :
    d.merging.Marks d.markContextStates := by
  have hmark := markContextStates_spec h
  have haimed' : d.markContextStates.Aimed := by
    intro s m hm
    rw [moves_markContextStates] at hm
    exact haimed s m hm
  refine (represents_separateAll h).redirectFrom_keeps
    (P := fun m => m.Marks d.markContextStates) (fun hrep _ hm i => hm.redirect hrep i) _ 0 ?_
  have hinitial := Merging.marks_initial (sameContexts_separateAll hmark.wellFormed) haimed'
    (separateAll_spec hmark.wellFormed).1.size_eq
  rwa [hmark.size_eq] at hinitial

end Draft

end Ebnf
