import Ebnf.Proofs.Machine.Declared
import Ebnf.Proofs.Scanner.Tracking

/-!
# Scanners without contexts

In a plain scanner no token ends in the start state, no shift reads a context, and
comments have delimiters.  The scanner of a machine is plain if the machine is: all
the steps that make a machine deterministic and small keep this.

Main results:

- Theorem `Draft.Plain.mergeStates`: merging states keeps a machine plain.
- Theorem `Draft.Plain.toScanner`: the scanner of a plain machine is plain.
-/

namespace Ebnf

/-! ## Moves that do not read a context -/

namespace Grammar

variable {g : Grammar} {ms : List Move}

/-- Replacing moves that share a character gives no context moves. -/
theorem part_separateWithin (fuel : Nat) (h : ∀ m ∈ ms, m.part = .main) :
    ∀ m ∈ (g.separateWithin fuel ms).1, m.part = .main := by
  intro m hm
  cases hpart : m.part with
  | main => rfl
  | context =>
    obtain ⟨n, hn, hcontext⟩ := exists_has_of_mem_separateWithin (e := .context) hm hpart
    rw [Move.Has, h n hn] at hcontext
    cases hcontext

end Grammar

/-! ## Merging states -/

namespace Draft

variable {d : Draft} {cs : List Comment} {s t : StateId}

/-- No move reads a context. -/
def NoContext (d : Draft) : Prop :=
  ∀ s, ∀ m ∈ (d.machine.state s).moves, m.part = .main

theorem noContext_of_forall (h : ∀ st ∈ d.machine.states.toList, ∀ m ∈ st.moves, m.part = .main) :
    d.NoContext := by
  intro s m hm
  by_cases hs : s < d.machine.states.size
  · refine h (d.machine.state s) ?_ m hm
    simp [Machine.state, hs]
  · simp [Machine.state, hs] at hm
    cases hm

/-- There is a start state, in which no token ends, no move reads a context, and the comments are
`cs`. -/
structure Plain (d : Draft) (cs : List Comment) : Prop where
  size_pos : 0 < d.machine.states.size
  endOf_start : (d.machine.state Machine.start).endOf = none
  noContext : d.NoContext
  comments_eq : d.machine.comments = cs

namespace Plain

theorem markContextStates (h : d.Plain cs) : d.markContextStates.Plain cs := by
  obtain ⟨hsize, hcomments, hstate⟩ := d.markContextStates_eq
  refine ⟨Nat.lt_of_lt_of_eq h.size_pos hsize.symm, ?_, fun s m hm => ?_, hcomments.trans h.comments_eq⟩
  · obtain ⟨context, hs⟩ := hstate Machine.start
    rw [hs]
    exact h.endOf_start
  · obtain ⟨context, hs⟩ := hstate s
    rw [hs] at hm
    exact h.noContext s m hm

theorem separate (h : d.Plain cs) (s : StateId) : (d.separate s).Plain cs := by
  have hstate : ∀ t, (d.separate s).machine.state t = if t = s ∧ s < d.machine.states.size then
      { d.machine.state t with moves := (d.grammar.separate (d.machine.state s).moves).1 }
      else d.machine.state t := fun t => Machine.state_modifyState
  refine ⟨?_, ?_, fun t m hm => ?_, h.comments_eq⟩
  · exact Nat.lt_of_lt_of_eq h.size_pos Machine.size_modifyState.symm
  · rw [hstate]
    split
    · exact h.endOf_start
    · exact h.endOf_start
  · rw [hstate] at hm
    split at hm
    · exact Grammar.part_separateWithin _ (h.noContext s) m hm
    · exact h.noContext t m hm

theorem withGrammar (h : d.Plain cs) (g : Grammar) : Plain { d with grammar := g } cs :=
  ⟨h.size_pos, h.endOf_start, h.noContext, h.comments_eq⟩

variable {m : Merging}

theorem withMerged (h : m.draft.Plain cs) (targets : List StateId) (tok : Option SymbolId) :
    (m.withMerged targets tok).Plain cs := by
  refine ⟨?_, ?_, fun s move hmove => ?_, h.comments_eq⟩
  · exact Nat.lt_of_lt_of_eq (Nat.succ_pos _) Machine.size_addState.symm
  · have hne : Machine.start ≠ m.draft.machine.states.size := Nat.ne_of_lt h.size_pos
    rw [Merging.withMerged, Machine.state_addState, if_neg hne]
    exact h.endOf_start
  · rw [Merging.withMerged, Machine.state_addState] at hmove
    split at hmove
    · -- the moves of the new state are those of the targets
      obtain ⟨t, _, hmove⟩ := List.mem_flatMap.1
        ((Grammar.mem_foldl_addMove.1 hmove).resolve_right List.not_mem_nil)
      exact h.noContext t move hmove
    · exact h.noContext s move hmove

theorem retarget (h : m.draft.Plain cs) (s : StateId) (i : Nat) (t : StateId) :
    (m.retarget s i t).draft.Plain cs := by
  have hstate : ∀ u, (m.retarget s i t).draft.machine.state u =
      if u = s ∧ s < m.draft.machine.states.size then
        { m.draft.machine.state u with moves := (m.draft.machine.state u).moves.modify i fun move =>
          { move with targets := .singleton t } }
      else m.draft.machine.state u := fun u => Machine.state_modifyState
  refine ⟨?_, ?_, fun u move hmove => ?_, h.comments_eq⟩
  · rw [Merging.size_retarget]
    exact h.size_pos
  · rw [hstate]
    split <;> exact h.endOf_start
  · rw [hstate] at hmove
    split at hmove
    · obtain ⟨j, hj, rfl⟩ := List.getElem_of_mem hmove
      have hj' : j < (m.draft.machine.state u).moves.length := by simpa using hj
      have hpart := h.noContext u _ (List.getElem_mem hj')
      rw [List.getElem_modify]
      split <;> exact hpart
    · exact h.noContext u move hmove

theorem kept (cs : List Comment) : Merging.Kept fun d => d.Plain cs where
  mark _ h := h.markContextStates
  separate _ s h := h.separate s
  report _ _ h := h.withGrammar _
  add _ targets tok h := h.withMerged targets tok
  retarget _ s i t h := h.retarget s i t

theorem mergeStates (h : d.Plain cs) : d.mergeStates.Plain cs :=
  (kept cs).mergeStates h

end Plain

end Draft

/-! ## From machines to scanners -/

/-- No token ends in the start state, no shift reads a context, and comments have delimiters. -/
structure Scanner.Plain (sc : Scanner) : Prop where
  endOf_start : (sc.state Scanner.start).endOf = none
  part_eq : ∀ st ∈ sc.states.toList, ∀ shift ∈ st.shifts, shift.part = .main
  delimited : ∀ k ∈ sc.comments, k.Delimited

namespace Scanner

variable {sc : Scanner} {s : StateId}

/-- No shift reads a context. -/
def NoContext (sc : Scanner) : Prop :=
  ∀ s, ∀ shift ∈ (sc.state s).shifts, shift.part = .main

theorem Plain.part_state (h : sc.Plain) {shift : Shift} (hshift : shift ∈ (sc.state s).shifts) :
    shift.part = .main := by
  by_cases hs : s < sc.states.size
  · exact h.part_eq _ (state_mem hs) shift hshift
  · rw [state_eq_default hs] at hshift
    cases hshift

theorem Plain.noContext (h : sc.Plain) : sc.NoContext := fun _ _ => h.part_state

theorem Plain.dropRedundant (h : sc.Plain) (hclosed : sc.Closed) : sc.dropRedundant.Plain := by
  refine ⟨?_, fun st hst shift hshift => ?_, h.delimited⟩
  · rw [← renumber_start hclosed, endOf_dropRedundant (start_mem_used hclosed)]
    exact h.endOf_start
  · rw [states_dropRedundant] at hst
    obtain ⟨s, _, rfl⟩ := List.mem_map.1 hst
    obtain ⟨old, hold, rfl⟩ := List.mem_map.1 hshift
    have hpart : old.part = .main := h.part_state hold
    exact hpart

/-! ## Joining shifts -/

variable {g : Grammar}

theorem part_joinShifts {s : Shift} {ss : List Shift} (h : ∀ shift ∈ s :: ss, shift.part = .main) :
    ∀ shift ∈ (joinShifts g s ss).1 :: (joinShifts g s ss).2.1, shift.part = .main := by
  induction ss generalizing s g with
  | nil => exact h
  | cons t ss ih =>
    simp only [List.forall_mem_cons] at h
    rw [joinShifts]
    split
    · exact ih (List.forall_mem_cons.2 ⟨h.1, h.2.2⟩)
    · have hrest := List.forall_mem_cons.1 (@ih g s (List.forall_mem_cons.2 ⟨h.1, h.2.2⟩))
      exact List.forall_mem_cons.2 ⟨hrest.1, List.forall_mem_cons.2 ⟨h.2.1, hrest.2⟩⟩

theorem part_mergeShiftsWithin (fuel : Nat) {ss : List Shift}
    (h : ∀ shift ∈ ss, shift.part = .main) :
    ∀ shift ∈ (mergeShiftsWithin g fuel ss).1, shift.part = .main := by
  induction fuel generalizing g ss with
  | zero => exact h
  | succ fuel ih =>
    cases ss with
    | nil => exact h
    | cons s ss =>
      obtain ⟨hs, hrest⟩ := List.forall_mem_cons.1 (part_joinShifts (g := g) h)
      exact List.forall_mem_cons.2 ⟨hs, ih hrest⟩

/-- Joining shifts changes neither what states recognise nor that no shift reads a context. -/
theorem mergeAllShifts_keeps {sts : List ScannerState} :
    (mergeAllShifts g sts).1.map ScannerState.endOf = sts.map ScannerState.endOf ∧
      ((∀ st ∈ sts, ∀ shift ∈ st.shifts, shift.part = .main) →
        ∀ st ∈ (mergeAllShifts g sts).1, ∀ shift ∈ st.shifts, shift.part = .main) := by
  induction sts generalizing g with
  | nil => exact ⟨rfl, id⟩
  | cons st sts ih =>
    obtain ⟨hend, hpart⟩ := @ih (mergeShifts g st.shifts).2
    refine ⟨congrArg (st.endOf :: ·) hend, fun h => ?_⟩
    obtain ⟨hst, hsts⟩ := List.forall_mem_cons.1 h
    exact List.forall_mem_cons.2 ⟨part_mergeShiftsWithin _ hst, hpart hsts⟩

theorem endOf_state : (sc.state s).endOf =
    ((sc.states.toList.map ScannerState.endOf)[s]?).getD none := by
  by_cases hs : s < sc.states.size
  · simp [state, hs]
  · rw [state_eq_default hs]
    simp [hs]
    rfl

theorem Plain.mergeAllShifts (h : sc.Plain) (g g' : Grammar) :
    ({ sc with states := (mergeAllShifts g sc.states.toList).1.toArray }.withTables g').Plain := by
  obtain ⟨hend, hpart⟩ := @mergeAllShifts_keeps g sc.states.toList
  refine ⟨?_, hpart h.part_eq, h.delimited⟩
  rw [endOf_state]
  change ((Scanner.mergeAllShifts g sc.states.toList).1.map ScannerState.endOf)[start]?.getD none = none
  rw [hend, ← endOf_state]
  exact h.endOf_start

end Scanner

namespace Draft

variable {d : Draft} {cs : List Comment}

theorem Plain.ofMachine (h : d.Plain cs) (hcs : ∀ k ∈ cs, k.Delimited) :
    (Scanner.ofMachine d.machine).Plain := by
  refine ⟨?_, fun st hst shift hshift => ?_, fun k hk => hcs k (h.comments_eq ▸ hk)⟩
  · have hpos : Scanner.start < d.machine.states.size := h.size_pos
    rw [Scanner.state_ofMachine hpos]
    exact h.endOf_start
  · obtain ⟨s, rfl⟩ := Scanner.exists_state_eq hst
    obtain ⟨move, hmove, _, hpart, _⟩ := exists_move_of_mem_shifts hshift
    exact hpart.symm.trans (h.noContext s move hmove)

/-- The scanner of a plain machine is plain. -/
theorem Plain.toScanner (h : d.Plain cs) (hd : d.WellFormed) (hcs : ∀ k ∈ cs, k.Delimited) :
    d.toScanner.1.Plain := by
  obtain ⟨behind, hdet⟩ := mergeStates_spec hd
  have hmachine := (h.mergeStates.ofMachine hcs).dropRedundant (closed_ofMachine hdet.wellFormed)
  exact hmachine.mergeAllShifts _ _

end Draft

end Ebnf
