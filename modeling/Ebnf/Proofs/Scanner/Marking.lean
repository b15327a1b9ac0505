import Ebnf.Proofs.Scanner.Contexts

/-!
# What a scanner knows of contexts

A machine says with each of its moves whether the move reads the context of a token.  Making
the machine deterministic splits and merges moves, merges states, and drops and renumbers
them.  The finished scanner still knows what the machine does: a state is marked if a context
move leads to one of the machine states for which it stands, and a shift reads context if
one of these machine states does so on the same character.  No declaration marks a state, so
the marks come from context moves alone.

Main results:

- Theorem `Draft.Declared.unmarked`: declarations mark no state.
- Theorem `Draft.Declared.contexts_toScanner`: marks and context shifts of a scanner are those
  of the machine states that a text leads to.
-/

namespace Ebnf

namespace Draft

variable {d d' : Draft} {tok : SymbolId} {ends : StateId → Prop} {edge : StateId → StateId → Prop}
  {ok : Grammar → NodeId → Prop} {w : List Char} {q : StateId}

/-! ## Declarations -/

/-- No state is marked. -/
def Unmarked (d : Draft) : Prop :=
  ∀ s, (d.machine.state s).context = false

theorem Edit.unmarked (h : Edit tok ends edge d d') (hd : d.Unmarked) : d'.Unmarked := by
  intro s
  cases h with
  | grammar => exact hd s
  | state =>
    dsimp only
    rw [Machine.state_addState]
    split
    · rfl
    · exact hd s
  | final =>
    dsimp only
    rw [Machine.state_modifyState]
    split
    · exact hd s
    · exact hd s
  | move =>
    rw [state_connect]
    split
    · exact hd s
    · exact hd s

/-- Declarations mark no state. -/
theorem Declared.unmarked (h : d.Declared ok) : d.Unmarked := by
  induction h with
  | initial =>
    intro s
    cases s <;> rfl
  | token _ _ tok ih => exact (edits_addToken _ _ tok).keeps (fun _ => Edit.unmarked) ih
  | literal _ quoted tok ih => exact (edits_addLiteral _ quoted tok).keeps (fun _ => Edit.unmarked) ih
  | comment _ _ _ _ ih =>
    simp only [Unmarked, state_addComment]
    exact ih
  | revise _ _ _ ih => exact ih

/-! ## The scanner -/

/-- Where a text leads in the scanner, the state is marked if a context move leads to some machine
state that the text can lead to, and a shift on a character reads context if some of these machine
states does. -/
theorem Declared.contexts_toScanner (h : d.Declared ok)
    (hrun : d.toScanner.1.run Scanner.start w = some q) :
    ((d.toScanner.1.state q).context = true ↔
      ∃ y, d.Leads Machine.start (w.map Char.toNat) y ∧ d.Entered y) ∧
    ∀ shift ∈ (d.toScanner.1.state q).shifts, ∀ c, d.toScanner.1.triggers shift.on c = true →
      (shift.part = .context ↔
        ∃ y, d.Leads Machine.start (w.map Char.toNat) y ∧ d.Trails y c) := by
  obtain ⟨R, htracks, hheeds⟩ := exists_heeds_toScanner h.sound.wellFormed h.single.aimed
  -- the machine states for which the scanner is in its state
  have hR := (htracks.run (fun _ _ => triggers_toScanner) htracks.start w).2 q hrun
  have hset : ∀ x, x ∈ Scanner.afterText d (w.map Char.toNat) {Machine.start} ↔
      d.Leads Machine.start (w.map Char.toNat) x := by
    intro x
    simp [Scanner.afterText]
  constructor
  · rw [hheeds.context_iff hR]
    refine exists_congr fun y => and_congr (hset y) ?_
    rw [h.unmarked y]
    simp
  · intro shift hshift c hc
    rw [triggers_toScanner] at hc
    rw [hheeds.part_iff hR hshift hc]
    exact exists_congr fun y => and_congr_left fun _ => hset y

/-- Behind `ab` the state is marked, because `Y` has read `b` as context while `X` has not, and both
contexts can go on: `X` with `c`, and `Y` with `d`. -/
theorem Declared.contexts_toScanner_overlapping :
    overlapping.toScanner.1.run Scanner.start ['a', 'b'] = some 4 ∧
      (overlapping.toScanner.1.state 4).context = true ∧
      (overlapping.toScanner.1.state 4).shifts.map (fun shift => (shift.on, shift.part)) =
        [(.char 99, .context), (.char 100, .context)] ∧
      ((overlapping.toScanner.1.state 4).context = true ↔
        ∃ y, overlapping.Leads Machine.start [97, 98] y ∧ overlapping.Entered y) ∧
      ∀ shift ∈ (overlapping.toScanner.1.state 4).shifts, ∀ c,
        overlapping.toScanner.1.triggers shift.on c = true →
        (shift.part = .context ↔
          ∃ y, overlapping.Leads Machine.start [97, 98] y ∧ overlapping.Trails y c) := by
  have hrun : overlapping.toScanner.1.run Scanner.start ['a', 'b'] = some 4 := by decide +kernel
  exact ⟨hrun, by decide +kernel, by decide +kernel,
    tokenized_overlapping.declared.contexts_toScanner hrun⟩

end Draft

end Ebnf
