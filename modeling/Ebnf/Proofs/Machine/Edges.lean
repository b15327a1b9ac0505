import Mathlib.Data.List.Induction
import Ebnf.Proofs.Machine.Build

/-!
# What the demands of a token do to a machine

The demands of a token structure are met one after the other.  Each adds one move
to a state that there is; a demand without a target adds a final state, too.

Main result:

- Theorem `Draft.met_foldl`: the moves of the machine afterwards are those of
  before and the demanded ones.
-/

namespace Ebnf

/-- A demand begins in one of the first `n` states. -/
def Demand.Below (n : Nat) : Demand → Prop
  | .edge source _ _ _ => source < n
  | .fault _ => True

namespace Draft

variable {d d' : Draft} {tok : SymbolId} {s t source target : StateId} {c : Nat} {on : Trigger}
  {part : Part}

theorem triggers_connect :
    (d.connect tok source on part target).grammar.triggers = d.grammar.triggers := by
  unfold Draft.connect
  dsimp only
  split <;> rfl

theorem state_connect : (d.connect tok source on part target).machine.state s =
    if s = source ∧ source < d.machine.states.size then
      { d.machine.state s with moves := addMove (d.machine.state s).moves ⟨on, part, .singleton target⟩ }
    else d.machine.state s :=
  Machine.state_modifyState

theorem size_connect :
    (d.connect tok source on part target).machine.states.size = d.machine.states.size :=
  Machine.size_modifyState

theorem endOf_connect :
    ((d.connect tok source on part target).machine.state s).endOf = (d.machine.state s).endOf := by
  rw [state_connect]
  split <;> rfl

theorem steps_connect (hsource : source < d.machine.states.size) :
    (d.connect tok source on part target).Steps s c t ↔
      d.Steps s c t ∨ s = source ∧ d.grammar.triggers on c = true ∧ t = target := by
  unfold Steps Grammar.Offers
  rw [state_connect, triggers_connect]
  by_cases hs : s = source
  · rw [if_pos ⟨hs, hsource⟩]
    simp only [Grammar.mem_addMove, or_and_right, exists_or, exists_eq_left]
    rw [or_comm]
    refine or_congr_right ?_
    simp [hs, Move.Has, BitSet.mem_singleton]
  · rw [if_neg fun h => hs h.1]
    simp [hs]

theorem steps_addFinal : (d.addFinal tok).2.Steps s c t ↔ d.Steps s c t := by
  unfold Steps addFinal
  dsimp only
  rw [Machine.state_addState]
  split
  next heq =>
    have hempty : (d.machine.state s).moves = [] := by
      simp [Machine.state, heq]
      rfl
    rw [hempty]
  next => rfl

theorem endOf_addFinal : ((d.addFinal tok).2.machine.state s).endOf =
    if s = d.machine.states.size then some tok else (d.machine.state s).endOf := by
  unfold addFinal
  dsimp only
  rw [Machine.state_addState]
  split <;> rfl

/-! ## All demands -/

/-- `d'` is `d` with the moves that are demanded.  The further states are final and without moves. -/
structure Met (d : Draft) (tok : SymbolId) (demands : List Demand) (d' : Draft) : Prop where
  triggers_eq : d'.grammar.triggers = d.grammar.triggers
  size_le : d.machine.states.size ≤ d'.machine.states.size
  endOf_eq : ∀ s < d.machine.states.size, (d'.machine.state s).endOf = (d.machine.state s).endOf
  final : ∀ s, d.machine.states.size ≤ s → s < d'.machine.states.size →
    (d'.machine.state s).endOf = some tok
  stuck : ∀ s c t, d.machine.states.size ≤ s → ¬ d'.Steps s c t
  step : ∀ s c t, d'.Steps s c t → d.Steps s c t ∨ ∃ on part target,
    .edge s on part target ∈ demands ∧ d.grammar.triggers on c = true ∧
      (target = some t ∨ target = none ∧ d.machine.states.size ≤ t ∧ t < d'.machine.states.size)
  steps_of_some : ∀ s on part t c, .edge s on part (some t) ∈ demands →
    d.grammar.triggers on c = true → d'.Steps s c t
  steps_of_none : ∀ s on part c, .edge s on part none ∈ demands → d.grammar.triggers on c = true →
    ∃ t, d.machine.states.size ≤ t ∧ t < d'.machine.states.size ∧ d'.Steps s c t

namespace Met

variable {demands : List Demand}

theorem nil (d : Draft) (tok : SymbolId) : d.Met tok [] d where
  triggers_eq := rfl
  size_le := Nat.le_refl _
  endOf_eq _ _ := rfl
  final s hle hlt := absurd hlt (Nat.not_lt.2 hle)
  stuck s c t hle := by
    rintro ⟨m, hm, _⟩
    have hstate : d.machine.state s = default := by
      simp [Machine.state, Nat.not_lt.2 hle]
    rw [hstate] at hm
    cases hm
  step _ _ _ h := .inl h
  steps_of_some := by simp
  steps_of_none := by simp

theorem addFinal (h : d.Met tok demands d') : d.Met tok demands (d'.addFinal tok).2 := by
  have hsize : (d'.addFinal tok).2.machine.states.size = d'.machine.states.size + 1 :=
    Machine.size_addState
  have hlt : d'.machine.states.size < (d'.addFinal tok).2.machine.states.size :=
    Nat.lt_of_lt_of_eq (Nat.lt_succ_self _) hsize.symm
  refine ⟨h.triggers_eq, Nat.le_trans h.size_le (Nat.le_of_lt hlt), fun s hs => ?_,
    fun s hle hs => ?_, fun s c t hle => ?_, fun s c t hstep => ?_, fun s on part t c hmem hc => ?_,
    fun s on part c hmem hc => ?_⟩
  · rw [endOf_addFinal, if_neg (Nat.ne_of_lt (Nat.lt_of_lt_of_le hs h.size_le))]
    exact h.endOf_eq s hs
  · rw [endOf_addFinal]
    split
    next => rfl
    next hne =>
      rw [hsize] at hs
      exact h.final s hle (Nat.lt_of_le_of_ne (Nat.le_of_lt_succ hs) hne)
  · rw [steps_addFinal]
    exact h.stuck s c t hle
  · refine (h.step s c t (steps_addFinal.1 hstep)).imp_right ?_
    rintro ⟨on, part, target, hmem, hc, htarget⟩
    refine ⟨on, part, target, hmem, hc, htarget.imp_right ?_⟩
    exact fun hnone => ⟨hnone.1, hnone.2.1, Nat.lt_trans hnone.2.2 hlt⟩
  · exact steps_addFinal.2 (h.steps_of_some s on part t c hmem hc)
  · obtain ⟨t, hle, hs, hstep⟩ := h.steps_of_none s on part c hmem hc
    exact ⟨t, hle, Nat.lt_trans hs hlt, steps_addFinal.2 hstep⟩

/-- One more move, to its target or to a state that was added for it. -/
theorem connect {goal : Option StateId} (h : d.Met tok demands d')
    (hsource : source < d.machine.states.size)
    (hgoal : goal = some target ∨
      goal = none ∧ d.machine.states.size ≤ target ∧ target < d'.machine.states.size) :
    d.Met tok (demands ++ [.edge source on part goal]) (d'.connect tok source on part target) := by
  have hsource' : source < d'.machine.states.size := Nat.lt_of_lt_of_le hsource h.size_le
  have hsize : (d'.connect tok source on part target).machine.states.size =
    d'.machine.states.size := size_connect
  have hnew : ∀ {c : Nat}, d'.grammar.triggers on c = true →
      (d'.connect tok source on part target).Steps source c target := fun hc =>
    (steps_connect hsource').2 (.inr ⟨rfl, hc, rfl⟩)
  refine ⟨triggers_connect.trans h.triggers_eq, hsize ▸ h.size_le, fun s hs => ?_, fun s hle hs => ?_,
    fun s c t hle hstep => ?_, fun s c t hstep => ?_, fun s on' part' t c hmem hc => ?_,
    fun s on' part' c hmem hc => ?_⟩
  · rw [endOf_connect]
    exact h.endOf_eq s hs
  · rw [endOf_connect]
    exact h.final s hle (hsize ▸ hs)
  · rcases (steps_connect hsource').1 hstep with hstep | ⟨rfl, _⟩
    · exact h.stuck s c t hle hstep
    · exact Nat.not_lt.2 hle hsource
  · rw [hsize]
    rcases (steps_connect hsource').1 hstep with hstep | ⟨rfl, hc, rfl⟩
    · refine (h.step s c t hstep).imp_right ?_
      rintro ⟨on', part', target', hmem, hrest⟩
      exact ⟨on', part', target', List.mem_append_left _ hmem, hrest⟩
    · exact .inr ⟨on, part, goal, by simp, h.triggers_eq ▸ hc, hgoal⟩
  · rcases List.mem_append.1 hmem with hmem | hmem
    · exact (steps_connect hsource').2 (.inl (h.steps_of_some s on' part' t c hmem hc))
    · cases List.mem_singleton.1 hmem
      obtain rfl := Option.some.inj (hgoal.resolve_right fun hnone => nomatch hnone.1)
      exact hnew (h.triggers_eq ▸ hc)
  · rw [hsize]
    rcases List.mem_append.1 hmem with hmem | hmem
    · obtain ⟨t, hle, hlt, hstep⟩ := h.steps_of_none s on' part' c hmem hc
      exact ⟨t, hle, hlt, (steps_connect hsource').2 (.inl hstep)⟩
    · cases List.mem_singleton.1 hmem
      obtain ⟨_, hle, hlt⟩ := hgoal.resolve_left nofun
      exact ⟨target, hle, hlt, hnew (h.triggers_eq ▸ hc)⟩

theorem meet {demand : Demand} (h : d.Met tok demands d')
    (hbelow : demand.Below d.machine.states.size) :
    d.Met tok (demands ++ [demand]) (d'.meet tok demand) := by
  cases demand with
  | fault diag =>
    have hmem : ∀ {s : StateId} {on : Trigger} {part : Part} {target : Option StateId},
        .edge s on part target ∈ demands ++ [Demand.fault diag] →
        .edge s on part target ∈ demands := by
      intro s on part target hmem
      simpa using hmem
    refine ⟨h.triggers_eq, h.size_le, h.endOf_eq, h.final, h.stuck, fun s c t hstep => ?_,
      fun s on part t c hin => h.steps_of_some s on part t c (hmem hin),
      fun s on part c hin => h.steps_of_none s on part c (hmem hin)⟩
    refine (h.step s c t hstep).imp_right ?_
    rintro ⟨on, part, target, hin, hrest⟩
    exact ⟨on, part, target, List.mem_append_left _ hin, hrest⟩
  | edge source on part goal =>
    cases goal with
    | some target => exact h.connect hbelow (.inl rfl)
    | none =>
      refine h.addFinal.connect hbelow (.inr ⟨rfl, h.size_le, ?_⟩)
      exact Nat.lt_of_lt_of_eq (Nat.lt_succ_self _) Machine.size_addState.symm

end Met

theorem met_foldl {demands : List Demand}
    (hbelow : ∀ demand ∈ demands, demand.Below d.machine.states.size) :
    d.Met tok demands (demands.foldl (Draft.meet tok) d) := by
  induction demands using List.reverseRecOn with
  | nil => exact .nil d tok
  | append_singleton demands demand ih =>
    rw [List.foldl_append]
    exact (ih fun x hx => hbelow x (List.mem_append_left _ hx)).meet (hbelow demand (by simp))

end Draft

end Ebnf
