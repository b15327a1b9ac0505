import Ebnf.Proofs.Machine.Merge

/-!
# Splitting one state

The moves of one state are split in rounds: as long as two of them share a
character, the first two that do are replaced.  No run of rounds is longer than
the sum of the sizes of the character sets, so the rounds end.  What a character
leads to, and whether it is read by a context, is then told by one move only, and
is what all moves together told before.

Main results:

- Theorem `Grammar.Rounds.refines`: rounds keep what the moves do, and each makes the sum of the
  sizes of the character sets smaller.
- Theorem `Grammar.rounds_separate`: splitting goes through rounds until no two moves overlap.
- Theorem `Draft.separate_exact`: what splitting a state does to it, to the other states and to the
  classes.
-/

namespace Ebnf

namespace Grammar

variable {g g' : Grammar} {c : Nat} {n fuel : Nat} {ms ms' : List Move}

/-! ## Rounds -/

/-- Some rounds of splitting: each replaces the first two moves that share a character. -/
inductive Rounds : Nat → Grammar → List Move → Grammar → List Move → Prop
  | done (g : Grammar) (ms : List Move) : Rounds 0 g ms g ms
  | next {n : Nat} {g g' : Grammar} {ms ms' : List Move} {o : Overlap} :
    g.findOverlap ms = some o → Rounds n (g.resolve o).2 (g.resolve o).1 g' ms' →
      Rounds (n + 1) g ms g' ms'

/-- Rounds keep what the moves do, and each takes at least one from the sum of the sizes. -/
theorem Rounds.refines (h : Rounds n g ms g' ms') (hg : g.CanonicalClasses)
    (hms : ∀ m ∈ ms, g.Knows m.on) :
    g.Refines ms g' ms' ∧ n + g'.weight ms' ≤ g.weight ms := by
  induction h with
  | done g ms =>
    constructor
    · exact .refl hg hms
    · omega
  | next hfind _ ih =>
    obtain ⟨rfl, hover⟩ := findOverlap_eq_some hfind
    simp only [overlap_iff, triggers_iff] at hover
    obtain ⟨hstep, hless⟩ := resolve_spec hg hms hover
    obtain ⟨hrest, hsum⟩ := ih hstep.canonical hstep.knows
    constructor
    · exact hstep.trans hrest
    · omega

/-- Separated moves do not overlap. -/
theorem findOverlap_eq_none (h : g.Separated ms) : g.findOverlap ms = none := by
  cases hfind : g.findOverlap ms with
  | none => rfl
  | some o =>
    obtain ⟨heq, hover⟩ := findOverlap_eq_some hfind
    obtain ⟨c, hc⟩ := overlap_iff.1 hover
    have hbehind : o.second ∈ o.between ++ o.second :: o.after :=
      List.mem_append_right _ List.mem_cons_self
    rw [heq, Overlap.replace, List.append_assoc, List.cons_append] at h
    exact ((List.pairwise_cons.1 (List.pairwise_append.1 h).2.1).1 o.second hbehind c hc).elim

/-- What is replaced within bounds is replaced in rounds. -/
theorem exists_rounds_separateWithin (fuel : Nat) (g : Grammar) (ms : List Move) :
    ∃ n, Rounds n g ms (g.separateWithin fuel ms).2 (g.separateWithin fuel ms).1 := by
  induction fuel generalizing g ms with
  | zero => exact ⟨0, .done g ms⟩
  | succ fuel ih =>
    rw [separateWithin]
    cases hfind : g.findOverlap ms with
    | none => exact ⟨0, .done g ms⟩
    | some o =>
      obtain ⟨n, hrounds⟩ := ih (g.resolve o).2 (g.resolve o).1
      exact ⟨n + 1, .next hfind hrounds⟩

/-- Moves are split in rounds until no two of them overlap. -/
theorem rounds_separate (hg : g.CanonicalClasses) (hms : ∀ m ∈ ms, g.Knows m.on) :
    (∃ n, Rounds n g ms (g.separate ms).2 (g.separate ms).1) ∧
      (g.separate ms).2.findOverlap (g.separate ms).1 = none := by
  constructor
  · exact exists_rounds_separateWithin _ g ms
  · exact findOverlap_eq_none (separate_spec hg hms).2

/-! ## What a character does -/

/-- The targets of all moves that accept a character. -/
def targetsOn (g : Grammar) (ms : List Move) (c : Nat) : BitSet :=
  (ms.filter fun m => g.triggers m.on c).foldl (fun set m => set.union m.targets) ∅

/-- Whether some move that accepts a character belongs to a context. -/
def contextOn (g : Grammar) (ms : List Move) (c : Nat) : Bool :=
  ms.any fun m => g.triggers m.on c && m.part == .context

theorem mem_targetsOn {t : StateId} : t ∈ g.targetsOn ms c ↔ g.Offers ms c (.target t) := by
  rw [targetsOn, BitSet.mem_foldl_union]
  simp only [BitSet.not_mem_empty, false_or, List.mem_filter, and_assoc]
  rfl

theorem contextOn_iff : g.contextOn ms c = true ↔ g.Offers ms c .context := by
  simp only [contextOn, List.any_eq_true, Bool.and_eq_true, beq_iff_eq]
  rfl

/-- Moves that do the same on every character have the same targets on it. -/
theorem Refines.targetsOn_eq (h : g.Refines ms g' ms') (c : Nat) :
    g'.targetsOn ms' c = g.targetsOn ms c := by
  apply BitSet.ext_mem
  intro t
  rw [mem_targetsOn, mem_targetsOn, h.offers_iff]

theorem Refines.contextOn_eq (h : g.Refines ms g' ms') (c : Nat) :
    g'.contextOn ms' c = g.contextOn ms c := by
  rw [Bool.eq_iff_iff, contextOn_iff, contextOn_iff, h.offers_iff]

end Grammar

/-! ## One state of a draft -/

namespace Draft

variable {d : Draft} {s : StateId}

/-- Only the moves of the state change. -/
theorem state_separate_self (hs : s < d.machine.states.size) :
    (d.separate s).machine.state s =
      { d.machine.state s with moves := (d.grammar.separate (d.machine.state s).moves).1 } := by
  simp only [separate, Machine.state_modifyState, hs, and_self, if_true]

/-- Whatever classes there are and whatever the moves of a state: no run of rounds is longer than
the sum of the sizes of the character sets; splitting the state is a run after which no two moves
overlap, so that the character sets of any two moves are disjoint; on every character the targets
of all moves together and whether one of them belongs to a context are those of before; nothing else
of the state changes, nor any other state, nor the set of any class that was declared before. -/
theorem separate_exact (hg : d.grammar.CanonicalClasses) (hs : s < d.machine.states.size)
    (hms : ∀ m ∈ (d.machine.state s).moves, d.grammar.Knows m.on) :
    let g := d.grammar
    let ms := (d.machine.state s).moves
    let g' := (d.separate s).grammar
    let ms' := ((d.separate s).machine.state s).moves
    (∀ n g'' ms'', Grammar.Rounds n g ms g'' ms'' → n ≤ g.weight ms) ∧
    ((∃ n, Grammar.Rounds n g ms g' ms') ∧ g'.findOverlap ms' = none) ∧
    (ms'.Pairwise fun m n => ∀ c, ¬ (c ∈ g'.triggerSet m.on ∧ c ∈ g'.triggerSet n.on)) ∧
    (∀ c, g'.targetsOn ms' c = g.targetsOn ms c ∧ g'.contextOn ms' c = g.contextOn ms c) ∧
    (d.separate s).machine.state s = { d.machine.state s with moves := ms' } ∧
    (∀ t, t ≠ s → (d.separate s).machine.state t = d.machine.state t) ∧
    (d.separate s).machine.states.size = d.machine.states.size ∧
    (g.classes.size ≤ g'.classes.size ∧
      ∀ id < g.classes.size, (g'.charClass id).set = (g.charClass id).set) := by
  intro g ms g' ms'
  have hmoves : ms' = (g.separate ms).1 := moves_separate hs
  have hgrammar : g' = (g.separate ms).2 := rfl
  obtain ⟨hrefines, hsep⟩ := Grammar.separate_spec hg hms
  obtain ⟨hrounds, hnone⟩ := Grammar.rounds_separate hg hms
  rw [← hmoves, ← hgrammar] at hrefines hsep hrounds hnone
  refine ⟨?_, ⟨hrounds, hnone⟩, ?_, ?_, ?_, ?_, ?_, hrefines.grows.size_le, ?_⟩
  · intro n g'' ms'' hrun
    have hsum := (hrun.refines hg hms).2
    omega
  · apply hsep.imp
    intro m n hmn c
    rw [← Grammar.triggers_iff, ← Grammar.triggers_iff]
    exact hmn c
  · intro c
    exact ⟨hrefines.targetsOn_eq c, hrefines.contextOn_eq c⟩
  · rw [hmoves]
    exact state_separate_self hs
  · intro t hne
    exact state_separate_of_ne hne
  · exact Machine.size_modifyState
  · intro id hid
    rw [hrefines.grows.charClass_eq id hid]

/-- A state with moves on two classes that share some characters, one of them read by a context, and
on one of the shared characters. -/
def crowded : Draft where
  grammar := { (default : Grammar) with
    classes := #[⟨"letter", ⟨[⟨97, 122⟩]⟩⟩, ⟨"digit", ⟨[⟨48, 57⟩, ⟨97, 102⟩]⟩⟩] }
  machine :=
    { states := #[
        { moves := [⟨.cls 0, .main, .singleton 1⟩, ⟨.cls 1, .context, .singleton 2⟩,
            ⟨.char 98, .main, .singleton 3⟩] },
        { moves := [⟨.cls 0, .main, .singleton 1⟩, ⟨.char 122, .main, .singleton 3⟩] }, {}, {}] }

/-- The character that all three moves accept leads to all their targets still, the move on it
belongs to a context, and it shares no character with the others; the overlap in the next state is
left alone. -/
theorem separate_exact_crowded :
    let d := crowded.separate 0
    let ms := (d.machine.state 0).moves
    crowded.grammar.CanonicalClasses ∧ 0 < crowded.machine.states.size ∧
      (∀ m ∈ (crowded.machine.state 0).moves, crowded.grammar.Knows m.on) ∧
      ms.length = 4 ∧
      (ms.Pairwise fun m n =>
        ∀ c, ¬ (c ∈ d.grammar.triggerSet m.on ∧ c ∈ d.grammar.triggerSet n.on)) ∧
      d.grammar.targetsOn ms 98 = .ofList [1, 2, 3] ∧ d.grammar.contextOn ms 98 = true ∧
      d.grammar.targetsOn ms 122 = .singleton 1 ∧ d.grammar.contextOn ms 122 = false ∧
      d.machine.state 1 = crowded.machine.state 1 ∧
      d.grammar.classes.size = 6 ∧ (d.grammar.charClass 1).set = ⟨[⟨48, 57⟩, ⟨97, 102⟩]⟩ := by
  intro d ms
  have hcanonical : crowded.grammar.CanonicalClasses := by
    intro id
    match id with
    | 0 | 1 =>
      unfold CharSet.Canonical
      decide
    | n + 2 =>
      have hunknown : crowded.grammar.charClass (n + 2) = default := by
        simp [Grammar.charClass, crowded]
      rw [hunknown]
      exact CharSet.canonical_empty
  have hsize : 0 < crowded.machine.states.size := by decide
  have hknows : ∀ m ∈ (crowded.machine.state 0).moves, crowded.grammar.Knows m.on := by
    simp [crowded, Machine.state, Grammar.Knows]
  obtain ⟨_, _, hdisjoint, hsame, _, hothers, _, _, hclasses⟩ :=
    separate_exact hcanonical hsize hknows
  refine ⟨hcanonical, hsize, hknows, by decide +kernel, hdisjoint, ?_, ?_, ?_, ?_, ?_, ?_, ?_⟩
  · rw [(hsame 98).1]
    decide +kernel
  · rw [(hsame 98).2]
    decide +kernel
  · rw [(hsame 122).1]
    decide +kernel
  · rw [(hsame 122).2]
    decide +kernel
  · exact hothers 1 (by decide)
  · decide +kernel
  · exact hclasses 1 (by decide)

end Draft

end Ebnf
