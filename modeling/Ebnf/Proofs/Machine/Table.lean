import Ebnf.Proofs.Machine.Build
import Ebnf.Proofs.Machine.Merge
import Mathlib.Algebra.Group.Nat.Defs

/-!
# The table of merged states

Merging goes through all states, also through those that it adds on the way, and redirects their
moves one after the other.  Whenever it has finished with a move, the sets in its table are pairwise
different, hold at least two declared states each, and belong one-to-one to the states behind the
declared ones.  So there are never more states than sets of declared ones, and the loop comes to an
end behind the last of them.

Main results:

- Theorem `Merging.Represents.oneToOne`: the table of a merging is one-to-one.
- Theorem `Merging.Turn.Reaches.sound`: this is so whenever a move is finished with.
- Theorem `Merging.Represents.exists_reaches_redirectFrom`: the turns of the loop come to an end.
- Theorem `Draft.Built.merging_oneToOne`: all of this for machines that declarations build.
-/

namespace Ebnf

namespace Merging

variable {m : Merging} {d : Draft} {set : BitSet} {s t : StateId}

/-! ## The table -/

/-- The table maps pairwise different sets of at least two declared states, of which there are `n`,
one-to-one to the states that follow the declared ones. -/
structure OneToOne (m : Merging) (n : Nat) : Prop where
  declared_eq : m.declared = n
  size_eq : m.draft.machine.states.size = n + m.merged.size
  lt_declared : ∀ set ∈ m.merged, ∀ x ∈ set, x < n
  two_members : ∀ set ∈ m.merged, ∃ x ∈ set, ∃ y ∈ set, x ≠ y
  different : m.merged.toList.Nodup
  /-- a set is in the table exactly if some state stands for it, which is the one that is found -/
  merged?_iff : ∀ set t, m.merged? set = some t ↔
    (n ≤ t ∧ t < m.draft.machine.states.size) ∧ m.behind t = set
  /-- what a merged state stands for is in the table -/
  behind_mem : ∀ t, n ≤ t → t < m.draft.machine.states.size → m.behind t ∈ m.merged

/-- The sets in the table are what the merged states stand for. -/
theorem Represents.mem_merged_iff (h : m.Represents d) : set ∈ m.merged ↔
    ∃ t, (m.declared ≤ t ∧ t < m.draft.machine.states.size) ∧ m.behind t = set := by
  constructor
  · intro hset
    obtain ⟨i, hi, rfl⟩ := Array.mem_iff_getElem.1 hset
    refine ⟨m.declared + i, ⟨Nat.le_add_right _ _, ?_⟩, behind_merged hi⟩
    rw [h.size_eq]
    omega
  · rintro ⟨t, ⟨hle, hlt⟩, rfl⟩
    obtain ⟨i, rfl⟩ := Nat.exists_eq_add_of_le hle
    have hi : i < m.merged.size := by
      rw [h.size_eq] at hlt
      omega
    rw [behind_merged hi]
    exact Array.getElem_mem hi

/-- A merged state does not stand for a single declared state. -/
theorem Represents.behind_ne_singleton (h : m.Represents d) (hle : m.declared ≤ t)
    (hlt : t < m.draft.machine.states.size) (x : StateId) : m.behind t ≠ .singleton x := by
  intro heq
  have hx : x < m.declared := h.behind_lt t hlt x (heq ▸ BitSet.mem_singleton.2 rfl)
  have hx' : x < m.draft.machine.states.size := Nat.lt_of_lt_of_le hx (hle.trans (Nat.le_of_lt hlt))
  have hsame : m.behind x = m.behind t := by
    rw [behind_of_lt hx, heq]
  have hxt := h.behind_injective x hx' t hlt hsame
  rw [hxt] at hx
  exact Nat.not_lt.2 hle hx

/-- A set with members that is not a singleton has two. -/
theorem exists_ne_of_ne_singleton (hmem : ∃ x, x ∈ set) (hne : ∀ x, set ≠ .singleton x) :
    ∃ x ∈ set, ∃ y ∈ set, x ≠ y := by
  obtain ⟨x, hx⟩ := hmem
  by_contra hall
  push Not at hall
  apply hne x
  apply BitSet.ext_mem
  intro y
  rw [BitSet.mem_singleton]
  constructor
  · intro hy
    exact hall y hy x hx
  · rintro rfl
    exact hx

/-- A set that a merged state stands for is found. -/
theorem Represents.merged?_behind (h : m.Represents d) (hle : m.declared ≤ t)
    (hlt : t < m.draft.machine.states.size) : m.merged? (m.behind t) = some t := by
  cases hfind : m.merged? (m.behind t) with
  | none =>
    exact (behind_ne_of_merged? h.size_eq hfind (h.behind_ne_singleton hle hlt) hlt rfl).elim
  | some u =>
    obtain ⟨hu, hbehind⟩ := merged?_eq_some h.size_eq hfind
    rw [h.behind_injective u hu t hlt hbehind]

/-- The states that are found are merged ones. -/
theorem le_of_merged? (hfind : m.merged? set = some t) : m.declared ≤ t := by
  obtain ⟨i, _, rfl⟩ := Option.map_eq_some_iff.1 hfind
  exact Nat.le_add_right _ _

/-- The table of a merging is one-to-one. -/
theorem Represents.oneToOne (h : m.Represents d) : m.OneToOne d.machine.states.size := by
  rw [← h.declared_eq]
  constructor
  · rfl
  · exact h.size_eq
  · intro set hset x hx
    obtain ⟨t, ⟨_, hlt⟩, rfl⟩ := h.mem_merged_iff.1 hset
    exact h.behind_lt t hlt x hx
  · intro set hset
    obtain ⟨t, ⟨hle, hlt⟩, rfl⟩ := h.mem_merged_iff.1 hset
    exact exists_ne_of_ne_singleton (h.behind_nonempty t hlt) (h.behind_ne_singleton hle hlt)
  · rw [List.nodup_iff_injective_getElem]
    intro ⟨i, hi⟩ ⟨j, hj⟩ hij
    rw [Array.length_toList] at hi hj
    simp only [Array.getElem_toList] at hij
    rw [← behind_merged hi, ← behind_merged hj] at hij
    have hstate := h.behind_injective (m.declared + i) (by rw [h.size_eq]; omega) (m.declared + j)
      (by rw [h.size_eq]; omega) hij
    simp only [Fin.mk.injEq]
    omega
  · intro set t
    constructor
    · intro hfind
      obtain ⟨hlt, hbehind⟩ := merged?_eq_some h.size_eq hfind
      exact ⟨⟨le_of_merged? hfind, hlt⟩, hbehind⟩
    · rintro ⟨⟨hle, hlt⟩, rfl⟩
      exact h.merged?_behind hle hlt
  · intro t hle hlt
    exact h.mem_merged_iff.2 ⟨t, ⟨hle, hlt⟩, rfl⟩

/-! ## Turns -/

/-- Where the loop stands: the state whose turn it is, and the number of its moves that it has
finished with. -/
structure Turn where
  merging : Merging
  state : StateId := 0
  move : Nat := 0

namespace Turn

variable {turn turn' : Turn}

/-- One move further: a move is redirected, or the next state has its turn.  Behind the last state
the loop ends. -/
def next? (turn : Turn) : Option Turn :=
  if turn.state < turn.merging.draft.machine.states.size then
    if turn.move < (turn.merging.state turn.state).moves.length then
      some ⟨turn.merging.redirect turn.state turn.move, turn.state, turn.move + 1⟩
    else some ⟨turn.merging, turn.state + 1, 0⟩
  else none

/-- The loop gets from one place to another. -/
def Reaches : Turn → Turn → Prop :=
  Relation.ReflTransGen fun turn turn' => turn.next? = some turn'

/-- At a turn the states represent what they did at the beginning, and the turn is not beyond the
end. -/
structure Sound (turn : Turn) (d : Draft) : Prop where
  represents : turn.merging.Represents d
  le_size : turn.state ≤ turn.merging.draft.machine.states.size

theorem Sound.next? (h : turn.Sound d) (hnext : turn.next? = some turn') : turn'.Sound d := by
  unfold Turn.next? at hnext
  split at hnext
  next hlt =>
    split at hnext
    · obtain rfl := Option.some.inj hnext
      obtain ⟨hrep, hstep⟩ := h.represents.redirect hlt turn.move
      constructor
      · exact hrep
      · exact h.le_size.trans hstep.size_le
    · obtain rfl := Option.some.inj hnext
      constructor
      · exact h.represents
      · exact hlt
  next => cases hnext

theorem Reaches.sound (hreach : turn.Reaches turn') (h : turn.Sound d) : turn'.Sound d := by
  induction hreach with
  | refl => exact h
  | tail _ hnext ih => exact ih.next? hnext

end Turn

/-- Redirecting the first moves of a state takes as many turns. -/
theorem Represents.reaches_foldl_redirect (h : m.Represents d)
    (hs : s < m.draft.machine.states.size) {k : Nat} (hk : k ≤ (m.state s).moves.length) :
    (⟨m, s, 0⟩ : Turn).Reaches ⟨(List.range k).foldl (fun m i => m.redirect s i) m, s, k⟩ := by
  induction k with
  | zero => exact .refl
  | succ k ih =>
    obtain ⟨_, hsize, _, hlength, _⟩ := h.foldl_redirect hs k
    apply Relation.ReflTransGen.tail (ih (Nat.le_of_lt hk))
    rw [Turn.next?, if_pos (Nat.lt_of_lt_of_le hs hsize), if_pos (by rw [hlength]; exact hk),
      List.range_succ, List.foldl_append]
    rfl

/-- Redirecting all moves of a state takes the loop to the next state. -/
theorem Represents.reaches_redirectAll (h : m.Represents d) (hs : s < m.draft.machine.states.size) :
    (⟨m, s, 0⟩ : Turn).Reaches ⟨m.redirectAll s, s + 1, 0⟩ := by
  obtain ⟨_, hsize, _, hlength, _⟩ := h.foldl_redirect hs (m.state s).moves.length
  apply Relation.ReflTransGen.tail (h.reaches_foldl_redirect hs (Nat.le_refl _))
  rw [Turn.next?, if_pos (Nat.lt_of_lt_of_le hs hsize), hlength, if_neg (Nat.lt_irrefl _)]
  rfl

/-- The loop comes to an end with what redirecting all moves makes, as there are never more states
than sets of declared ones. -/
theorem Represents.exists_reaches_redirectFrom (fuel : Nat) (s : StateId) (h : m.Represents d)
    (hfuel : 1 <<< m.declared ≤ s + fuel) :
    ∃ last, (⟨m, s, 0⟩ : Turn).Reaches last ∧ last.next? = none ∧
      last.merging = Merging.redirectFrom fuel s m := by
  induction fuel generalizing s m with
  | zero =>
    have hend : ¬ s < m.draft.machine.states.size := Nat.not_lt.2 (h.size_le.trans hfuel)
    exact ⟨⟨m, s, 0⟩, .refl, if_neg hend, rfl⟩
  | succ fuel ih =>
    rw [Merging.redirectFrom]
    split
    next hs =>
      obtain ⟨hrep, _⟩ := h.redirectAll hs
      have hfuel' : 1 <<< (m.redirectAll s).declared ≤ s + 1 + fuel := by
        rw [hrep.declared_eq, ← h.declared_eq]
        omega
      obtain ⟨last, hreach, hend, hlast⟩ := ih (s + 1) hrep hfuel'
      exact ⟨last, (h.reaches_redirectAll hs).trans hreach, hend, hlast⟩
    next hend => exact ⟨⟨m, s, 0⟩, .refl, if_neg hend, rfl⟩

end Merging

/-! ## Machines that declarations build -/

namespace Draft

variable {d : Draft}

/-- Where the loop begins. -/
def firstTurn (d : Draft) : Merging.Turn :=
  { merging := { draft := d.markContextStates.separateAll, declared := d.machine.states.size } }

theorem sound_firstTurn (h : d.WellFormed) : d.firstTurn.Sound d := by
  constructor
  · exact represents_separateAll h
  · exact Nat.zero_le _

/-- Whatever tokens and literals are declared, with `n` states in the end: whenever the loop has
finished with a move, its table maps pairwise different sets of at least two of these states
one-to-one to the states from `n` on, and there are at most `2 ^ n` states; and the loop gets to its
end, where the merged machine is complete. -/
theorem Built.merging_oneToOne (h : d.Built) :
    let n := d.machine.states.size
    (∀ turn, d.firstTurn.Reaches turn → turn.merging.OneToOne n ∧
      turn.merging.draft.machine.states.size ≤ 2 ^ n ∧
      turn.state ≤ turn.merging.draft.machine.states.size) ∧
    ∃ last, d.firstTurn.Reaches last ∧ last.next? = none ∧ last.merging.draft = d.mergeStates := by
  intro n
  have hwf := h.sound.wellFormed
  constructor
  · intro turn hreach
    obtain ⟨hrep, hle⟩ := hreach.sound (sound_firstTurn hwf)
    have hsize := hrep.size_le
    rw [hrep.declared_eq, Nat.one_shiftLeft] at hsize
    exact ⟨hrep.oneToOne, hsize, hle⟩
  · obtain ⟨last, hreach, hend, hlast⟩ := (represents_separateAll hwf).exists_reaches_redirectFrom
      (1 <<< n) 0 (Nat.le_add_left _ _)
    refine ⟨last, hreach, hend, ?_⟩
    rw [hlast]
    rfl

/-- A token structure that stands for `a` or `x` and another character behind. -/
def forkedToken (g : Grammar) (c : Nat) : NodeId × Grammar :=
  let (a, g) := g.addLeaf { kind := .char 97 .main }
  let (x, g) := g.addLeaf { kind := .char 120 .main }
  let (arms, g) := g.firstArm a
  let (arms, g) := g.addArm arms x
  let (last, g) := g.addLeaf { kind := .char c .main }
  let (token, g) := g.sequence arms last
  (token.entry, g.close token)

/-- Two tokens that differ in their last character only. -/
def forked : Draft :=
  let (first, g) := forkedToken .initial 98
  let (second, g) := forkedToken g 99
  ((⟨.initial, g⟩ : Draft).addToken first 1).addToken second 2

/-- Two moves of the start state lead to the same two states behind the first character, and share
the one state that is merged. -/
theorem Built.merging_oneToOne_forked :
    forked.Built ∧ forked.machine.states.size = 5 ∧
      ∃ last, forked.firstTurn.Reaches last ∧ last.next? = none ∧ last.merging.OneToOne 5 ∧
        last.merging.draft.machine.states.size = 6 ∧
        (last.merging.draft.machine.state 0).moves =
          [⟨.char 97, .main, .singleton 5⟩, ⟨.char 120, .main, .singleton 5⟩] := by
  have hfit : (forkedToken (forkedToken .initial 98).2 99).2.Fit 1 :=
    Grammar.fit_of_isFresh (fun _ => CharSet.canonical_empty) (by decide +kernel)
  have hbuilt : forked.Built := ((Built.initial hfit).token _ 1).token _ 2
  have hsize : forked.machine.states.size = 5 := by decide +kernel
  obtain ⟨hall, last, hreach, hend, hlast⟩ := hbuilt.merging_oneToOne
  refine ⟨hbuilt, hsize, last, hreach, hend, hsize ▸ (hall last hreach).1, ?_, ?_⟩
  · rw [hlast]
    decide +kernel
  · rw [hlast]
    decide +kernel

end Draft

end Ebnf
