import Ebnf.Machine
import Ebnf.Proofs.CharSet.Canonical

/-!
# What a machine recognises

A machine is nondeterministic: a character leads from a state to all targets of
all moves that accept it.  This module fixes the relation `Draft.Leads` between
states along a text, and how it depends on the table of character classes.

Main results:

- Theorem `Grammar.triggers_iff`: a trigger accepts the members of its set.
- Theorem `Grammar.Grows.offers_iff`: further classes do not change what the
  moves on known classes do.
- Theorem `Grammar.triggerFor_spec`: a trigger for a set stands for this set.
-/

namespace Ebnf

/-! ## Effects of moves -/

/-- What a move does on the characters that it accepts. -/
inductive Effect
  /-- it leads to a state -/
  | target (t : StateId)
  /-- it reads the context of a token -/
  | context
  deriving DecidableEq

/-- Whether a move has an effect. -/
def Move.Has (m : Move) : Effect → Prop
  | .target t => t ∈ m.targets
  | .context => m.part = .context

theorem Move.has_absorb {m other : Move} {e : Effect} :
    (m.absorb other).Has e ↔ m.Has e ∨ other.Has e := by
  cases e with
  | target t => exact BitSet.mem_union
  | context =>
    unfold Move.Has Move.absorb
    dsimp only
    split
    next h => simp [h]
    next h => simp [h]

/-- An effect does not depend on the trigger. -/
@[simp]
theorem Move.has_with_on {m : Move} {e : Effect} {on : Trigger} :
    { m with on }.Has e ↔ m.Has e := by
  cases e <;> rfl

namespace Grammar

variable {g g' g'' : Grammar} {c : Nat} {e : Effect}

/-- Some move of a list accepts the character and has the effect. -/
def Offers (g : Grammar) (ms : List Move) (c : Nat) (e : Effect) : Prop :=
  ∃ m ∈ ms, g.triggers m.on c = true ∧ m.Has e

@[simp]
theorem offers_nil : ¬ g.Offers [] c e := by
  rintro ⟨m, hm, _⟩
  exact List.not_mem_nil hm

@[simp]
theorem offers_cons {m : Move} {ms : List Move} :
    g.Offers (m :: ms) c e ↔ (g.triggers m.on c = true ∧ m.Has e) ∨ g.Offers ms c e := by
  simp only [Offers, List.mem_cons, exists_eq_or_imp]

@[simp]
theorem offers_append {ms ns : List Move} :
    g.Offers (ms ++ ns) c e ↔ g.Offers ms c e ∨ g.Offers ns c e := by
  simp only [Offers, List.mem_append, or_and_right, exists_or]

/-- The order of the moves does not matter. -/
theorem offers_perm {ms ms' : List Move} (h : ms.Perm ms') : g.Offers ms c e ↔ g.Offers ms' c e := by
  simp only [Offers, h.mem_iff]

theorem addMove_perm (ms : List Move) (m : Move) : (addMove ms m).Perm (m :: ms) := by
  unfold addMove
  split
  · have hperm : (ms.takeWhile (·.on.isClass) ++ m :: ms.dropWhile (·.on.isClass)).Perm
        (m :: (ms.takeWhile (·.on.isClass) ++ ms.dropWhile (·.on.isClass))) := List.perm_middle
    rwa [List.takeWhile_append_dropWhile] at hperm
  · exact List.perm_append_singleton m ms

theorem mem_addMove {ms : List Move} {m n : Move} : n ∈ addMove ms m ↔ n = m ∨ n ∈ ms := by
  rw [(addMove_perm ms m).mem_iff, List.mem_cons]

@[simp]
theorem offers_addMove {ms : List Move} {m : Move} :
    g.Offers (addMove ms m) c e ↔ (g.triggers m.on c = true ∧ m.Has e) ∨ g.Offers ms c e := by
  rw [offers_perm (addMove_perm ms m), offers_cons]

/-- Adding moves one after the other adds what they do. -/
theorem offers_foldl_addMove {ms ns : List Move} :
    g.Offers (ns.foldl addMove ms) c e ↔ g.Offers ns c e ∨ g.Offers ms c e := by
  induction ns generalizing ms with
  | nil => simp
  | cons n ns ih => rw [List.foldl_cons, ih, offers_addMove, offers_cons, or_left_comm, or_assoc]

theorem mem_foldl_addMove {ms ns : List Move} {m : Move} :
    m ∈ ns.foldl addMove ms ↔ m ∈ ns ∨ m ∈ ms := by
  induction ns generalizing ms with
  | nil => simp
  | cons n ns ih => rw [List.foldl_cons, ih, mem_addMove, List.mem_cons, or_left_comm, or_assoc]

theorem triggers_iff {t : Trigger} : g.triggers t c = true ↔ c ∈ g.triggerSet t := by
  cases t with
  | cls id => rfl
  | char d =>
    rw [triggers, triggerSet, CharSet.mem_singleton, beq_iff_eq]
    exact eq_comm

theorem overlap_iff {t u : Trigger} :
    g.overlap t u = true ↔ ∃ c, g.triggers t c = true ∧ g.triggers u c = true := by
  cases t with
  | char d =>
    rw [overlap]
    simp only [triggers, beq_iff_eq, exists_eq_left']
  | cls a =>
    cases u with
    | char d =>
      simp [overlap, triggers]
    | cls b => exact CharSet.intersects_iff

/-! ## Growing tables of classes -/

/-- The character classes are canonical sets. -/
def CanonicalClasses (g : Grammar) : Prop :=
  ∀ id, (g.charClass id).set.Canonical

/-- A trigger refers to a declared class or to none. -/
def Knows (g : Grammar) : Trigger → Prop
  | .cls id => id < g.classes.size
  | .char _ => True

/-- `g'` is `g` with further classes. -/
structure Grows (g g' : Grammar) : Prop where
  eq : g' = { g with classes := g'.classes, madeUpNames := g'.madeUpNames }
  size_le : g.classes.size ≤ g'.classes.size
  charClass_eq : ∀ id < g.classes.size, g'.charClass id = g.charClass id

namespace Grows

theorem refl (g : Grammar) : g.Grows g :=
  ⟨rfl, Nat.le_refl _, fun _ _ => rfl⟩

theorem trans (h : g.Grows g') (h' : g'.Grows g'') : g.Grows g'' where
  eq := by
    rw [h'.eq, h.eq]
  size_le := Nat.le_trans h.size_le h'.size_le
  charClass_eq id hid := by
    rw [h'.charClass_eq id (Nat.lt_of_lt_of_le hid h.size_le), h.charClass_eq id hid]

theorem knows {t : Trigger} (h : g.Grows g') (ht : g.Knows t) : g'.Knows t := by
  cases t with
  | cls id => exact Nat.lt_of_lt_of_le ht h.size_le
  | char d => trivial

theorem triggerSet_eq {t : Trigger} (h : g.Grows g') (ht : g.Knows t) :
    g'.triggerSet t = g.triggerSet t := by
  cases t with
  | cls id => exact congrArg CharClass.set (h.charClass_eq id ht)
  | char d => rfl

theorem triggers_eq {t : Trigger} (h : g.Grows g') (ht : g.Knows t) (c : Nat) :
    g'.triggers t c = g.triggers t c := by
  rw [Bool.eq_iff_iff, triggers_iff, triggers_iff, h.triggerSet_eq ht]

theorem offers_iff {ms : List Move} (h : g.Grows g') (hms : ∀ m ∈ ms, g.Knows m.on) :
    g'.Offers ms c e ↔ g.Offers ms c e := by
  refine exists_congr fun m => and_congr_right fun hm => ?_
  rw [h.triggers_eq (hms m hm)]

theorem diags_eq (h : g.Grows g') : g'.diags = g.diags := by
  rw [h.eq]

end Grows

theorem canonical_triggerSet (hg : g.CanonicalClasses) (t : Trigger) :
    (g.triggerSet t).Canonical := by
  cases t with
  | cls id => exact hg id
  | char d => exact CharSet.canonical_singleton d

/-- The class table after `declareClass`. -/
theorem charClass_declareClass {name : String} {set : CharSet} (id : ClassId) :
    ((g.declareClass name set).2.charClass id).set =
      if id = g.classes.size then set else (g.charClass id).set := by
  unfold declareClass charClass
  split <;>
  · simp only [Array.getD_eq_getD_getElem?, Array.getElem?_push]
    split <;> rfl

theorem grows_declareClass {name : String} {set : CharSet} :
    g.Grows (g.declareClass name set).2 where
  eq := by
    unfold declareClass
    split <;> rfl
  size_le := by
    unfold declareClass
    split <;> simp
  charClass_eq id hid := by
    have hne : id ≠ g.classes.size := Nat.ne_of_lt hid
    by_cases hname : name = "#" <;>
      simp [declareClass, charClass, hname, Array.getD_eq_getD_getElem?, Array.getElem?_push, hne]

theorem size_declareClass (g : Grammar) (name : String) (set : CharSet) :
    (g.declareClass name set).1 = g.classes.size ∧
      (g.declareClass name set).2.classes.size = g.classes.size + 1 := by
  unfold declareClass
  split <;> simp

/-- What a trigger for a set of characters stands for in the grammar that comes with it. -/
structure Provides (g : Grammar) (set : CharSet) (t : Trigger) (g' : Grammar) : Prop where
  grows : g.Grows g'
  canonical : g'.CanonicalClasses
  knows : g'.Knows t
  triggerSet_eq : g'.triggerSet t = set

theorem triggerFor_spec {set : CharSet} (hg : g.CanonicalClasses) (hset : set.Canonical) :
    g.Provides set (g.triggerFor set).1 (g.triggerFor set).2 := by
  unfold triggerFor
  split
  next d hfirst hsize =>
    exact ⟨.refl g, hg, trivial, (CharSet.eq_singleton_of_size hset hfirst hsize).symm⟩
  next =>
    rw [internClass]
    cases hfind : g.findClassOf set with
    | some id =>
      obtain ⟨hid, heq, _⟩ := Array.findIdx?_eq_some_iff_getElem.1 hfind
      have hclass : (g.charClass id).set = set := by
        simpa [charClass, hid] using heq
      exact ⟨.refl g, hg, hid, hclass⟩
    | none =>
      obtain ⟨hid, hsize⟩ := g.size_declareClass "#" set
      refine ⟨grows_declareClass, fun id => ?_, ?_, ?_⟩
      · rw [charClass_declareClass]
        split
        · exact hset
        · exact hg id
      · rw [Knows, hid, hsize]
        exact Nat.lt_succ_self _
      · rw [triggerSet, charClass_declareClass, hid, if_pos rfl]

theorem provides_of_triggerFor {set : CharSet} {on : Trigger} (hg : g.CanonicalClasses)
    (hset : set.Canonical) (hon : g.triggerFor set = (on, g')) : g.Provides set on g' := by
  have hspec := triggerFor_spec hg hset
  rwa [hon] at hspec

end Grammar

/-! ## States -/

namespace Machine

variable {m : Machine} {s t : StateId} {f : MachineState → MachineState} {st : MachineState}

theorem state_modifyState :
    (m.modifyState s f).state t = if t = s ∧ s < m.states.size then f (m.state t) else m.state t := by
  simp only [state, modifyState, Array.getD_eq_getD_getElem?, Array.getElem?_modify]
  by_cases hst : s = t
  · subst hst
    by_cases hs : s < m.states.size <;> simp [hs]
  · simp [hst, Ne.symm hst]

@[simp]
theorem size_modifyState : (m.modifyState s f).states.size = m.states.size :=
  Array.size_modify

theorem state_addState :
    (m.addState st).2.state t = if t = m.states.size then st else m.state t := by
  simp only [state, addState, Array.getD_eq_getD_getElem?, Array.getElem?_push]
  split <;> rfl

@[simp]
theorem size_addState : (m.addState st).2.states.size = m.states.size + 1 :=
  Array.size_push st

end Machine

/-! ## Reading a text -/

namespace Draft

/-- Where a character can lead from a state. -/
def Steps (d : Draft) (s : StateId) (c : Nat) (t : StateId) : Prop :=
  d.grammar.Offers (d.machine.state s).moves c (.target t)

/-- Where a text can lead from a state. -/
def Leads (d : Draft) : StateId → List Nat → StateId → Prop
  | s, [], t => s = t
  | s, c :: w, t => ∃ u, d.Steps s c u ∧ d.Leads u w t

/-- The character classes are canonical, and moves refer to what there is. -/
structure WellFormed (d : Draft) : Prop where
  canonical : d.grammar.CanonicalClasses
  knows : ∀ s, ∀ m ∈ (d.machine.state s).moves, d.grammar.Knows m.on
  target_lt : ∀ s, ∀ m ∈ (d.machine.state s).moves, ∀ t ∈ m.targets, t < d.machine.states.size
  size_pos : 0 < d.machine.states.size

theorem WellFormed.lt_of_steps {d : Draft} (h : d.WellFormed) {s t : StateId} {c : Nat}
    (hstep : d.Steps s c t) : t < d.machine.states.size := by
  obtain ⟨m, hm, _, ht⟩ := hstep
  exact h.target_lt s m hm t ht

end Draft

end Ebnf
