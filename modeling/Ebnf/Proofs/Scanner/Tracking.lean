import Mathlib.Data.List.Pairwise
import Ebnf.Scanner
import Ebnf.Proofs.Machine.Build
import Ebnf.Proofs.Machine.Merge

/-!
# Scanners track their machines

A state of a scanner that is reached along a text stands for the set of all
machine states that the text can lead to.  The relation between states and sets
is carried from the merged machine through each rewrite of the scanner; merged
ends make it a relation rather than a function.

Main results:

- Theorem `Scanner.tracks_ofMachine`: the scanner of a deterministic machine
  tracks it.
- Theorem `Scanner.Tracks.dropRedundant`: dropping and renumbering states keeps
  tracking.
- Theorem `Scanner.mergeAllShifts_spec`: joining shifts keeps where characters lead.
- Theorem `Scanner.Tracks.run`: along a text, a scanner that tracks a machine is in
  a state for all that the machine can be in.
- Theorem `Draft.exists_tracks_toScanner`: the scanner of a machine tracks it.
- Theorem `Draft.Built.run_toScanner`: the scanner of every machine that
  declarations build recognises what the machine recognises.
-/

namespace Ebnf

namespace Scanner

variable {sc : Scanner} {g g' : Grammar} {d : Draft} {s t : StateId} {c : Nat}

theorem state_mem (hs : s < sc.states.size) : sc.state s ∈ sc.states.toList := by
  simp [state, hs]

theorem state_eq_default (hs : ¬ s < sc.states.size) : sc.state s = default := by
  simp [state, hs]

theorem exists_state_eq {st : ScannerState} (hst : st ∈ sc.states.toList) : ∃ s, sc.state s = st := by
  obtain ⟨s, hs, rfl⟩ := List.getElem_of_mem hst
  rw [Array.length_toList] at hs
  exact ⟨s, by simp [state, hs]⟩

/-! ## The relation -/

/-- Some shift of a list leads to a state on a character, with the classes of a grammar. -/
def Offers (g : Grammar) (ss : List Shift) (c : Nat) (t : StateId) : Prop :=
  ∃ shift ∈ ss, g.triggers shift.on c = true ∧ shift.target = t

/-- Where a character leads from a state. -/
def Shifts (sc : Scanner) (g : Grammar) (s : StateId) (c : Nat) (t : StateId) : Prop :=
  Offers g (sc.state s).shifts c t

@[simp]
theorem not_offers_nil : ¬ Offers g [] c t := by
  rintro ⟨shift, hmem, _⟩
  exact List.not_mem_nil hmem

@[simp]
theorem offers_cons {shift : Shift} {ss : List Shift} :
    Offers g (shift :: ss) c t ↔
      (g.triggers shift.on c = true ∧ shift.target = t) ∨ Offers g ss c t := by
  simp only [Offers, List.mem_cons, exists_eq_or_imp]

/-- The machine states that a character leads to from any of a set. -/
def after (d : Draft) (c : Nat) (set : Set StateId) : Set StateId :=
  { x | ∃ y ∈ set, d.Steps y c x }

/-- `R` relates a state of the scanner to the sets of machine states that it stands for. -/
structure Tracks (sc : Scanner) (g : Grammar) (d : Draft) (R : StateId → Set StateId → Prop) :
    Prop where
  start : R start {Machine.start}
  nonempty : ∀ {s set}, R s set → set.Nonempty
  unique : ∀ {s set c t u}, R s set → sc.Shifts g s c t → sc.Shifts g s c u → t = u
  step : ∀ {s set c t}, R s set → sc.Shifts g s c t → R t (after d c set)
  progress : ∀ {s set c}, R s set → (after d c set).Nonempty → ∃ t, sc.Shifts g s c t
  endOf_iff : g.diags = d.grammar.diags → ∀ {s set}, R s set → ∀ tok,
    (sc.state s).endOf = some tok ↔ ∃ y ∈ set, (d.machine.state y).endOf = some tok

/-! ## From machines -/

theorem state_ofMachine {m : Machine} (hs : s < m.states.size) :
    (ofMachine m).state s = ofMachineState s (m.state s) := by
  simp [state, ofMachine, Machine.state, hs]

/-- A set without two members has its least member only. -/
theorem mem_iff_min? {set : BitSet} (hlen : set.toList.length < 2) :
    t ∈ set ↔ set.min? = some t := by
  rw [← BitSet.mem_toList, BitSet.min?]
  match set.toList, hlen with
  | [], _ => simp
  | [u], _ => simp [eq_comm]

theorem mem_shifts_ofMachineState {st : MachineState} {shift : Shift} :
    shift ∈ (ofMachineState s st).shifts ↔ ∃ move ∈ st.moves, ∃ t, move.targets.min? = some t ∧
      shift = ⟨move.on, move.part, t⟩ := by
  rw [ofMachineState, List.mem_append, List.mem_filter, List.mem_filter, ← and_or_left]
  have hkind : (shift.on.isClass = true ∨ (!shift.on.isClass) = true) ↔ True := by
    cases shift.on.isClass <;> simp
  rw [hkind, and_true, List.mem_filterMap]
  simp only [Option.map_eq_some_iff]
  exact exists_congr fun move => and_congr_right fun _ => exists_congr fun t =>
    and_congr_right fun _ => eq_comm

/-- With one target for each move, shifts are the steps of the machine. -/
theorem shifts_ofMachine (hs : s < d.machine.states.size)
    (htargets : ∀ move ∈ (d.machine.state s).moves, move.targets.toList.length < 2) :
    (ofMachine d.machine).Shifts d.grammar s c t ↔ d.Steps s c t := by
  rw [Shifts, state_ofMachine hs]
  constructor
  · rintro ⟨shift, hmem, hon, rfl⟩
    obtain ⟨move, hmove, u, hmin, rfl⟩ := mem_shifts_ofMachineState.1 hmem
    exact ⟨move, hmove, hon, (mem_iff_min? (htargets move hmove)).2 hmin⟩
  · rintro ⟨move, hmove, hon, ht⟩
    refine ⟨⟨move.on, move.part, t⟩, mem_shifts_ofMachineState.2 ⟨move, hmove, t, ?_, rfl⟩, hon, rfl⟩
    exact (mem_iff_min? (htargets move hmove)).1 ht

/-- Disjoint moves with one target each lead a character to one state. -/
theorem steps_unique {u : StateId} (hsep : d.grammar.Separated (d.machine.state s).moves)
    (htargets : ∀ move ∈ (d.machine.state s).moves, move.targets.toList.length < 2)
    (ht : d.Steps s c t) (hu : d.Steps s c u) : t = u := by
  obtain ⟨m, hm, hmc, hmt⟩ := ht
  obtain ⟨n, hn, hnc, hnu⟩ := hu
  have hsymm : Std.Symm fun m n : Move =>
      ∀ c, ¬ (d.grammar.triggers m.on c = true ∧ d.grammar.triggers n.on c = true) :=
    ⟨fun x y h c hc => h c hc.symm⟩
  have hmn : m = n := by
    false_or_by_contra
    next hne => exact List.Pairwise.forall hsep hm hn hne c ⟨hmc, hnc⟩
  subst hmn
  have hmin := (mem_iff_min? (htargets m hm)).1 hmt
  have hmin' := (mem_iff_min? (htargets m hm)).1 hnu
  exact Option.some.inj (hmin.symm.trans hmin')

/-- The scanner of a deterministic machine tracks the machine behind it. -/
theorem tracks_ofMachine {d' : Draft} {behind : StateId → BitSet}
    (h : d.Determinizes d' behind) :
    (ofMachine d'.machine).Tracks d'.grammar d fun s set =>
      s < d'.machine.states.size ∧ set = { x | x ∈ behind s } where
  start := by
    refine ⟨h.wellFormed.size_pos, Set.ext fun x => ?_⟩
    exact (h.behind_start x).symm
  nonempty := by
    rintro s _ ⟨hs, rfl⟩
    exact h.behind_nonempty s hs
  unique := by
    rintro s _ c t u ⟨hs, rfl⟩ ht hu
    rw [shifts_ofMachine hs (h.targets_lt s hs)] at ht hu
    exact steps_unique (h.separated s hs) (h.targets_lt s hs) ht hu
  step := by
    rintro s _ c t ⟨hs, rfl⟩ ht
    rw [shifts_ofMachine hs (h.targets_lt s hs)] at ht
    refine ⟨h.wellFormed.lt_of_steps ht, Set.ext fun x => ?_⟩
    refine (h.steps_iff s hs c x).symm.trans ⟨?_, fun hx => ⟨t, ht, hx⟩⟩
    rintro ⟨u, hu, hx⟩
    rwa [steps_unique (h.separated s hs) (h.targets_lt s hs) ht hu]
  progress := by
    rintro s _ c ⟨hs, rfl⟩ ⟨x, hx⟩
    obtain ⟨t, ht, _⟩ := (h.steps_iff s hs c x).2 hx
    exact ⟨t, (shifts_ofMachine hs (h.targets_lt s hs)).2 ht⟩
  endOf_iff := by
    rintro hclean s _ ⟨hs, rfl⟩ tok
    rw [state_ofMachine hs]
    exact h.endOf_iff hclean s hs tok

/-! ## Dropping states -/

/-- Every shift leads to a state that there is. -/
def Closed (sc : Scanner) : Prop :=
  0 < sc.states.size ∧ ∀ s, ∀ shift ∈ (sc.state s).shifts, shift.target < sc.states.size

/-- The states that can be reached, in order. -/
def used (sc : Scanner) : List StateId :=
  (List.range sc.states.size).filter sc.reachable.contains

/-- The plain ends among them. -/
def ends (sc : Scanner) : List StateId :=
  sc.used.filter sc.isPlainEnd

/-- The states that stay. -/
def kept (sc : Scanner) : List StateId :=
  sc.used.filter fun s => sc.representative sc.ends s == s

/-- The new number of a state. -/
def renumber (sc : Scanner) (s : StateId) : StateId :=
  sc.kept.idxOf (sc.representative sc.ends s)

/-- A state with its new numbers. -/
def renumbered (sc : Scanner) (st : ScannerState) : ScannerState :=
  { st with
    number := sc.renumber st.number
    shifts := st.shifts.map fun shift => { shift with target := sc.renumber shift.target } }

theorem states_dropRedundant :
    sc.dropRedundant.states = (sc.kept.map fun s => sc.renumbered (sc.state s)).toArray :=
  rfl

theorem mem_used : s ∈ sc.used ↔ Reached (fun s => (sc.state s).shifts.map Shift.target)
    (isFresh (allFresh sc.states.size) · = true) [start] s := by
  rw [used, List.mem_filter, BitSet.contains_iff, reachable, BitSet.mem_ofList, mem_explore,
    List.mem_range]
  exact and_iff_right_of_imp fun h => isFresh_allFresh.1 h.of_fresh

theorem start_mem_used (h : sc.Closed) : start ∈ sc.used :=
  mem_used.2 (.root List.mem_cons_self (isFresh_allFresh.2 h.1))

theorem target_mem_used {shift : Shift} (h : sc.Closed) (hs : s ∈ sc.used)
    (hshift : shift ∈ (sc.state s).shifts) : shift.target ∈ sc.used :=
  mem_used.2 (.step (mem_used.1 hs) (List.mem_map_of_mem hshift)
    (isFresh_allFresh.2 (h.2 s shift hshift)))

theorem representative_of_not_plainEnd (hs : ¬ sc.isPlainEnd s = true) :
    sc.representative sc.ends s = s :=
  if_neg hs

theorem shifts_of_isPlainEnd (hs : sc.isPlainEnd s = true) : (sc.state s).shifts = [] := by
  simp only [isPlainEnd, Bool.and_eq_true, List.isEmpty_iff] at hs
  exact hs.1.2

/-- The representative of a state that can be reached stays, recognises the same token, and is
another state only if neither has shifts. -/
theorem representative_spec (hs : s ∈ sc.used) :
    sc.representative sc.ends s ∈ sc.kept ∧
      (sc.state (sc.representative sc.ends s)).endOf = (sc.state s).endOf ∧
      (sc.representative sc.ends s = s ∨
        (sc.state (sc.representative sc.ends s)).shifts = [] ∧ (sc.state s).shifts = []) := by
  by_cases hend : sc.isPlainEnd s = true
  · have hfound : (sc.ends.find? fun t => (sc.state t).endOf == (sc.state s).endOf).isSome = true :=
      List.find?_isSome.2 ⟨s, List.mem_filter.2 ⟨hs, hend⟩, BEq.refl _⟩
    obtain ⟨t, ht⟩ := Option.isSome_iff_exists.1 hfound
    have heq : (sc.state t).endOf = (sc.state s).endOf := by
      simpa using List.find?_some ht
    obtain ⟨htused, htend⟩ := List.mem_filter.1 (List.mem_of_find?_eq_some ht)
    have hrep : sc.representative sc.ends s = t := by
      rw [representative, if_pos hend, ht]
      rfl
    have hrep' : sc.representative sc.ends t = t := by
      rw [representative, if_pos htend, heq, ht]
      rfl
    rw [hrep]
    refine ⟨List.mem_filter.2 ⟨htused, beq_iff_eq.2 hrep'⟩, heq, .inr ⟨?_, ?_⟩⟩
    · exact shifts_of_isPlainEnd htend
    · exact shifts_of_isPlainEnd hend
  · have hrep := representative_of_not_plainEnd hend
    rw [hrep]
    exact ⟨List.mem_filter.2 ⟨hs, beq_iff_eq.2 hrep⟩, rfl, .inl rfl⟩

theorem state_dropRedundant (hs : s ∈ sc.used) :
    sc.dropRedundant.state (sc.renumber s) =
      sc.renumbered (sc.state (sc.representative sc.ends s)) := by
  have hlt := List.idxOf_lt_length_iff.2 (representative_spec hs).1
  rw [state, states_dropRedundant, renumber]
  simp only [Array.getD_eq_getD_getElem?, List.getElem?_toArray, List.getElem?_map,
    List.getElem?_eq_getElem hlt, List.getElem_idxOf, Option.map_some, Option.getD_some]

theorem endOf_dropRedundant (hs : s ∈ sc.used) :
    (sc.dropRedundant.state (sc.renumber s)).endOf = (sc.state s).endOf := by
  rw [state_dropRedundant hs]
  exact (representative_spec hs).2.1

/-- The shifts of a state lead to the new numbers of their targets. -/
theorem state_shifts_dropRedundant (hs : s ∈ sc.used) :
    (sc.dropRedundant.state (sc.renumber s)).shifts =
      (sc.state s).shifts.map fun shift => { shift with target := sc.renumber shift.target } := by
  rw [state_dropRedundant hs]
  rcases (representative_spec hs).2.2 with hrep | ⟨hnil, hnil'⟩
  · rw [hrep]
    rfl
  · simp [renumbered, hnil, hnil']

/-- Characters lead to the new numbers of the states that they led to. -/
theorem shifts_dropRedundant (hs : s ∈ sc.used) :
    sc.dropRedundant.Shifts g (sc.renumber s) c t ↔
      ∃ u, sc.Shifts g s c u ∧ sc.renumber u = t := by
  simp only [Shifts, Offers, state_shifts_dropRedundant hs, List.mem_map]
  constructor
  · rintro ⟨_, ⟨shift, hmem, rfl⟩, hon, rfl⟩
    exact ⟨shift.target, ⟨shift, hmem, hon, rfl⟩, rfl⟩
  · rintro ⟨u, ⟨shift, hmem, hon, rfl⟩, rfl⟩
    exact ⟨_, ⟨shift, hmem, rfl⟩, hon, rfl⟩

theorem knows_dropRedundant (h : ∀ s, ∀ shift ∈ (sc.state s).shifts, g.Knows shift.on) :
    ∀ st ∈ sc.dropRedundant.states.toList, ∀ shift ∈ st.shifts, g.Knows shift.on := by
  rw [states_dropRedundant]
  intro st hst shift hshift
  obtain ⟨s, _, rfl⟩ := List.mem_map.1 hst
  obtain ⟨shift, hmem, rfl⟩ := List.mem_map.1 hshift
  exact h s shift hmem

theorem renumber_start (h : sc.Closed) : sc.renumber start = start := by
  have hplain : ¬ sc.isPlainEnd start = true := by simp [isPlainEnd]
  obtain ⟨n, hn⟩ := Nat.exists_eq_succ_of_ne_zero (Nat.ne_of_gt h.1)
  have hused := List.mem_filter.1 (start_mem_used h)
  have hkept : sc.kept = start :: ((List.range n).map Nat.succ).filter (fun s =>
      sc.reachable.contains s && sc.representative sc.ends s == s) := by
    rw [kept, used, List.filter_filter, hn, List.range_succ_eq_map, List.filter_cons_of_pos]
    · simp only [Bool.and_comm]
      rfl
    · rw [Bool.and_eq_true, beq_iff_eq]
      exact ⟨representative_of_not_plainEnd hplain, hused.2⟩
  rw [renumber, representative_of_not_plainEnd hplain, hkept, List.idxOf_cons_self]
  rfl

/-- A scanner without its redundant states tracks what it tracked before. -/
theorem Tracks.dropRedundant {R : StateId → Set StateId → Prop} (h : sc.Tracks g d R)
    (hclosed : sc.Closed) :
    sc.dropRedundant.Tracks g d fun i set => ∃ s ∈ sc.used, sc.renumber s = i ∧ R s set where
  start := ⟨Scanner.start, start_mem_used hclosed, renumber_start hclosed, h.start⟩
  nonempty := by
    rintro _ set ⟨s, _, rfl, hR⟩
    exact h.nonempty hR
  unique := by
    rintro _ set c t u ⟨s, hs, rfl, hR⟩ ht hu
    obtain ⟨t, ht', rfl⟩ := (shifts_dropRedundant hs).1 ht
    obtain ⟨u, hu', rfl⟩ := (shifts_dropRedundant hs).1 hu
    rw [h.unique hR ht' hu']
  step := by
    rintro _ set c t ⟨s, hs, rfl, hR⟩ ht
    obtain ⟨t, ht', rfl⟩ := (shifts_dropRedundant hs).1 ht
    refine ⟨t, ?_, rfl, h.step hR ht'⟩
    obtain ⟨shift, hmem, _, rfl⟩ := ht'
    exact target_mem_used hclosed hs hmem
  progress := by
    rintro _ set c ⟨s, hs, rfl, hR⟩ hne
    obtain ⟨t, ht⟩ := h.progress hR hne
    exact ⟨sc.renumber t, (shifts_dropRedundant hs).2 ⟨t, ht, rfl⟩⟩
  endOf_iff := by
    rintro hclean _ set ⟨s, hs, rfl, hR⟩ tok
    rw [endOf_dropRedundant hs]
    exact h.endOf_iff hclean hR tok

/-! ## Joining shifts -/

/-- Other shifts for which more classes are declared lead to the same states. -/
structure Rejoins (g : Grammar) (ss : List Shift) (g' : Grammar) (ss' : List Shift) : Prop where
  grows : g.Grows g'
  canonical : g'.CanonicalClasses
  knows : ∀ shift ∈ ss', g'.Knows shift.on
  offers_iff : ∀ c t, Offers g' ss' c t ↔ Offers g ss c t

theorem offers_grows {ss : List Shift} (h : g.Grows g') (hss : ∀ shift ∈ ss, g.Knows shift.on) :
    Offers g' ss c t ↔ Offers g ss c t := by
  refine exists_congr fun shift => and_congr_right fun hmem => ?_
  rw [h.triggers_eq (hss shift hmem)]

theorem Rejoins.refl {ss : List Shift} (hg : g.CanonicalClasses)
    (hss : ∀ shift ∈ ss, g.Knows shift.on) : Rejoins g ss g ss :=
  ⟨.refl g, hg, hss, fun _ _ => Iff.rfl⟩

theorem Rejoins.trans {g'' : Grammar} {ss ss' ss'' : List Shift} (h : Rejoins g ss g' ss')
    (h' : Rejoins g' ss' g'' ss'') : Rejoins g ss g'' ss'' where
  grows := h.grows.trans h'.grows
  canonical := h'.canonical
  knows := h'.knows
  offers_iff c t := (h'.offers_iff c t).trans (h.offers_iff c t)

/-- A shift in front that is known before may stay there. -/
theorem Rejoins.cons {shift : Shift} {ss ss' : List Shift} (h : Rejoins g ss g' ss')
    (hshift : g.Knows shift.on) : Rejoins g (shift :: ss) g' (shift :: ss') where
  grows := h.grows
  canonical := h.canonical
  knows := List.forall_mem_cons.2 ⟨h.grows.knows hshift, h.knows⟩
  offers_iff c t := by
    rw [offers_cons, offers_cons, h.offers_iff, h.grows.triggers_eq hshift]

theorem Rejoins.swap {shift shift' : Shift} {ss ss' : List Shift}
    (h : Rejoins g ss g' (shift :: shift' :: ss')) : Rejoins g ss g' (shift' :: shift :: ss') where
  grows := h.grows
  canonical := h.canonical
  knows := by
    have hknows := h.knows
    simp only [List.forall_mem_cons] at hknows ⊢
    exact ⟨hknows.2.1, hknows.1, hknows.2.2⟩
  offers_iff c t := by
    rw [← h.offers_iff]
    simp only [offers_cons]
    exact or_left_comm

/-- Two shifts to one state become one on the union of their characters. -/
theorem rejoins_pair {s t : Shift} {ss : List Shift} {on : Trigger} (hg : g.CanonicalClasses)
    (hs : ∀ shift ∈ s :: t :: ss, g.Knows shift.on) (htarget : s.target = t.target)
    (hon : g.Provides ((g.triggerSet s.on).union (g.triggerSet t.on)) on g') :
    Rejoins g (s :: t :: ss) g' ({ s with on } :: ss) := by
  simp only [List.forall_mem_cons] at hs
  refine ⟨hon.grows, hon.canonical, ?_, fun c u => ?_⟩
  · refine List.forall_mem_cons.2 ⟨hon.knows, fun shift hmem => ?_⟩
    exact hon.grows.knows (hs.2.2 shift hmem)
  · simp only [offers_cons, offers_grows hon.grows hs.2.2, Grammar.triggers_iff, hon.triggerSet_eq,
      CharSet.mem_union (Grammar.canonical_triggerSet hg s.on), or_and_right, htarget, or_assoc]

theorem joinShifts_spec {s : Shift} {ss : List Shift} (hg : g.CanonicalClasses)
    (hss : ∀ shift ∈ s :: ss, g.Knows shift.on) :
    let r := joinShifts g s ss
    Rejoins g (s :: ss) r.2.2 (r.1 :: r.2.1) := by
  induction ss generalizing s g with
  | nil => exact .refl hg hss
  | cons t ss ih =>
    rw [joinShifts]
    split
    next hsame =>
      have hon := Grammar.triggerFor_spec hg
        ((Grammar.canonical_triggerSet hg s.on).union (g.triggerSet t.on))
      have hpair := rejoins_pair hg hss hsame.1 hon
      exact hpair.trans (ih hpair.canonical hpair.knows)
    next hother =>
      simp only [List.forall_mem_cons] at hss
      have hrest := ih hg (List.forall_mem_cons.2 ⟨hss.1, hss.2.2⟩)
      have hswap : Rejoins g (s :: t :: ss) g (t :: s :: ss) :=
        (Rejoins.refl hg (by simpa using ⟨hss.1, hss.2⟩)).swap
      exact (hswap.trans (hrest.cons hss.2.1)).swap

theorem mergeShiftsWithin_spec (fuel : Nat) {ss : List Shift} (hg : g.CanonicalClasses)
    (hss : ∀ shift ∈ ss, g.Knows shift.on) :
    Rejoins g ss (mergeShiftsWithin g fuel ss).2 (mergeShiftsWithin g fuel ss).1 := by
  induction fuel generalizing ss g with
  | zero => exact .refl hg hss
  | succ fuel ih =>
    cases ss with
    | nil => exact .refl hg hss
    | cons s ss =>
      have hjoin := joinShifts_spec hg hss
      rw [mergeShiftsWithin]
      generalize joinShifts g s ss = r at hjoin ⊢
      obtain ⟨s', rest, g'⟩ := r
      obtain ⟨hs', hrest⟩ := List.forall_mem_cons.1 hjoin.knows
      exact hjoin.trans ((ih hjoin.canonical hrest).cons hs')

/-- Joining the shifts of all states keeps where characters lead from each. -/
theorem mergeAllShifts_spec {sts : List ScannerState} (hg : g.CanonicalClasses)
    (hsts : ∀ st ∈ sts, ∀ shift ∈ st.shifts, g.Knows shift.on) :
    let r := mergeAllShifts g sts
    g.Grows r.2 ∧ r.1.length = sts.length ∧ ∀ (i : Nat) (st : ScannerState), sts[i]? = some st →
      ∃ st' : ScannerState, r.1[i]? = some st' ∧ st'.endOf = st.endOf ∧
        ∀ c t, Offers r.2 st'.shifts c t ↔ Offers g st.shifts c t := by
  induction sts generalizing g with
  | nil => exact ⟨.refl g, rfl, fun i st hi => by simp at hi⟩
  | cons st sts ih =>
    obtain ⟨hst, hsts⟩ := List.forall_mem_cons.1 hsts
    have hmerge := mergeShiftsWithin_spec st.shifts.length hg hst
    obtain ⟨hgrows, hlen, hrest⟩ := ih hmerge.canonical fun st' hmem shift hshift =>
      hmerge.grows.knows (hsts st' hmem shift hshift)
    refine ⟨hmerge.grows.trans hgrows, congrArg Nat.succ hlen, fun i found hi => ?_⟩
    cases i with
    | zero =>
      obtain rfl : st = found := by simpa using hi
      refine ⟨_, rfl, rfl, fun c t => ?_⟩
      exact (offers_grows hgrows hmerge.knows).trans (hmerge.offers_iff c t)
    | succ i =>
      have hi' : sts[i]? = some found := by simpa using hi
      obtain ⟨st', hget, hend, hoffers⟩ := hrest i found hi'
      refine ⟨st', hget, hend, fun c t => (hoffers c t).trans ?_⟩
      exact offers_grows hmerge.grows (hsts found (List.mem_of_getElem? hi'))

/-- A scanner whose states recognise the same tokens and lead to the same states tracks the same. -/
theorem Tracks.congr {sc' : Scanner} {R : StateId → Set StateId → Prop} (h : sc.Tracks g d R)
    (hdiags : g'.diags = g.diags) (hend : ∀ s, (sc'.state s).endOf = (sc.state s).endOf)
    (hshifts : ∀ s c t, sc'.Shifts g' s c t ↔ sc.Shifts g s c t) : sc'.Tracks g' d R where
  start := h.start
  nonempty := h.nonempty
  unique hR ht hu := h.unique hR ((hshifts _ _ _).1 ht) ((hshifts _ _ _).1 hu)
  step hR ht := h.step hR ((hshifts _ _ _).1 ht)
  progress hR hne := by
    obtain ⟨t, ht⟩ := h.progress hR hne
    exact ⟨t, (hshifts _ _ _).2 ht⟩
  endOf_iff hclean s set hR tok := by
    rw [hend]
    exact h.endOf_iff (hdiags.symm.trans hclean) hR tok

theorem size_withStates {sts : List ScannerState} :
    ({ sc with states := sts.toArray }.withTables g).states.size = sts.length :=
  List.size_toArray

theorem state_withStates {sts : List ScannerState} :
    ({ sc with states := sts.toArray }.withTables g).state s = sts[s]?.getD default := by
  simp [state, withTables, Array.getD_eq_getD_getElem?]

/-! ## Running -/

@[simp]
theorem triggers_withTables {on : Trigger} : (sc.withTables g).triggers on c = g.triggers on c := by
  cases on with
  | char b => rfl
  | cls id =>
    simp only [triggers, withTables, Grammar.triggers, Grammar.charClass,
      Array.getD_eq_getD_getElem?, Array.getElem?_map]
    cases g.classes[id]? <;> rfl

theorem mem_of_findShift {c : Char} {shift : Shift}
    (htriggers : ∀ on c, sc.triggers on c = g.triggers on c)
    (hfind : sc.findShift s c = some shift) :
    shift ∈ (sc.state s).shifts ∧ g.triggers shift.on c.toNat = true := by
  have hon : sc.triggers shift.on c.toNat = true :=
    List.find?_some (p := fun shift : Shift => sc.triggers shift.on c.toNat) hfind
  exact ⟨List.mem_of_find?_eq_some hfind, htriggers shift.on c.toNat ▸ hon⟩

theorem offers_of_findShift {c : Char} {shift : Shift}
    (htriggers : ∀ on c, sc.triggers on c = g.triggers on c)
    (hfind : sc.findShift s c = some shift) : sc.Shifts g s c.toNat shift.target := by
  obtain ⟨hmem, hon⟩ := mem_of_findShift htriggers hfind
  exact ⟨shift, hmem, hon, rfl⟩

theorem not_offers_of_findShift {c : Char} (htriggers : ∀ on c, sc.triggers on c = g.triggers on c)
    (hfind : sc.findShift s c = none) : ¬ sc.Shifts g s c.toNat t := by
  rintro ⟨shift, hmem, hon, _⟩
  rw [← htriggers] at hon
  exact List.find?_eq_none.1 hfind shift hmem hon

/-- The machine states that a text leads to from any of a set. -/
def afterText (d : Draft) (w : List Nat) (set : Set StateId) : Set StateId :=
  { x | ∃ y ∈ set, d.Leads y w x }

theorem afterText_nil (set : Set StateId) : afterText d [] set = set := by
  ext x
  simp [afterText, Draft.Leads]

theorem afterText_cons (c : Nat) (w : List Nat) (set : Set StateId) :
    afterText d (c :: w) set = afterText d w (after d c set) := by
  ext x
  constructor
  · rintro ⟨y, hy, u, hstep, hleads⟩
    exact ⟨u, ⟨y, hy, hstep⟩, hleads⟩
  · rintro ⟨u, ⟨y, hy, hstep⟩, hleads⟩
    exact ⟨y, hy, u, hstep, hleads⟩

theorem afterText_empty (w : List Nat) : afterText d w ∅ = ∅ := by
  ext x
  simp [afterText]

/-- A scanner runs along a text as long as the machine can be in some state, and its state then
stands for all of these. -/
theorem Tracks.run {R : StateId → Set StateId → Prop} {set : Set StateId} (h : sc.Tracks g d R)
    (htriggers : ∀ on c, sc.triggers on c = g.triggers on c) (hR : R s set) (w : List Char) :
    ((sc.run s w).isSome = true ↔ (afterText d (w.map Char.toNat) set).Nonempty) ∧
      ∀ q, sc.run s w = some q → R q (afterText d (w.map Char.toNat) set) := by
  induction w generalizing s set with
  | nil =>
    rw [List.map_nil, afterText_nil]
    refine ⟨⟨fun _ => h.nonempty hR, fun _ => rfl⟩, fun q hq => ?_⟩
    rwa [← Option.some.inj hq]
  | cons c w ih =>
    rw [List.map_cons, afterText_cons, Scanner.run]
    cases hfind : sc.findShift s c with
    | some shift => exact ih (h.step hR (offers_of_findShift htriggers hfind))
    | none =>
      have hempty : after d c.toNat set = ∅ := by
        refine Set.not_nonempty_iff_eq_empty.1 fun hne => ?_
        obtain ⟨t, ht⟩ := h.progress hR hne
        exact not_offers_of_findShift htriggers hfind ht
      rw [hempty, afterText_empty]
      simp

end Scanner

/-! ## The scanner of a machine -/

namespace Draft

variable {d : Draft}

/-- The shifts of the scanner of a machine come from its moves. -/
theorem exists_move_of_mem_shifts {s : StateId} {shift : Shift}
    (hmem : shift ∈ ((Scanner.ofMachine d.machine).state s).shifts) :
    ∃ move ∈ (d.machine.state s).moves, move.on = shift.on ∧ move.part = shift.part ∧
      shift.target ∈ move.targets := by
  by_cases hs : s < d.machine.states.size
  · rw [Scanner.state_ofMachine hs] at hmem
    obtain ⟨move, hmove, t, hmin, rfl⟩ := Scanner.mem_shifts_ofMachineState.1 hmem
    exact ⟨move, hmove, rfl, rfl, BitSet.mem_toList.1 (List.mem_of_mem_head? hmin)⟩
  · rw [Scanner.state_eq_default (by simpa [Scanner.ofMachine] using hs)] at hmem
    cases hmem

theorem closed_ofMachine (h : d.WellFormed) : (Scanner.ofMachine d.machine).Closed := by
  have hsize : (Scanner.ofMachine d.machine).states.size = d.machine.states.size :=
    Array.size_mapIdx
  rw [Scanner.Closed, hsize]
  refine ⟨h.size_pos, fun s shift hmem => ?_⟩
  obtain ⟨move, hmove, _, _, htarget⟩ := exists_move_of_mem_shifts hmem
  exact h.target_lt s move hmove _ htarget

theorem knows_ofMachine (h : d.WellFormed) (s : StateId) :
    ∀ shift ∈ ((Scanner.ofMachine d.machine).state s).shifts, d.grammar.Knows shift.on := by
  intro shift hmem
  obtain ⟨move, hmove, hon, _⟩ := exists_move_of_mem_shifts hmem
  exact hon ▸ h.knows s move hmove

/-- The scanner before its shifts are joined. -/
def unjoined (d : Draft) : Scanner :=
  (Scanner.ofMachine d.mergeStates.machine).dropRedundant

theorem toScanner_eq : d.toScanner =
    (({ d.unjoined with
        states := (Scanner.mergeAllShifts d.mergeStates.grammar d.unjoined.states.toList).1.toArray }
          : Scanner).withTables
        (Scanner.mergeAllShifts d.mergeStates.grammar d.unjoined.states.toList).2,
      (Scanner.mergeAllShifts d.mergeStates.grammar d.unjoined.states.toList).2) :=
  rfl

theorem exists_withTables (d : Draft) :
    ∃ sc : Scanner, d.toScanner.1 = sc.withTables d.toScanner.2 := by
  dsimp only [toScanner]
  exact ⟨_, rfl⟩

theorem triggers_toScanner {on : Trigger} {c : Nat} :
    d.toScanner.1.triggers on c = d.toScanner.2.triggers on c := by
  obtain ⟨sc, hsc⟩ := d.exists_withTables
  rw [hsc, Scanner.triggers_withTables]

theorem knows_unjoined (h : d.WellFormed) : ∀ st ∈ d.unjoined.states.toList, ∀ shift ∈ st.shifts,
    d.mergeStates.grammar.Knows shift.on := by
  obtain ⟨behind, hdet⟩ := mergeStates_spec h
  exact Scanner.knows_dropRedundant (knows_ofMachine hdet.wellFormed)

/-- Joining shifts reports nothing, and every state recognises and shifts as before. -/
theorem joins_toScanner (h : d.WellFormed) :
    d.toScanner.2.diags = d.mergeStates.grammar.diags ∧
      ∀ s, (d.toScanner.1.state s).endOf = (d.unjoined.state s).endOf ∧ ∀ c t,
        d.toScanner.1.Shifts d.toScanner.2 s c t ↔
          d.unjoined.Shifts d.mergeStates.grammar s c t := by
  obtain ⟨behind, hdet⟩ := mergeStates_spec h
  have hspec := Scanner.mergeAllShifts_spec hdet.wellFormed.canonical (knows_unjoined h)
  rw [toScanner_eq]
  generalize Scanner.mergeAllShifts d.mergeStates.grammar d.unjoined.states.toList = r at hspec
  obtain ⟨hgrows, hlen, hstates⟩ := hspec
  refine ⟨hgrows.diags_eq, fun s => ?_⟩
  simp only [Scanner.Shifts, Scanner.state_withStates]
  by_cases hs : s < d.unjoined.states.size
  · have hold : d.unjoined.states.toList[s]? = some (d.unjoined.state s) := by
      simp [Scanner.state, hs]
    obtain ⟨st, hnew, hend, hoffers⟩ := hstates s _ hold
    rw [hnew]
    exact ⟨hend, hoffers⟩
  · -- beyond the last state there is none before and none after
    have hnone : r.1[s]? = none := by
      rw [List.getElem?_eq_none_iff, hlen, Array.length_toList]
      exact Nat.not_lt.1 hs
    rw [hnone, Scanner.state_eq_default hs]
    exact ⟨rfl, fun c t => iff_of_false Scanner.not_offers_nil Scanner.not_offers_nil⟩

theorem tracks_toScanner {R : StateId → Set StateId → Prop} (h : d.WellFormed)
    (htracks : d.unjoined.Tracks d.mergeStates.grammar d R) :
    d.toScanner.1.Tracks d.toScanner.2 d R :=
  htracks.congr (joins_toScanner h).1 (fun s => ((joins_toScanner h).2 s).1) fun s =>
    ((joins_toScanner h).2 s).2

/-- The scanner of a machine tracks it, and all that is reported on the way are errors. -/
theorem exists_tracks_toScanner (h : d.WellFormed) :
    (∃ R, d.toScanner.1.Tracks d.toScanner.2 d R) ∧
      ∃ errors, d.toScanner.2.diags = d.grammar.diags ++ errors ∧
        ∀ diag ∈ errors, diag.severity = .error := by
  obtain ⟨behind, hdet⟩ := mergeStates_spec h
  have htracks := (Scanner.tracks_ofMachine hdet).dropRedundant (closed_ofMachine hdet.wellFormed)
  refine ⟨⟨_, tracks_toScanner h htracks⟩, ?_⟩
  rw [(joins_toScanner h).1]
  exact hdet.diags_eq

/-- The scanner runs along exactly the texts along which the machine can go.  Unless tokens cannot be
told apart, it then recognises exactly what the machine can recognise. -/
theorem Built.run_toScanner (h : d.Built) (w : List Char) :
    ((d.toScanner.1.run Scanner.start w).isSome = true ↔
      ∃ s, d.Leads Machine.start (w.map Char.toNat) s) ∧
    (d.toScanner.2.diags.errors = d.grammar.diags.errors →
      ∀ q, d.toScanner.1.run Scanner.start w = some q →
        ∀ tok, (d.toScanner.1.state q).endOf = some tok ↔
          ∃ s, d.Leads Machine.start (w.map Char.toNat) s ∧
            (d.machine.state s).endOf = some tok) := by
  obtain ⟨⟨R, htracks⟩, errors, hdiags, herrors⟩ := exists_tracks_toScanner h.sound.wellFormed
  obtain ⟨hdefined, hstate⟩ := htracks.run (fun _ _ => triggers_toScanner) htracks.start w
  have hmem : ∀ x, x ∈ Scanner.afterText d (w.map Char.toNat) {Machine.start} ↔
      d.Leads Machine.start (w.map Char.toNat) x := by
    intro x
    simp [Scanner.afterText]
  constructor
  · rw [hdefined]
    exact exists_congr hmem
  · intro hcount q hq tok
    -- only errors are added, so without further errors nothing is
    have hnone : errors = [] := by
      have hzero : errors.countP (·.severity == .error) = 0 := by
        simp only [Diagnostics.errors, hdiags, List.countP_append] at hcount
        omega
      refine List.eq_nil_iff_forall_not_mem.2 fun diag hd => ?_
      simpa [herrors diag hd] using List.countP_eq_zero.1 hzero diag hd
    have hclean : d.toScanner.2.diags = d.grammar.diags := by
      rw [hdiags, hnone, List.append_nil]
    rw [htracks.endOf_iff hclean (hstate q hq) tok]
    exact exists_congr fun x => and_congr_left fun _ => hmem x

/-- The machine without tokens and the grammar without declarations. -/
theorem fit_initial : Grammar.initial.Fit 1 := by
  refine ⟨fun id => ?_, fun p id part hkind => ?_, fun p s hs => ?_⟩
  · exact CharSet.canonical_empty
  · cases hkind
  · cases hs

/-- A literal is recognised by the scanner of its path. -/
theorem Built.run_toScanner_literal :
    let d := (⟨.initial, .initial⟩ : Draft).addLiteral "\"ab\"" 0
    d.Built ∧ ∀ q, d.toScanner.1.run Scanner.start ['a', 'b'] = some q →
      (d.toScanner.1.state q).endOf = some 0 := by
  have hbuilt := (Built.initial fit_initial).literal "\"ab\"" 0
  refine ⟨hbuilt, fun q hq => ((hbuilt.run_toScanner ['a', 'b']).2 ?_ q hq 0).2 ⟨2, ?_, ?_⟩⟩
  · decide +kernel
  · refine ⟨1, ⟨⟨.char 97, .main, .singleton 1⟩, ?_, rfl, ?_⟩, 2,
      ⟨⟨.char 98, .main, .singleton 2⟩, ?_, rfl, ?_⟩, rfl⟩
    · decide +kernel
    · exact BitSet.mem_singleton.2 rfl
    · decide +kernel
    · exact BitSet.mem_singleton.2 rfl
  · decide +kernel

end Draft

end Ebnf
