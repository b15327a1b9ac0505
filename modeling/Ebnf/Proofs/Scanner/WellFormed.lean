import Mathlib.Data.List.Nodup
import Mathlib.Logic.Relation
import Ebnf.Proofs.Scanner.Literals

/-!
# Finished scanners are well formed

A finished scanner is deterministic and has no redundant parts: the shifts of a
state have disjoint characters and differ in where or how they lead, states are
numbered by their index and can be reached, and no two plain ends recognise the
same token.  Each pass that makes a scanner keeps what the earlier ones have
established.  Disjointness is carried as the absence of a character that can be
taken in two ways, because joining shifts changes the characters of each but
not the ways in which a character is taken.

Main results:

- Theorem `Scanner.joinShifts_eq`: what joining to one shift takes away, and on which
  characters the joined shift is taken.
- Theorem `Scanner.mergeAllShifts_condenses`: the joined shifts of every state differ
  in their ways and are taken on the same characters as before.
- Theorem `Scanner.exists_used_renumber` and `Scanner.reaches_renumber`: the states that
  stay have all numbers and can still be reached.
- Theorem `Draft.Built.wellFormed_toScanner`: the scanner of every machine that
  declarations build is well formed.
-/

namespace Ebnf

/-- Two shifts lead to the same state in the same way. -/
def Shift.SameWay (a b : Shift) : Prop :=
  a.target = b.target ∧ a.part = b.part

instance (a b : Shift) : Decidable (a.SameWay b) :=
  inferInstanceAs (Decidable (_ ∧ _))

theorem Shift.SameWay.symm {a b : Shift} (h : a.SameWay b) : b.SameWay a :=
  ⟨h.1.symm, h.2.symm⟩

theorem Shift.SameWay.trans {a b c : Shift} (h : a.SameWay b) (h' : b.SameWay c) : a.SameWay c :=
  ⟨h.1.trans h'.1, h.2.trans h'.2⟩

namespace Scanner

variable {sc : Scanner} {g g' : Grammar} {d : Draft} {s t : StateId} {c : Nat} {part : Part}
  {ss ss' : List Shift}

/-! ## The conditions -/

/-- Some shift of one state leads to another one. -/
def Links (sc : Scanner) (s t : StateId) : Prop :=
  ∃ shift ∈ (sc.state s).shifts, shift.target = t

/-- Nothing but the token distinguishes a state from other ends. -/
def Ends (sc : Scanner) (s : StateId) (tok : SymbolId) : Prop :=
  (sc.state s).endOf = some tok ∧ (sc.state s).shifts = [] ∧ (sc.state s).context = false

/-- What every finished scanner satisfies. -/
structure WellFormed (sc : Scanner) : Prop where
  /-- the shifts of a state have disjoint characters -/
  disjoint : ∀ s, (sc.state s).shifts.Pairwise fun a b =>
    ∀ c, ¬ (c ∈ sc.triggerSet a.on ∧ c ∈ sc.triggerSet b.on)
  /-- the shifts of a state differ in their targets or in their parts -/
  distinct : ∀ s, (sc.state s).shifts.Pairwise fun a b => ¬ (a.target = b.target ∧ a.part = b.part)
  target_lt : ∀ s, ∀ shift ∈ (sc.state s).shifts, shift.target < sc.states.size
  class_lt : ∀ s, ∀ shift ∈ (sc.state s).shifts, ∀ id, shift.on = .cls id → id < sc.classes.size
  number_eq : ∀ s < sc.states.size, (sc.state s).number = s
  /-- every state can be reached -/
  reachable : ∀ s < sc.states.size, Relation.ReflTransGen sc.Links start s
  /-- no two states are plain ends of the same token -/
  ends_unique : ∀ s t tok, sc.Ends s tok → sc.Ends t tok → s = t

theorem triggers_iff {on : Trigger} : sc.triggers on c = true ↔ c ∈ sc.triggerSet on := by
  cases on with
  | cls id => rfl
  | char b => rw [triggers, triggerSet, CharSet.mem_singleton, beq_iff_eq, eq_comm]

/-! ## Ways -/

/-- Some shift of a list leads to a state in some way. -/
def HasWay (ss : List Shift) (t : StateId) (part : Part) : Prop :=
  ∃ shift ∈ ss, shift.target = t ∧ shift.part = part

/-- Some shift of a list leads to a state in some way on a character. -/
def Takes (g : Grammar) (ss : List Shift) (c : Nat) (t : StateId) (part : Part) : Prop :=
  ∃ shift ∈ ss, g.triggers shift.on c = true ∧ shift.target = t ∧ shift.part = part

/-- Every character is taken in one way at most. -/
def Determined (g : Grammar) (ss : List Shift) : Prop :=
  ∀ {c t t' part part'}, Takes g ss c t part → Takes g ss c t' part' → t = t' ∧ part = part'

@[simp]
theorem hasWay_cons {a : Shift} :
    HasWay (a :: ss) t part ↔ (a.target = t ∧ a.part = part) ∨ HasWay ss t part := by
  simp only [HasWay, List.mem_cons, exists_eq_or_imp]

@[simp]
theorem takes_cons {a : Shift} :
    Takes g (a :: ss) c t part ↔
      (g.triggers a.on c = true ∧ a.target = t ∧ a.part = part) ∨ Takes g ss c t part := by
  simp only [Takes, List.mem_cons, exists_eq_or_imp]

theorem takes_grows (h : g.Grows g') (hss : ∀ shift ∈ ss, g.Knows shift.on) :
    Takes g' ss c t part ↔ Takes g ss c t part := by
  refine exists_congr fun shift => and_congr_right fun hmem => ?_
  rw [h.triggers_eq (hss shift hmem)]

/-- Where no character is taken in two ways, shifts that differ in their ways are disjoint. -/
theorem Determined.disjoint (h : Determined g ss)
    (hdistinct : ss.Pairwise fun a b => ¬ a.SameWay b) :
    ss.Pairwise fun a b => ∀ c, ¬ (g.triggers a.on c = true ∧ g.triggers b.on c = true) := by
  refine hdistinct.imp_of_mem fun {a b} ha hb hne c hc => hne ?_
  exact h ⟨a, ha, hc.1, rfl, rfl⟩ ⟨b, hb, hc.2, rfl, rfl⟩

/-- Disjoint shifts take no character in two ways. -/
theorem determined_of_disjoint
    (h : ss.Pairwise fun a b => ∀ c, ¬ (g.triggers a.on c = true ∧ g.triggers b.on c = true)) :
    Determined g ss := by
  rintro c _ _ _ _ ⟨a, ha, hac, rfl, rfl⟩ ⟨b, hb, hbc, rfl, rfl⟩
  have hsymm : Std.Symm fun a b : Shift =>
      ∀ c, ¬ (g.triggers a.on c = true ∧ g.triggers b.on c = true) :=
    ⟨fun _ _ h c hc => h c hc.symm⟩
  have heq : a = b := by
    by_contra hne
    exact List.Pairwise.forall h ha hb hne c ⟨hac, hbc⟩
  exact heq ▸ ⟨rfl, rfl⟩

/-! ## From machines -/

theorem disjoint_ofMachineState {st : MachineState} (h : g.Separated st.moves) :
    (ofMachineState s st).shifts.Pairwise fun a b =>
      ∀ c, ¬ (g.triggers a.on c = true ∧ g.triggers b.on c = true) := by
  rw [ofMachineState]
  have hperm := List.filter_append_perm (fun shift : Shift => shift.on.isClass)
    (st.moves.filterMap fun m => m.targets.min?.map fun target =>
      { on := m.on, part := m.part, target : Shift })
  refine (hperm.pairwise_iff ?_).2 (List.pairwise_filterMap.2 (h.imp ?_))
  · exact fun h c hc => h c hc.symm
  · intro m n hmn a ha b hb
    obtain ⟨_, _, rfl⟩ := Option.map_eq_some_iff.1 ha
    obtain ⟨_, _, rfl⟩ := Option.map_eq_some_iff.1 hb
    exact hmn

/-! ## Dropping states -/

theorem nodup_kept : sc.kept.Nodup :=
  ((List.nodup_range).filter _).filter _

theorem size_dropRedundant : sc.dropRedundant.states.size = sc.kept.length := by
  rw [states_dropRedundant, List.size_toArray, List.length_map]

/-- Every number is that of a state that stays. -/
theorem exists_used_renumber {i : StateId} (hi : i < sc.dropRedundant.states.size) :
    ∃ s ∈ sc.used, sc.representative sc.ends s = s ∧ sc.renumber s = i := by
  rw [size_dropRedundant] at hi
  obtain ⟨hused, hrep⟩ := List.mem_filter.1 (List.getElem_mem hi)
  have hrep := beq_iff_eq.1 hrep
  refine ⟨sc.kept[i], hused, hrep, ?_⟩
  rw [renumber, hrep, nodup_kept.idxOf_getElem]

theorem renumber_lt (hs : s ∈ sc.used) : sc.renumber s < sc.dropRedundant.states.size := by
  rw [size_dropRedundant]
  exact List.idxOf_lt_length_iff.2 (representative_spec hs).1

theorem lt_of_mem_used (hs : s ∈ sc.used) : s < sc.states.size :=
  List.mem_range.1 (List.mem_filter.1 hs).1

/-- The states that can be reached can be reached under their new numbers. -/
theorem reaches_renumber (h : sc.Closed) (hs : s ∈ sc.used) :
    Relation.ReflTransGen sc.dropRedundant.Links start (sc.renumber s) := by
  have hreached := mem_used.1 hs
  clear hs
  induction hreached with
  | root hmem _ =>
    rw [List.mem_singleton.1 hmem, renumber_start h]
  | step hp hq _ ih =>
    refine ih.tail ?_
    obtain ⟨shift, hshift, rfl⟩ := List.mem_map.1 hq
    refine ⟨{ shift with target := sc.renumber shift.target }, ?_, rfl⟩
    rw [state_shifts_dropRedundant (mem_used.2 hp)]
    exact List.mem_map_of_mem hshift

/-- A start state without shifts is the only state that can be reached. -/
theorem eq_start_of_mem_used (hstart : (sc.state start).shifts = []) (hs : s ∈ sc.used) :
    s = start := by
  have hreached := mem_used.1 hs
  clear hs
  induction hreached with
  | root hmem _ => exact List.mem_singleton.1 hmem
  | step _ hq _ ih =>
    rw [ih, hstart] at hq
    cases hq

theorem Ends.lt_size {tok : SymbolId} (h : sc.Ends s tok) : s < sc.states.size := by
  by_contra hge
  rw [Ends, state_eq_default hge] at h
  cases h.1

/-- Of the plain ends of a token only one stays. -/
theorem ends_unique_dropRedundant {i j : StateId} {tok : SymbolId}
    (hi : sc.dropRedundant.Ends i tok) (hj : sc.dropRedundant.Ends j tok) : i = j := by
  -- what is said of a number holds of the state that has got it
  have hends : ∀ {i}, sc.dropRedundant.Ends i tok → ∃ s ∈ sc.used,
      sc.representative sc.ends s = s ∧ sc.renumber s = i ∧ sc.Ends s tok := by
    intro i h
    obtain ⟨s, hs, hrep, rfl⟩ := exists_used_renumber h.lt_size
    rw [Ends, state_dropRedundant hs, hrep] at h
    exact ⟨s, hs, hrep, rfl, h.1, List.map_eq_nil_iff.1 h.2.1, h.2.2⟩
  obtain ⟨s, hs, hreps, rfl, hsend⟩ := hends hi
  obtain ⟨t, ht, hrept, rfl, htend⟩ := hends hj
  by_cases hstart : s = start ∨ t = start
  · -- then there is no other state
    have hnil : (sc.state start).shifts = [] := by
      rcases hstart with rfl | rfl
      · exact hsend.2.1
      · exact htend.2.1
    rw [eq_start_of_mem_used hnil hs, eq_start_of_mem_used hnil ht]
  · obtain ⟨hs0, ht0⟩ := not_or.1 hstart
    have hplain : ∀ {u}, u ≠ start → sc.Ends u tok → sc.isPlainEnd u = true := by
      intro u hu h
      simp [isPlainEnd, hu, h.1, h.2.1, h.2.2]
    have hsame : sc.representative sc.ends s = sc.representative sc.ends t := by
      have hsome : ∀ {u}, u ∈ sc.used → sc.isPlainEnd u = true → sc.Ends u tok →
          (sc.ends.find? fun v => (sc.state v).endOf == some tok).isSome = true := by
        intro u hu hplainu h
        exact List.find?_isSome.2 ⟨u, List.mem_filter.2 ⟨hu, hplainu⟩, by simp [h.1]⟩
      obtain ⟨v, hv⟩ := Option.isSome_iff_exists.1 (hsome hs (hplain hs0 hsend) hsend)
      rw [representative, representative, if_pos (hplain hs0 hsend), if_pos (hplain ht0 htend),
        hsend.1, htend.1, hv]
      rfl
    rw [← hreps, ← hrept, hsame]

/-! ## Joining shifts -/

/-- Joining to a shift takes away all that lead to the same state in the same way; the joined shift
is taken on the characters of all of them. -/
theorem joinShifts_eq {a : Shift} (hg : g.CanonicalClasses)
    (hss : ∀ shift ∈ a :: ss, g.Knows shift.on) :
    let r := joinShifts g a ss
    r.1.SameWay a ∧ r.2.1 = ss.filter (fun b => ¬ a.SameWay b) ∧
      ∀ c, r.2.2.triggers r.1.on c = true ↔
        g.triggers a.on c = true ∨ ∃ b ∈ ss, a.SameWay b ∧ g.triggers b.on c = true := by
  induction ss generalizing a g with
  | nil => exact ⟨⟨rfl, rfl⟩, rfl, fun c => by simp [joinShifts]⟩
  | cons b ss ih =>
    rw [joinShifts]
    split
    next hsame =>
      have hway : a.SameWay b := hsame
      have hon := Grammar.triggerFor_spec hg
        ((Grammar.canonical_triggerSet hg a.on).union (g.triggerSet b.on))
      have hpair := rejoins_pair hg hss hsame.1 hon
      obtain ⟨hrway, hrest, htriggers⟩ := ih hpair.canonical hpair.knows
      simp only [List.forall_mem_cons] at hss
      refine ⟨hrway, ?_, fun c => (htriggers c).trans ?_⟩
      · rw [List.filter_cons_of_neg (by simpa using hway)]
        exact hrest
      · have hjoined : (∃ other ∈ ss, a.SameWay other ∧
              (g.triggerFor ((g.triggerSet a.on).union (g.triggerSet b.on))).2.triggers
                other.on c = true) ↔
            ∃ other ∈ ss, a.SameWay other ∧ g.triggers other.on c = true := by
          refine exists_congr fun other => and_congr_right fun hmem => ?_
          rw [hon.grows.triggers_eq (hss.2.2 other hmem)]
        rw [Grammar.triggers_iff, hon.triggerSet_eq,
          CharSet.mem_union (Grammar.canonical_triggerSet hg a.on), ← Grammar.triggers_iff,
          ← Grammar.triggers_iff, or_assoc]
        simp only [List.mem_cons, exists_eq_or_imp, hway, true_and]
        exact or_congr_right (or_congr_right hjoined)
    next hother =>
      have hnot : ¬ a.SameWay b := hother
      simp only [List.forall_mem_cons] at hss
      obtain ⟨hway, hrest, htriggers⟩ := ih hg (List.forall_mem_cons.2 ⟨hss.1, hss.2.2⟩)
      refine ⟨hway, ?_, fun c => (htriggers c).trans ?_⟩
      · rw [List.filter_cons_of_pos (by simpa using hnot)]
        exact congrArg (b :: ·) hrest
      · simp [hnot]

/-- Other shifts that differ in their ways, for which more classes are declared, are taken in the
same ways on the same characters. -/
structure Condenses (g : Grammar) (ss : List Shift) (g' : Grammar) (ss' : List Shift) : Prop where
  distinct : ss'.Pairwise fun a b => ¬ a.SameWay b
  hasWay_iff : ∀ t part, HasWay ss' t part ↔ HasWay ss t part
  takes_iff : ∀ c t part, Takes g' ss' c t part ↔ Takes g ss c t part

theorem Condenses.nil : Condenses g [] g' [] where
  distinct := .nil
  hasWay_iff _ _ := Iff.rfl
  takes_iff _ _ _ := by simp [Takes]

theorem Condenses.eq_nil_iff (h : Condenses g ss g' ss') : ss' = [] ↔ ss = [] := by
  have hsome : ∀ ss : List Shift, ss ≠ [] ↔ ∃ t part, HasWay ss t part := by
    intro ss
    cases ss with
    | nil => simp [HasWay]
    | cons a ss => exact iff_of_true (List.cons_ne_nil a ss) ⟨_, _, a, by simp, rfl, rfl⟩
  rw [← not_iff_not, ← ne_eq, ← ne_eq, hsome, hsome]
  simp only [h.hasWay_iff]

/-- The ways of a list are those of its first shift and those of the shifts that differ. -/
theorem hasWay_filter {a r : Shift} (hr : r.SameWay a) :
    HasWay (r :: ss.filter fun b => ¬ a.SameWay b) t part ↔ HasWay (a :: ss) t part := by
  rw [hasWay_cons, hasWay_cons, hr.1, hr.2]
  constructor
  · rintro (h | ⟨b, hb, hway⟩)
    · exact .inl h
    · exact .inr ⟨b, (List.mem_filter.1 hb).1, hway⟩
  · rintro (h | ⟨b, hb, hway⟩)
    · exact .inl h
    · by_cases hsame : a.SameWay b
      · exact .inl ⟨hsame.1.trans hway.1, hsame.2.trans hway.2⟩
      · exact .inr ⟨b, List.mem_filter.2 ⟨hb, by simpa using hsame⟩, hway⟩

/-- A shift that is taken on the characters of all with its way takes their place. -/
theorem takes_filter {a r : Shift} (hr : r.SameWay a) (hgrows : g.Grows g')
    (hss : ∀ shift ∈ ss, g.Knows shift.on)
    (htriggers : g'.triggers r.on c = true ↔
      g.triggers a.on c = true ∨ ∃ b ∈ ss, a.SameWay b ∧ g.triggers b.on c = true) :
    Takes g' (r :: ss.filter fun b => ¬ a.SameWay b) c t part ↔ Takes g (a :: ss) c t part := by
  rw [takes_cons, takes_cons, htriggers, hr.1, hr.2]
  constructor
  · rintro (⟨ha | ⟨b, hb, hsame, hbc⟩, hway⟩ | ⟨b, hb, hbc, hway⟩)
    · exact .inl ⟨ha, hway⟩
    · exact .inr ⟨b, hb, hbc, hsame.1.symm.trans hway.1, hsame.2.symm.trans hway.2⟩
    · have hmem := (List.mem_filter.1 hb).1
      exact .inr ⟨b, hmem, hgrows.triggers_eq (hss b hmem) c ▸ hbc, hway⟩
  · rintro (⟨ha, hway⟩ | ⟨b, hb, hbc, hway⟩)
    · exact .inl ⟨.inl ha, hway⟩
    · by_cases hsame : a.SameWay b
      · exact .inl ⟨.inr ⟨b, hb, hsame, hbc⟩, hsame.1.trans hway.1, hsame.2.trans hway.2⟩
      · refine .inr ⟨b, List.mem_filter.2 ⟨hb, by simpa using hsame⟩, ?_, hway⟩
        rw [hgrows.triggers_eq (hss b hb)]
        exact hbc

/-- With fuel for every shift, all that lead to the same state in the same way are joined. -/
theorem mergeShiftsWithin_condenses (fuel : Nat) (hfuel : ss.length ≤ fuel)
    (hg : g.CanonicalClasses) (hss : ∀ shift ∈ ss, g.Knows shift.on) :
    Condenses g ss (mergeShiftsWithin g fuel ss).2 (mergeShiftsWithin g fuel ss).1 := by
  induction fuel generalizing ss g with
  | zero =>
    obtain rfl := List.length_eq_zero_iff.1 (Nat.le_zero.1 hfuel)
    exact .nil
  | succ fuel ih =>
    cases ss with
    | nil => exact .nil
    | cons a ss =>
      have hjoin := joinShifts_spec hg hss
      have heq := joinShifts_eq hg hss
      rw [mergeShiftsWithin]
      generalize joinShifts g a ss = r at hjoin heq ⊢
      obtain ⟨a', rest, g'⟩ := r
      obtain ⟨hway, rfl, htriggers⟩ := heq
      obtain ⟨ha', hrest⟩ := List.forall_mem_cons.1 hjoin.knows
      have hlen : (ss.filter fun b => ¬ a.SameWay b).length ≤ fuel :=
        (List.length_filter_le _ _).trans (Nat.le_of_succ_le_succ hfuel)
      have hmerge := ih hlen hjoin.canonical hrest
      have hgrows := (mergeShiftsWithin_spec fuel hjoin.canonical hrest).grows
      refine ⟨List.pairwise_cons.2 ⟨fun b hb hsame => ?_, hmerge.distinct⟩, fun t part => ?_,
        fun c t part => ?_⟩
      · -- what is left leads elsewhere or in another way
        obtain ⟨b', hb', htarget, hpart⟩ := (hmerge.hasWay_iff _ _).1 ⟨b, hb, rfl, rfl⟩
        have hnot : ¬ a.SameWay b' := by simpa using (List.mem_filter.1 hb').2
        exact hnot (hway.symm.trans (hsame.trans ⟨htarget.symm, hpart.symm⟩))
      · rw [hasWay_cons, hmerge.hasWay_iff, ← hasWay_cons, hasWay_filter hway]
      · rw [takes_cons, hmerge.takes_iff, hgrows.triggers_eq ha', ← takes_cons]
        exact takes_filter hway hjoin.grows (List.forall_mem_cons.1 hss).2 (htriggers c)

/-- Joining the shifts of all states changes nothing but the shifts of each, which then differ in
their ways. -/
theorem mergeAllShifts_condenses {sts : List ScannerState} (hg : g.CanonicalClasses)
    (hsts : ∀ st ∈ sts, ∀ shift ∈ st.shifts, g.Knows shift.on) :
    let r := mergeAllShifts g sts
    g.Grows r.2 ∧ r.1.length = sts.length ∧ ∀ (i : Nat) (st : ScannerState), sts[i]? = some st →
      ∃ shifts, r.1[i]? = some { st with shifts } ∧ Condenses g st.shifts r.2 shifts ∧
        ∀ shift ∈ shifts, r.2.Knows shift.on := by
  induction sts generalizing g with
  | nil => exact ⟨.refl g, rfl, fun i st hi => by simp at hi⟩
  | cons st sts ih =>
    obtain ⟨hst, hsts⟩ := List.forall_mem_cons.1 hsts
    have hmerge := mergeShiftsWithin_spec st.shifts.length hg hst
    have hcondenses := mergeShiftsWithin_condenses st.shifts.length (Nat.le_refl _) hg hst
    obtain ⟨hgrows, hlen, hrest⟩ := ih hmerge.canonical fun st' hmem shift hshift =>
      hmerge.grows.knows (hsts st' hmem shift hshift)
    refine ⟨hmerge.grows.trans hgrows, congrArg Nat.succ hlen, fun i found hi => ?_⟩
    cases i with
    | zero =>
      obtain rfl : st = found := by simpa using hi
      refine ⟨_, rfl, ⟨hcondenses.distinct, hcondenses.hasWay_iff, fun c t part => ?_⟩, ?_⟩
      · exact (takes_grows hgrows hmerge.knows).trans (hcondenses.takes_iff c t part)
      · exact fun shift hshift => hgrows.knows (hmerge.knows shift hshift)
    | succ i =>
      have hi' : sts[i]? = some found := by simpa using hi
      obtain ⟨shifts, hget, hcond, hknows⟩ := hrest i found hi'
      refine ⟨shifts, hget, ⟨hcond.distinct, hcond.hasWay_iff, fun c t part => ?_⟩, hknows⟩
      refine (hcond.takes_iff c t part).trans ?_
      exact takes_grows hmerge.grows (hsts found (List.mem_of_getElem? hi'))

end Scanner

/-! ## The scanner of a machine -/

namespace Draft

variable {d : Draft} {s : StateId}

theorem size_classes_toScanner : d.toScanner.1.classes.size = d.toScanner.2.classes.size := by
  obtain ⟨sc, hsc⟩ := d.exists_withTables
  rw [hsc, Scanner.withTables, Array.size_map]

/-- Joining shifts is the last change of a state. -/
theorem state_toScanner (h : d.WellFormed) :
    d.toScanner.1.states.size = d.unjoined.states.size ∧
      ∀ s, ∃ shifts, d.toScanner.1.state s = { d.unjoined.state s with shifts } ∧
        Scanner.Condenses d.mergeStates.grammar (d.unjoined.state s).shifts d.toScanner.2 shifts ∧
        ∀ shift ∈ shifts, d.toScanner.2.Knows shift.on := by
  obtain ⟨behind, hdet⟩ := mergeStates_spec h
  obtain ⟨_, hlen, hstates⟩ :=
    Scanner.mergeAllShifts_condenses hdet.wellFormed.canonical (knows_unjoined h)
  have hsize : d.toScanner.1.states.size = d.unjoined.states.size := by
    rw [toScanner_eq, Scanner.size_withStates, hlen, Array.length_toList]
  refine ⟨hsize, fun s => ?_⟩
  by_cases hs : s < d.unjoined.states.size
  · have hold : d.unjoined.states.toList[s]? = some (d.unjoined.state s) := by
      simp [Scanner.state, hs]
    obtain ⟨shifts, hnew, hcond⟩ := hstates s _ hold
    refine ⟨shifts, ?_, ?_⟩
    · rw [toScanner_eq, Scanner.state_withStates, hnew, Option.getD_some]
    · rw [toScanner_eq]
      exact hcond
  · have hs' : ¬ s < d.toScanner.1.states.size := by rwa [hsize]
    rw [Scanner.state_eq_default hs, Scanner.state_eq_default hs']
    exact ⟨[], rfl, .nil, fun _ hshift => (List.not_mem_nil hshift).elim⟩

theorem links_toScanner (h : d.WellFormed) : d.toScanner.1.Links = d.unjoined.Links := by
  funext s t
  obtain ⟨shifts, heq, hcond, _⟩ := (state_toScanner h).2 s
  have hlinks : ∀ {ss : List Shift}, (∃ shift ∈ ss, shift.target = t) ↔
      ∃ part, Scanner.HasWay ss t part := by
    intro ss
    constructor
    · rintro ⟨shift, hshift, htarget⟩
      exact ⟨shift.part, shift, hshift, htarget, rfl⟩
    · rintro ⟨_, shift, hshift, htarget, _⟩
      exact ⟨shift, hshift, htarget⟩
  rw [Scanner.Links, Scanner.Links, heq, hlinks, hlinks]
  simp only [hcond.hasWay_iff]

theorem ends_toScanner (h : d.WellFormed) {tok : SymbolId} :
    d.toScanner.1.Ends s tok ↔ d.unjoined.Ends s tok := by
  obtain ⟨shifts, heq, hcond, _⟩ := (state_toScanner h).2 s
  rw [Scanner.Ends, Scanner.Ends, heq, ← hcond.eq_nil_iff]

/-- A state that stays has the index that it has got as its number. -/
theorem number_unjoined (h : d.WellFormed) (hs : s < d.unjoined.states.size) :
    (d.unjoined.state s).number = s := by
  obtain ⟨behind, hdet⟩ := mergeStates_spec h
  obtain ⟨u, hu, hrep, rfl⟩ := Scanner.exists_used_renumber hs
  have hlt : u < d.mergeStates.machine.states.size := by
    simpa [Scanner.ofMachine] using Scanner.lt_of_mem_used hu
  rw [unjoined, Scanner.state_dropRedundant hu, hrep, Scanner.state_ofMachine hlt]
  rfl

/-- Before shifts are joined they lead to states that there are, and no character is taken in two
ways. -/
theorem shifts_unjoined (h : d.WellFormed) :
    (∀ shift ∈ (d.unjoined.state s).shifts, shift.target < d.unjoined.states.size) ∧
      Scanner.Determined d.mergeStates.grammar (d.unjoined.state s).shifts := by
  by_cases hs : s < d.unjoined.states.size
  · obtain ⟨behind, hdet⟩ := mergeStates_spec h
    obtain ⟨u, hu, _, rfl⟩ := Scanner.exists_used_renumber hs
    have hlt : u < d.mergeStates.machine.states.size := by
      simpa [Scanner.ofMachine] using Scanner.lt_of_mem_used hu
    rw [unjoined, Scanner.state_shifts_dropRedundant hu]
    constructor
    · intro shift hshift
      obtain ⟨old, hold, rfl⟩ := List.mem_map.1 hshift
      exact Scanner.renumber_lt
        (Scanner.target_mem_used (closed_ofMachine hdet.wellFormed) hu hold)
    · rw [Scanner.state_ofMachine hlt]
      refine Scanner.determined_of_disjoint (List.pairwise_map.2 ?_)
      exact Scanner.disjoint_ofMachineState (hdet.separated u hlt)
  · rw [Scanner.state_eq_default hs]
    exact ⟨fun _ hshift => (List.not_mem_nil hshift).elim, Scanner.determined_of_disjoint .nil⟩

/-- Every state that stays can be reached. -/
theorem reachable_unjoined (h : d.WellFormed) (hs : s < d.unjoined.states.size) :
    Relation.ReflTransGen d.unjoined.Links Scanner.start s := by
  obtain ⟨behind, hdet⟩ := mergeStates_spec h
  obtain ⟨u, hu, _, rfl⟩ := Scanner.exists_used_renumber hs
  exact Scanner.reaches_renumber (closed_ofMachine hdet.wellFormed) hu

/-- The scanner of every machine that declarations build is well formed. -/
theorem Built.wellFormed_toScanner (h : d.Built) : d.toScanner.1.WellFormed := by
  have hwf := h.sound.wellFormed
  obtain ⟨hsize, hstates⟩ := state_toScanner hwf
  refine ⟨fun s => ?_, fun s => ?_, fun s shift hshift => ?_, fun s shift hshift id hid => ?_,
    fun s hs => ?_, fun s hs => ?_, fun s t tok hs ht => ?_⟩
  · obtain ⟨shifts, heq, hcond, _⟩ := hstates s
    have hdetermined : Scanner.Determined d.toScanner.2 shifts := by
      intro c t t' part part' ht ht'
      rw [hcond.takes_iff] at ht ht'
      exact (shifts_unjoined hwf).2 ht ht'
    rw [heq]
    refine (hdetermined.disjoint hcond.distinct).imp fun hab c => ?_
    rw [← Scanner.triggers_iff, ← Scanner.triggers_iff, triggers_toScanner, triggers_toScanner]
    exact hab c
  · obtain ⟨shifts, heq, hcond, _⟩ := hstates s
    rw [heq]
    exact hcond.distinct
  · obtain ⟨shifts, heq, hcond, _⟩ := hstates s
    rw [heq] at hshift
    obtain ⟨old, hold, htarget, _⟩ := (hcond.hasWay_iff _ _).1 ⟨shift, hshift, rfl, rfl⟩
    rw [hsize, ← htarget]
    exact (shifts_unjoined hwf).1 old hold
  · obtain ⟨shifts, heq, _, hknows⟩ := hstates s
    rw [heq] at hshift
    have hlt : id < d.toScanner.2.classes.size := by
      simpa [hid, Grammar.Knows] using hknows shift hshift
    rwa [size_classes_toScanner]
  · obtain ⟨shifts, heq, _, _⟩ := hstates s
    rw [hsize] at hs
    simp only [heq, number_unjoined hwf hs]
  · rw [hsize] at hs
    rw [links_toScanner hwf]
    exact reachable_unjoined hwf hs
  · rw [ends_toScanner hwf] at hs ht
    exact Scanner.ends_unique_dropRedundant hs ht

/-- Identifiers, and a literal that begins like one. -/
def crossed : Draft :=
  ((⟨.initial, words⟩ : Draft).addLiteral "\"i/\"" 3).addToken 0 1

/-- The start state of the example has two shifts on letters, and a state of its own behind `i`. -/
theorem Built.wellFormed_toScanner_crossed :
    crossed.Built ∧ crossed.toScanner.1.states.size = 4 ∧
      (crossed.toScanner.1.state Scanner.start).shifts.length = 2 ∧
      crossed.toScanner.1.WellFormed := by
  have hbuilt : crossed.Built := ((Built.initial fit_words).literal "\"i/\"" 3).token 0 1
  exact ⟨hbuilt, by decide +kernel, by decide +kernel, hbuilt.wellFormed_toScanner⟩

end Draft

end Ebnf
