import Ebnf.Proofs.Check.Arms

/-!
# Where resolvers stand

A leaf of a production begins an arm of an alternative, begins the contents of an option
or iteration, or stands elsewhere.  What is said about a resolver depends on its spot:
in front of an arm it is compared with the other arms, in front of the contents of a
structure with what follows the structure, and elsewhere there is nothing to resolve.

An arm that begins with a resolver is compared only with arms that do not.  So where a
resolver stands in front of each of two arms that begin with the same terminal, both
resolvers are said to be misplaced.

Main results:

- Theorem `Phrase.sublist_spots`: a leaf has one spot only.
- Theorem `Grammar.Shows.findsDue`: the search over an outline finds what is due at each
  spot.
- Theorem `Grammar.Composed.runCheck_misplacedResolvers`: after the analyses, the check
  reports for each resolver what is due at its spot, and nothing else.
- Theorem `Grammar.not_lookahead_apart_resolving`: resolvers in front of two arms that
  begin with the same terminal are both said to be misplaced.
-/

namespace Ebnf

/-- Where a leaf stands. -/
inductive Spot
  /-- at the beginning of an arm; the contents of the arms in front of it, and of all arms -/
  | arm (before all : List Phrase)
  /-- at the beginning of the contents of an option or iteration -/
  | group (p : NodeId)
  | elsewhere
  deriving DecidableEq, Repr

/-- Whether something begins at a spot. -/
def Spot.begins : Spot → Bool
  | elsewhere => false
  | _ => true

namespace Phrase

mutual

/-- The leaves of a phrase that stands at a spot, and their spots. -/
def spots (spot : Spot) : Phrase → List (NodeId × Spot)
  | leaf p => [(p, spot)]
  | seq a b => a.spots spot ++ b.spots .elsewhere
  | arm _ e => e.spots (.arm [] [e])
  | alt _ e r => e.spots (.arm [] (e :: r.bodies)) ++ r.armSpots [e] (e :: r.bodies)
  | opt p e | iter p e => e.spots (.group p)

/-- The leaves of the further arms of an alternative, and their spots. -/
def armSpots (before all : List Phrase) : Phrase → List (NodeId × Spot)
  | arm _ e => e.spots (.arm before all)
  | alt _ e r => e.spots (.arm before all) ++ r.armSpots (before ++ [e]) all
  | _ => []

end

/-- The leaves come in the order of the nodes, each with one spot. -/
theorem sublist_spots (e : Phrase) :
    (∀ spot, ((e.spots spot).map Prod.fst).Sublist e.nodes) ∧
      ∀ before all, ((e.armSpots before all).map Prod.fst).Sublist e.nodes := by
  induction e with
  | leaf p => exact ⟨fun _ => .refl _, fun _ _ => List.nil_sublist _⟩
  | seq a b iha ihb =>
    refine ⟨fun spot => ?_, fun _ _ => List.nil_sublist _⟩
    rw [spots, List.map_append]
    exact (iha.1 spot).append (ihb.1 .elsewhere)
  | arm p e ih => exact ⟨fun _ => (ih.1 _).cons p, fun _ _ => (ih.1 _).cons p⟩
  | alt p e r ihe ihr =>
    refine ⟨fun spot => ?_, fun before all => ?_⟩
    · rw [spots, List.map_append]
      exact ((ihe.1 _).append (ihr.2 _ _)).cons p
    · rw [armSpots, List.map_append]
      exact ((ihe.1 _).append (ihr.2 _ _)).cons p
  | opt p e ih | iter p e ih => exact ⟨fun _ => (ih.1 _).cons p, fun _ _ => List.nil_sublist _⟩

end Phrase

namespace Grammar

variable {g : Grammar} {pool : List Phrase} {e f : Phrase} {k : Option NodeId} {up : Bool}
  {cur : SymbolId} {p q r : NodeId} {spot : Spot} {fs before after all : List Phrase}
  {taken set : BitSet} {what : Misplacement}

/-- The arm that begins with the resolver `r` has a terminal in common with one of the phrases that
begin with none. -/
def clashes (g : Grammar) (cur : SymbolId) (r : NodeId) (fs : List Phrase) : Bool :=
  fs.any fun f => !g.beginsWithResolver (some f.entry) &&
    (g.expected (g.node r).next cur).intersects (g.expected (some f.entry) cur)

/-- What is wrong with a resolver at a spot. -/
def misplacementsAt (g : Grammar) (cur : SymbolId) (r : NodeId) : Spot → List Misplacement
  | .arm before all =>
    (if g.clashes cur r before then [.neverEvaluated] else []) ++
      if g.clashes cur r all then [] else [.noConflict]
  | .group p =>
    if (g.first (g.node r).next).intersects (g.expected (g.node p).next cur) then []
    else [.noConflict]
  | .elsewhere => [.noAlternative]

/-- What is wrong with the resolvers among some leaves. -/
def misplacedAmong (g : Grammar) (cur : SymbolId) (xs : List (NodeId × Spot)) :
    List (NodeId × Misplacement) :=
  xs.flatMap fun x =>
    if (g.node x.1).kind = .resolver then (g.misplacementsAt cur x.1 x.2).map (x.1, ·) else []

/-- The warnings about the resolvers among some leaves. -/
def resolverWarnings (g : Grammar) (cur : SymbolId) (xs : List (NodeId × Spot)) : List Diagnostic :=
  (g.misplacedAmong cur xs).map fun x => g.misplacedAt x.1 x.2

/-! ## Comparing arms -/

/-- A set consists of what can come next at those of the phrases that begin with no resolver. -/
def Selects (g : Grammar) (cur : SymbolId) (fs : List Phrase) (set : BitSet) : Prop :=
  ∀ n, n ∈ set ↔ ∃ f ∈ fs, g.beginsWithResolver (some f.entry) = false ∧
    n ∈ g.expected (some f.entry) cur

theorem clashes_iff : g.clashes cur r fs = true ↔
    ∃ f ∈ fs, g.beginsWithResolver (some f.entry) = false ∧
      ∃ n ∈ g.expected (g.node r).next cur, n ∈ g.expected (some f.entry) cur := by
  simp [clashes, BitSet.intersects_iff]

theorem Selects.intersects_eq (h : g.Selects cur fs set) :
    (g.expected (g.node r).next cur).intersects set = g.clashes cur r fs := by
  rw [Bool.eq_iff_iff, BitSet.intersects_iff, clashes_iff]
  constructor
  · rintro ⟨n, hn, hset⟩
    obtain ⟨f, hf, hres, hmem⟩ := (h n).1 hset
    exact ⟨f, hf, hres, n, hn, hmem⟩
  · rintro ⟨f, hf, hres, n, hn, hmem⟩
    exact ⟨n, hn, (h n).2 ⟨f, hf, hres, hmem⟩⟩

theorem mem_selecting {n : Nat} {p : Option NodeId} :
    n ∈ g.selecting p cur ↔ g.beginsWithResolver p = false ∧ n ∈ g.expected p cur := by
  unfold selecting
  split <;> simp_all

/-- What selects any of the arms. -/
theorem selects_selectingAny {ps : List NodeId}
    (hsubs : ps.map (fun p => (g.node p).sub) = fs.map fun f => some f.entry) :
    g.Selects cur fs (g.selectingAny cur ps) := by
  intro n
  have hmem : (∃ p ∈ ps, n ∈ g.selecting (g.node p).sub cur) ↔
      ∃ q ∈ fs.map fun f => some f.entry, n ∈ g.selecting q cur := by
    rw [← hsubs]
    simp
  rw [selectingAny, BitSet.mem_foldl_union, or_iff_right (BitSet.not_mem_empty n), hmem]
  simp [mem_selecting]

theorem selects_empty : g.Selects cur [] ∅ := by
  simp [Selects]

theorem resolverAt?_some : g.resolverAt? (some p) =
    if (g.node p).kind = .resolver then some p else none := by
  simp [resolverAt?, Option.filter]

theorem beginsWithResolver_iff : g.beginsWithResolver (some p) = true ↔
    (g.node p).kind = .resolver := by
  simp [beginsWithResolver]

/-- An arm without a resolver adds to what is taken. -/
theorem Selects.takenWith (h : g.Selects cur before taken) (hsub : (g.node p).sub = some f.entry) :
    g.Selects cur (before ++ [f]) (g.takenWith cur p taken) := by
  intro n
  rw [Grammar.takenWith, hsub, resolverAt?_some]
  by_cases hkind : (g.node f.entry).kind = .resolver
  · simp [hkind, h n, beginsWithResolver, or_and_right, exists_or]
  · simp [hkind, h n, beginsWithResolver, or_and_right, exists_or, BitSet.mem_union]

/-! ## Going over a production -/

@[simp]
theorem resolverWarnings_append (xs ys : List (NodeId × Spot)) :
    g.resolverWarnings cur (xs ++ ys) = g.resolverWarnings cur xs ++ g.resolverWarnings cur ys := by
  simp [resolverWarnings, misplacedAmong]

theorem resolverWarnings_singleton : g.resolverWarnings cur [(q, spot)] =
    if (g.node q).kind = .resolver then (g.misplacementsAt cur q spot).map (g.misplacedAt q) else [] := by
  simp only [resolverWarnings, misplacedAmong, List.flatMap_singleton]
  split <;> simp

/-- A structure is no resolver. -/
theorem Holds.resolverWarnings_eq_nil {kind : NodeKind} {sub down next : Option NodeId}
    (h : g.Holds p kind sub down next up) (hkind : kind.isLeaf = false) :
    g.resolverWarnings cur [(p, spot)] = [] := by
  rw [resolverWarnings_singleton, h.kind_eq, if_neg fun hres => ?_]
  rw [hres] at hkind
  cases hkind

/-- What is found in front of an arm. -/
theorem armResolver_eq (hbefore : g.Selects cur before taken) (hall : g.Selects cur all set)
    (hsub : (g.node p).sub = some f.entry) :
    g.armResolver cur p set taken = g.resolverWarnings cur [(f.entry, .arm before all)] := by
  rw [armResolver, hsub, resolverAt?_some, resolverWarnings_singleton]
  by_cases hkind : (g.node f.entry).kind = .resolver
  · simp only [if_pos hkind, hbefore.intersects_eq, hall.intersects_eq, misplacementsAt,
      List.map_append]
    congr 1 <;> split <;> rfl
  · simp only [if_neg hkind]

/-- What is found in front of the contents of an option or iteration. -/
theorem groupResolver_eq (hsub : (g.node p).sub = some f.entry) :
    g.groupResolver cur p = g.resolverWarnings cur [(f.entry, .group p)] := by
  rw [groupResolver, hsub, resolverAt?_some, resolverWarnings_singleton]
  by_cases hkind : (g.node f.entry).kind = .resolver
  · simp only [if_pos hkind, misplacementsAt]
    split <;> rfl
  · simp only [if_neg hkind]

/-- The search over the outline of a phrase finds what is due at each spot, and what it finds behind.
Where the phrase stands in front of an arm, option or iteration, its first node was looked at
before. -/
def FindsDue (g : Grammar) (cur : SymbolId) (e : Phrase) : Prop :=
  ∀ spot rest, (if spot.begins then g.resolverWarnings cur [(e.entry, spot)] else []) ++
      g.misplacements cur spot.begins (e.outline rest) =
    g.resolverWarnings cur (e.spots spot) ++ g.misplacements cur false rest

/-- What is found in front of an arm and in its contents. -/
theorem FindsDue.arm (h : g.FindsDue cur f) (hbefore : g.Selects cur before taken)
    (hall : g.Selects cur all set) (hsub : (g.node p).sub = some f.entry) :
    g.armResolver cur p set taken ++ g.misplacements cur true (f.outline .done) =
      g.resolverWarnings cur (f.spots (.arm before all)) := by
  rw [armResolver_eq hbefore hall hsub]
  simpa [Spot.begins, misplacements] using h (.arm before all) .done

/-- What is found in front of an option or iteration and in its contents. -/
theorem FindsDue.group (h : g.FindsDue cur f) (hsub : (g.node p).sub = some f.entry) :
    g.groupResolver cur p ++ g.misplacements cur true (f.outline .done) =
      g.resolverWarnings cur (f.spots (.group p)) := by
  rw [groupResolver_eq hsub]
  simpa [Spot.begins, misplacements] using h (.group p) .done

/-- An alternative is gone through in two ways, as a part of a chain and as the further arms of another
one. -/
theorem Shows.findsDue (h : g.Shows e k up) : g.FindsDue cur e ∧
    (e.isArms = true → ∀ before all taken set, g.Selects cur before taken → g.Selects cur all set →
      g.armMisplacements cur set taken (e.outline .done) =
        g.resolverWarnings cur (e.armSpots before all)) := by
  induction e generalizing k up with
  | leaf p =>
    refine ⟨fun spot rest => ?_, fun harms => by cases harms⟩
    -- what is due for the leaf is found in front of it or, if nothing begins with it, at the leaf
    cases spot with
    | arm | group => simp [Phrase.entry, Phrase.outline, Phrase.spots, Spot.begins, misplacements]
    | elsewhere =>
      simp [Phrase.outline, Phrase.spots, Spot.begins, misplacements, resolverWarnings_singleton,
        misplacementsAt]
  | seq a b iha ihb =>
    refine ⟨fun spot rest => ?_, fun harms => by cases harms⟩
    have hb := (ihb h.2).1 .elsewhere rest
    rw [Phrase.entry, Phrase.outline, (iha h.1).1 spot (b.outline rest), Phrase.spots,
      resolverWarnings_append, List.append_assoc]
    exact congrArg _ hb
  | arm p e ih =>
    obtain ⟨hp, he⟩ := h
    have hbody := (ih he).1
    constructor
    · intro spot rest
      have hall : g.Selects cur [e] (g.selectingAny cur [p]) :=
        selects_selectingAny (by simp [hp.sub_eq])
      have harm := hbody.arm selects_empty hall hp.sub_eq
      simp [Phrase.entry, Phrase.outline, Phrase.spots, Outline.arms, misplacements,
        armMisplacements, hp.resolverWarnings_eq_nil rfl, harm]
    · intro _ before all taken set hbefore hall
      have harm := hbody.arm hbefore hall hp.sub_eq
      simp [Phrase.outline, Phrase.armSpots, armMisplacements, harm]
  | alt p e r ihe ihr =>
    obtain ⟨hr, hp, he, hmore⟩ := h
    have hbody := (ihe he).1
    have harms := (ihr hmore).2 hr
    constructor
    · intro spot rest
      have hall : g.Selects cur (e :: r.bodies) (g.selectingAny cur (p :: r.armNodes)) :=
        selects_selectingAny (by simp [hp.sub_eq, hmore.subs_armNodes hr])
      have harm := hbody.arm selects_empty hall hp.sub_eq
      have hothers := harms _ _ _ _ (selects_empty.takenWith hp.sub_eq) hall
      simp [Phrase.entry, Phrase.outline, Phrase.spots, Phrase.arms_outline hr, misplacements,
        hp.resolverWarnings_eq_nil rfl, harm, hothers]
    · intro _ before all taken set hbefore hall
      have harm := hbody.arm hbefore hall hp.sub_eq
      have hothers := harms _ _ _ _ (hbefore.takenWith hp.sub_eq) hall
      simp [Phrase.outline, Phrase.armSpots, armMisplacements, harm, hothers]
  | opt p e ih | iter p e ih =>
    refine ⟨fun spot rest => ?_, fun harms => by cases harms⟩
    have hbody := (ih h.2).1.group h.1.sub_eq
    simp [Phrase.entry, Phrase.outline, Phrase.spots, misplacements, h.1.resolverWarnings_eq_nil rfl,
      hbody]

/-- Each resolver is found at its spot. -/
theorem mem_misplacedAmong {xs : List (NodeId × Spot)} : (r, what) ∈ g.misplacedAmong cur xs ↔
    (g.node r).kind = .resolver ∧ ∃ spot, (r, spot) ∈ xs ∧ what ∈ g.misplacementsAt cur r spot := by
  simp only [misplacedAmong, List.mem_flatMap, Prod.exists]
  constructor
  · rintro ⟨q, spot, hmem, hfound⟩
    split at hfound
    next hkind =>
      obtain ⟨_, hwhat, heq⟩ := List.mem_map.1 hfound
      obtain ⟨rfl, rfl⟩ := Prod.mk.inj heq
      exact ⟨hkind, spot, hmem, hwhat⟩
    next => cases hfound
  · rintro ⟨hkind, spot, hmem, hwhat⟩
    refine ⟨r, spot, hmem, ?_⟩
    rw [if_pos hkind]
    exact List.mem_map_of_mem hwhat

theorem nodup_misplacementsAt : (g.misplacementsAt cur r spot).Nodup := by
  unfold misplacementsAt
  split
  next => split <;> split <;> simp
  next => split <;> simp
  next => exact List.nodup_singleton _

/-- Nothing is said twice about a resolver. -/
theorem nodup_misplacedAmong {xs : List (NodeId × Spot)} (hnodup : (xs.map Prod.fst).Nodup) :
    (g.misplacedAmong cur xs).Nodup := by
  induction xs with
  | nil => exact List.nodup_nil
  | cons x xs ih =>
    obtain ⟨hx, hxs⟩ := List.nodup_cons.1 hnodup
    rw [misplacedAmong, List.flatMap_cons]
    refine List.Nodup.append ?_ (ih hxs) ?_
    · split
      · exact nodup_misplacementsAt.map fun a b heq => (Prod.mk.inj heq).2
      · exact List.nodup_nil
    · rintro ⟨r, what⟩ hown hmore
      obtain ⟨-, spot, hmem, -⟩ := mem_misplacedAmong.1 hmore
      split at hown
      · obtain ⟨_, -, heq⟩ := List.mem_map.1 hown
        obtain ⟨heq, -⟩ := Prod.mk.inj heq
        exact hx (List.mem_map.2 ⟨_, hmem, heq.symm⟩)
      · cases hown

/-! ## Arms -/

theorem Shows.mem_spots_entry (h : g.Shows e k up) (hleaf : (g.node e.entry).kind.isLeaf = true) :
    (e.entry, spot) ∈ e.spots spot := by
  induction e generalizing k up with
  | leaf p => exact List.mem_singleton_self _
  | seq a b iha _ => exact List.mem_append_left _ (iha h.1 hleaf)
  | arm p e | opt p e | iter p e =>
    rw [Phrase.entry, h.1.kind_eq] at hleaf
    cases hleaf
  | alt p e r =>
    rw [Phrase.entry, h.2.1.kind_eq] at hleaf
    cases hleaf

/-- What begins one of the further arms of an alternative has the spot in front of that arm. -/
theorem Shows.mem_armSpots (h : g.Shows e k up) (harms : e.isArms = true)
    (hbodies : e.bodies = fs ++ f :: after) (hleaf : (g.node f.entry).kind.isLeaf = true) :
    (f.entry, .arm (before ++ fs) all) ∈ e.armSpots before all := by
  induction e generalizing k up before fs with
  | leaf | seq | opt | iter => cases harms
  | arm p e =>
    cases fs with
    | nil =>
      obtain ⟨rfl, -⟩ := List.cons.inj hbodies
      simpa [Phrase.armSpots] using h.2.mem_spots_entry hleaf
    | cons f' fs => simp [Phrase.bodies] at hbodies
  | alt p e r _ ihr =>
    obtain ⟨hr, -, he, hmore⟩ := h
    cases fs with
    | nil =>
      obtain ⟨rfl, -⟩ := List.cons.inj hbodies
      simpa [Phrase.armSpots] using .inl (he.mem_spots_entry hleaf)
    | cons f' fs =>
      obtain ⟨rfl, htail⟩ := List.cons.inj hbodies
      have hmem := @ihr k true fs (before ++ [e]) hmore hr htail
      rw [List.append_assoc] at hmem
      exact List.mem_append_right _ hmem

/-- What begins an arm of an alternative has the spot in front of that arm. -/
theorem Shows.mem_spots_arm (h : g.Shows e k up) (hleaf : (g.node f.entry).kind.isLeaf = true) :
    (∀ spot, (p, before ++ f :: after) ∈ e.alternatives →
      (f.entry, .arm before (before ++ f :: after)) ∈ e.spots spot) ∧
    (e.isArms = true → ∀ earlier all, (p, before ++ f :: after) ∈ e.alternatives.tail →
      (f.entry, .arm before (before ++ f :: after)) ∈ e.armSpots earlier all) := by
  induction e generalizing k up with
  | leaf => simp [Phrase.alternatives, Phrase.isArms]
  | seq a b iha ihb =>
    refine ⟨fun spot ha => ?_, fun harms => by cases harms⟩
    rcases List.mem_append.1 ha with ha | ha
    · exact List.mem_append_left _ ((iha h.1).1 _ ha)
    · exact List.mem_append_right _ ((ihb h.2).1 _ ha)
  | arm q e ih =>
    have hinner : ∀ earlier all, (p, before ++ f :: after) ∈ e.alternatives →
        (f.entry, .arm before (before ++ f :: after)) ∈ (Phrase.arm q e).armSpots earlier all :=
      fun _ _ ha => (ih h.2).1 _ ha
    refine ⟨fun spot ha => ?_, fun _ => hinner⟩
    rcases List.mem_cons.1 ha with heq | ha
    · have hbodies := (Prod.mk.inj heq).2
      rw [hbodies]
      exact h.mem_armSpots rfl hbodies.symm hleaf
    · exact hinner _ _ ha
  | alt q e r ihe ihr =>
    obtain ⟨hr, -, he, hmore⟩ := id h
    have hinner : ∀ earlier all, (p, before ++ f :: after) ∈ e.alternatives ++ r.alternatives.tail →
        (f.entry, .arm before (before ++ f :: after)) ∈ (Phrase.alt q e r).armSpots earlier all := by
      intro earlier all ha
      rcases List.mem_append.1 ha with ha | ha
      · exact List.mem_append_left _ ((ihe he).1 _ ha)
      · exact List.mem_append_right _ ((ihr hmore).2 hr _ _ ha)
    refine ⟨fun spot ha => ?_, fun _ => hinner⟩
    rcases List.mem_cons.1 ha with heq | ha
    · have hbodies := (Prod.mk.inj heq).2
      rw [hbodies]
      exact h.mem_armSpots hr hbodies.symm hleaf
    · exact hinner [] _ ha
  | opt q e ih | iter q e ih => exact ⟨fun spot ha => (ih h.2).1 _ ha, fun harms => by cases harms⟩

/-! ## What is reported -/

/-- What can come next at an arm, behind its resolver if it begins with one. -/
def lookahead (g : Grammar) (cur : SymbolId) (f : Phrase) : BitSet :=
  g.expected (if g.beginsWithResolver (some f.entry) then (g.node f.entry).next else some f.entry) cur

theorem clashes_iff_lookahead (hkind : (g.node f.entry).kind = .resolver) :
    g.clashes cur f.entry fs = true ↔ ∃ f' ∈ fs, g.beginsWithResolver (some f'.entry) = false ∧
      ∃ n ∈ g.lookahead cur f, n ∈ g.lookahead cur f' := by
  rw [clashes_iff, lookahead, beginsWithResolver_iff.2 hkind]
  refine exists_congr fun f' => and_congr_right fun _ => and_congr_right fun hres => ?_
  rw [lookahead, hres]
  rfl

/-- What is due in front of an arm depends on the other arms that begin with no resolver. -/
theorem mem_misplacementsAt_arm (hkind : (g.node f.entry).kind = .resolver) :
    (.neverEvaluated ∈ g.misplacementsAt cur f.entry (.arm before (before ++ f :: after)) ↔
      ∃ f' ∈ before, g.beginsWithResolver (some f'.entry) = false ∧
        ∃ n ∈ g.lookahead cur f, n ∈ g.lookahead cur f') ∧
    (.noConflict ∈ g.misplacementsAt cur f.entry (.arm before (before ++ f :: after)) ↔
      ∀ f' ∈ before ++ after, g.beginsWithResolver (some f'.entry) = false →
        ∀ n ∈ g.lookahead cur f, n ∉ g.lookahead cur f') ∧
    .noAlternative ∉ g.misplacementsAt cur f.entry (.arm before (before ++ f :: after)) := by
  have hself : g.clashes cur f.entry (before ++ f :: after) = g.clashes cur f.entry (before ++ after) := by
    simp [clashes, beginsWithResolver_iff.2 hkind]
  have hnone : g.clashes cur f.entry (before ++ after) = false ↔
      ∀ f' ∈ before ++ after, g.beginsWithResolver (some f'.entry) = false →
        ∀ n ∈ g.lookahead cur f, n ∉ g.lookahead cur f' := by
    rw [← Bool.not_eq_true, clashes_iff_lookahead hkind]
    simp
  rw [← clashes_iff_lookahead hkind, ← hnone, misplacementsAt, hself]
  refine ⟨?_, ?_, ?_⟩ <;> split <;> split <;> simp_all

namespace Composed

variable (h : g.Composed pool) (he : e ∈ pool)
include h he

/-- What is found in a production is what is due at the spots of its leaves. -/
theorem misplacements_eq : g.misplacements cur false (g.outline (some e.entry)) =
    g.resolverWarnings cur (e.spots .elsewhere) := by
  have hshows := h.shows_of_mem he
  rw [outline_entry hshows (h.nodup he) (.inr rfl)]
  simpa [Spot.begins, misplacements] using hshows.findsDue.1 .elsewhere .done

theorem nodup_spots : ((e.spots .elsewhere).map Prod.fst).Nodup :=
  (h.nodup he).sublist (e.sublist_spots.1 _)

/-- What is found at a resolver in front of an arm is what is due there. -/
theorem mem_misplacedAmong_arm (ha : (p, before ++ f :: after) ∈ e.alternatives)
    (hkind : (g.node f.entry).kind = .resolver) :
    (f.entry, what) ∈ g.misplacedAmong cur (e.spots .elsewhere) ↔
      what ∈ g.misplacementsAt cur f.entry (.arm before (before ++ f :: after)) := by
  have hleaf : (g.node f.entry).kind.isLeaf = true := by rw [hkind]; rfl
  have hspot := ((h.shows_of_mem he).mem_spots_arm hleaf).1 .elsewhere ha
  rw [mem_misplacedAmong]
  constructor
  · rintro ⟨-, spot, hmem, hwhat⟩
    have heq := List.inj_on_of_nodup_map (h.nodup_spots he) hmem hspot rfl
    obtain ⟨-, rfl⟩ := Prod.mk.inj heq
    exact hwhat
  · exact fun hwhat => ⟨hkind, _, hspot, hwhat⟩

end Composed

/-- After the analyses the check says of each resolver what is due at its spot, once, and nothing else.
In front of an arm a resolver is compared with the other arms that begin with none: it is never
evaluated if something that can come next behind it can also come next at an earlier one, and it has no
conflict to resolve if nothing of that can come next at any of them. -/
theorem Composed.runCheck_misplacedResolvers (h : g.Composed pool) :
    ∃ found : SymbolId → List Diagnostic,
      (g.computeSets.runCheck misplacedResolvers).2 =
        g.computeSets.reportAll (g.nonterminals.flatMap found) ∧
      ∀ s ∈ g.nonterminals, ((g.sym s).production = none → found s = []) ∧
        ∀ e ∈ pool, (g.sym s).production = some e.entry →
          ∃ due : List (NodeId × Misplacement),
            found s = due.map (fun x => g.computeSets.misplacedAt x.1 x.2) ∧ due.Nodup ∧
            (∀ r what, (r, what) ∈ due ↔ (g.computeSets.node r).kind = .resolver ∧
              ∃ spot, (r, spot) ∈ e.spots .elsewhere ∧ what ∈ g.computeSets.misplacementsAt s r spot) ∧
            ∀ p before f after, (p, before ++ f :: after) ∈ e.alternatives →
              (g.computeSets.node f.entry).kind = .resolver →
              ((f.entry, .neverEvaluated) ∈ due ↔
                ∃ f' ∈ before, g.computeSets.beginsWithResolver (some f'.entry) = false ∧
                  ∃ n ∈ g.computeSets.lookahead s f, n ∈ g.computeSets.lookahead s f') ∧
              ((f.entry, .noConflict) ∈ due ↔
                ∀ f' ∈ before ++ after, g.computeSets.beginsWithResolver (some f'.entry) = false →
                  ∀ n ∈ g.computeSets.lookahead s f, n ∉ g.computeSets.lookahead s f') ∧
              (f.entry, .noAlternative) ∉ due := by
  have hcomposed := h.computeSets
  refine ⟨fun s => g.computeSets.misplacements s false (g.computeSets.outline (g.sym s).production), ?_,
    fun s hs => ⟨fun hnone => ?_, fun e he heq => ?_⟩⟩
  · simp only [runCheck, misplacedResolvers, nonterminals_computeSets, production_computeSets]
  · simp only [hnone, outline, outlineWithin_none, misplacements]
  · refine ⟨g.computeSets.misplacedAmong s (e.spots .elsewhere), ?_,
      nodup_misplacedAmong (hcomposed.nodup_spots he), fun r what => mem_misplacedAmong,
      fun p before f after ha hkind => ?_⟩
    · simp only [heq]
      exact hcomposed.misplacements_eq he
    · simp only [hcomposed.mem_misplacedAmong_arm he ha hkind]
      exact mem_misplacementsAt_arm hkind

/-! ## Resolvers in front of several arms -/

/-- The production `S = ( RSLV a | RSLV a | b | RSLV b )`. -/
def resolving : Grammar :=
  (initial.declareProduction "S" (.alt (.seq (.resolver (some ⟨4, 8, 1, 5⟩)) [.terminal "a"])
    [.seq (.resolver (some ⟨13, 17, 1, 14⟩)) [.terminal "a"], .terminal "b",
      .seq (.resolver (some ⟨26, 30, 1, 27⟩)) [.terminal "b"]]) 1).2.2

/-- The phrase of the production. -/
def resolvingPhrase : Phrase :=
  .alt 7 (.seq (.leaf 0) (.leaf 1)) (.alt 8 (.seq (.leaf 2) (.leaf 3))
    (.alt 9 (.leaf 4) (.arm 10 (.seq (.leaf 5) (.leaf 6)))))

theorem resolving_composed : resolving.Composed [resolvingPhrase] := by
  have hterminal : ∀ s, (NodeKind.terminal s).isLeaf = true := fun _ => rfl
  have hresolver : NodeKind.resolver.isLeaf = true := rfl
  -- the contents of the arms, then the arms
  have hfirst := (Assembled.start initial).leaf hresolver 1 (some ⟨4, 8, 1, 5⟩)
  have ha := (hfirst.declareSymbol .terminal "a" 1).leaf (hterminal 1) 1 none
  have hsecond := ((ha.perm (.swap _ _ _)).sequence).leaf hresolver 1 (some ⟨13, 17, 1, 14⟩)
  have haa := ((hsecond.leaf (hterminal 1) 1 none).perm (.swap _ _ _)).sequence
  have hb := (haa.declareSymbol .terminal "b" 1).leaf (hterminal 2) 1 none
  have hlast := hb.leaf hresolver 1 (some ⟨26, 30, 1, 27⟩)
  have hbb := ((hlast.leaf (hterminal 2) 1 none).perm (.swap _ _ _)).sequence
  have hbodies := hbb.perm (List.reverse_perm _).symm
  have harms := ((hbodies.firstArm.addArm rfl).addArm rfl).addArm rfl
  have hall : Assembled resolving [resolvingPhrase] := harms.declare (by decide) (by decide)
  exact ⟨hall, by decide, by decide⟩

/-- What the analyses of the example find out. -/
theorem resolving_spec :
    resolvingPhrase.bodies.map (resolving.computeSets.lookahead 3) =
      [.singleton 1, .singleton 1, .singleton 2, .singleton 2] ∧
    (resolvingPhrase.bodies.map fun f => resolving.computeSets.beginsWithResolver (some f.entry)) =
      [true, true, false, true] ∧
    (∀ r ∈ [0, 2, 5], (resolving.computeSets.node r).kind = .resolver) ∧
    resolving.computeSets.diags = [] ∧
    (resolving.computeSets.runCheck misplacedResolvers).2.diags =
      [.warningAt ⟨4, 8, 1, 5⟩ (.resolver .noConflict),
        .warningAt ⟨13, 17, 1, 14⟩ (.resolver .noConflict),
        .warningAt ⟨26, 30, 1, 27⟩ (.resolver .neverEvaluated)] := by
  decide +kernel

/-- The first two resolvers have nothing to resolve, and the last one is never evaluated. -/
theorem Composed.runCheck_misplacedResolvers_resolving : resolving.Composed [resolvingPhrase] ∧
    ∃ due : List (NodeId × Misplacement),
      (resolving.computeSets.runCheck misplacedResolvers).2.diags =
        due.map (fun x => resolving.computeSets.misplacedAt x.1 x.2) ∧
      ((0, .neverEvaluated) ∉ due ∧ (0, .noConflict) ∈ due ∧ (0, .noAlternative) ∉ due) ∧
      ((2, .neverEvaluated) ∉ due ∧ (2, .noConflict) ∈ due ∧ (2, .noAlternative) ∉ due) ∧
      ((5, .neverEvaluated) ∈ due ∧ (5, .noConflict) ∉ due ∧ (5, .noAlternative) ∉ due) := by
  obtain ⟨found, hreport, hfound⟩ := resolving_composed.runCheck_misplacedResolvers
  obtain ⟨-, hdue⟩ := hfound 3 (by decide)
  obtain ⟨due, heq, -, -, harm⟩ := hdue resolvingPhrase (List.mem_singleton_self _) (by decide)
  have hnts : resolving.nonterminals = [3] := by decide
  obtain ⟨hlook, hres, hkind, hnone, -⟩ := resolving_spec
  simp only [resolvingPhrase, Phrase.bodies, Phrase.entry, List.map_cons, List.map_nil,
    List.cons.injEq] at hlook hres
  refine ⟨resolving_composed, due, ?_, ?_, ?_, ?_⟩
  · simp only [hreport, hnts, List.flatMap_singleton, reportAll, hnone, List.nil_append, heq]
  · have hfirst := harm 7 [] (.seq (.leaf 0) (.leaf 1)) (resolvingPhrase.bodies.drop 1) (by decide)
      (hkind 0 (by decide))
    simpa [resolvingPhrase, Phrase.bodies, hlook, hres, Phrase.entry] using hfirst
  · have hsecond := harm 7 (resolvingPhrase.bodies.take 1) (.seq (.leaf 2) (.leaf 3))
      (resolvingPhrase.bodies.drop 2) (by decide) (hkind 2 (by decide))
    simpa [resolvingPhrase, Phrase.bodies, hlook, hres, Phrase.entry] using hsecond
  · have hlast := harm 7 (resolvingPhrase.bodies.take 3) (.seq (.leaf 5) (.leaf 6)) [] (by decide)
      (hkind 5 (by decide))
    simpa [resolvingPhrase, Phrase.bodies, hlook, hres, Phrase.entry] using hlast

/-- The first two arms begin with the same terminal behind their resolvers, and yet both resolvers are
said to have no conflict to resolve. -/
theorem not_lookahead_apart_resolving : resolving.Composed [resolvingPhrase] ∧
    (resolving.sym 3).production = some resolvingPhrase.entry ∧
    (7, .seq (.leaf 0) (.leaf 1) :: .seq (.leaf 2) (.leaf 3) :: resolvingPhrase.bodies.drop 2) ∈
      resolvingPhrase.alternatives ∧
    .warningAt ⟨4, 8, 1, 5⟩ (.resolver .noConflict) ∈
      (resolving.computeSets.runCheck misplacedResolvers).2.diags ∧
    .warningAt ⟨13, 17, 1, 14⟩ (.resolver .noConflict) ∈
      (resolving.computeSets.runCheck misplacedResolvers).2.diags ∧
    1 ∈ resolving.computeSets.lookahead 3 (.seq (.leaf 0) (.leaf 1)) ∧
    1 ∈ resolving.computeSets.lookahead 3 (.seq (.leaf 2) (.leaf 3)) := by
  obtain ⟨hlook, -, -, -, hdiags⟩ := resolving_spec
  simp only [resolvingPhrase, Phrase.bodies, List.map_cons, List.cons.injEq] at hlook
  obtain ⟨hfirst, hsecond, -⟩ := hlook
  rw [hdiags, hfirst, hsecond]
  exact ⟨resolving_composed, by decide⟩

end Grammar

end Ebnf
