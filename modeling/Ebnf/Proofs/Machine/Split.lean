import Ebnf.Machine.Split
import Ebnf.Proofs.Machine.Reach

/-!
# Splitting keeps what the moves do

Moves of a state that share a character are replaced until none do.  On every
character the result has the effects that the moves had before.

Main results:

- Theorem `Grammar.resolve_spec`: one replacement keeps the effects and makes the
  sum of the sizes of the character sets smaller.
- Theorem `Grammar.separate_spec`: after all replacements no two moves share a
  character, and the effects are those of the moves before.
- Theorem `Grammar.separate_accepts`: every move that is made on the way accepts some
  character.
-/

namespace Ebnf

/-- The moves around the two that share a character. -/
def Overlap.rest (o : Overlap) : List Move :=
  o.before ++ o.between ++ o.after

theorem Overlap.merge_perm {o : Overlap} {x : Move} : (o.merge x).Perm (x :: o.rest) := by
  rw [merge, rest, List.append_assoc, List.append_assoc]
  exact List.perm_middle

theorem Overlap.replace_perm {o : Overlap} {x y : Move} :
    (o.replace x y).Perm (x :: y :: o.rest) := by
  have hsecond : (o.replace x y).Perm (y :: o.merge x) := List.perm_middle
  exact hsecond.trans ((merge_perm.cons y).trans (.swap x y _))

theorem Overlap.mem_replace {o : Overlap} {x y m : Move} :
    m ∈ o.replace x y ↔ m = x ∨ m = y ∨ m ∈ o.rest := by
  rw [replace_perm.mem_iff, List.mem_cons, List.mem_cons]

namespace Grammar

variable {g g' g'' : Grammar} {c : Nat} {e : Effect} {ms ms' ms'' : List Move}

/-! ## The sum of the sizes -/

/-- Sum of the sizes of the character sets of moves. -/
def weight (g : Grammar) (ms : List Move) : Nat :=
  ms.foldr (fun m n => (g.triggerSet m.on).size + n) 0

@[simp]
theorem weight_nil : g.weight [] = 0 :=
  rfl

@[simp]
theorem weight_cons {m : Move} : g.weight (m :: ms) = (g.triggerSet m.on).size + g.weight ms :=
  rfl

@[simp]
theorem weight_append : g.weight (ms ++ ms') = g.weight ms + g.weight ms' := by
  induction ms with
  | nil => simp
  | cons m ms ih => simp [ih, Nat.add_assoc]

theorem weight_perm (h : ms.Perm ms') : g.weight ms = g.weight ms' := by
  induction h with
  | nil => rfl
  | cons m _ ih => rw [weight_cons, weight_cons, ih]
  | swap m n ms =>
    simp only [weight_cons]
    omega
  | trans _ _ ih ih' => exact ih.trans ih'

theorem Grows.weight_eq (h : g.Grows g') (hms : ∀ m ∈ ms, g.Knows m.on) :
    g'.weight ms = g.weight ms := by
  induction ms with
  | nil => rfl
  | cons m ms ih =>
    rw [weight_cons, weight_cons, h.triggerSet_eq (hms m List.mem_cons_self),
      ih fun n hn => hms n (List.mem_cons_of_mem m hn)]

/-! ## Refinement of moves -/

/-- Other moves in a grammar with further classes that do the same on every character. -/
structure Refines (g : Grammar) (ms : List Move) (g' : Grammar) (ms' : List Move) : Prop where
  grows : g.Grows g'
  canonical : g'.CanonicalClasses
  knows : ∀ m ∈ ms', g'.Knows m.on
  /-- also for moves that accept no character -/
  of_has : ∀ m ∈ ms', ∀ e, m.Has e → ∃ n ∈ ms, n.Has e
  offers_iff : ∀ c e, g'.Offers ms' c e ↔ g.Offers ms c e

theorem Refines.refl (hg : g.CanonicalClasses) (hms : ∀ m ∈ ms, g.Knows m.on) :
    g.Refines ms g ms :=
  ⟨.refl g, hg, hms, fun m hm _ he => ⟨m, hm, he⟩, fun _ _ => Iff.rfl⟩

theorem Refines.trans (h : g.Refines ms g' ms') (h' : g'.Refines ms' g'' ms'') :
    g.Refines ms g'' ms'' where
  grows := h.grows.trans h'.grows
  canonical := h'.canonical
  knows := h'.knows
  of_has m hm e he := by
    obtain ⟨n, hn, hne⟩ := h'.of_has m hm e he
    exact h.of_has n hn e hne
  offers_iff c e := (h'.offers_iff c e).trans (h.offers_iff c e)

/-- The order of the moves does not matter. -/
theorem Refines.perm {ns ns' : List Move} (h : g.Refines ms g' ms') (hms : ns.Perm ms)
    (hms' : ns'.Perm ms') : g.Refines ns g' ns' where
  grows := h.grows
  canonical := h.canonical
  knows m hm := h.knows m (hms'.mem_iff.1 hm)
  of_has m hm e he := by
    obtain ⟨n, hn, hne⟩ := h.of_has m (hms'.mem_iff.1 hm) e he
    exact ⟨n, hms.mem_iff.2 hn, hne⟩
  offers_iff c e := by
    rw [offers_perm hms', offers_perm hms, h.offers_iff]

/-- Further moves stay as they are. -/
theorem Refines.append (h : g.Refines ms g' ms') {ls : List Move} (hls : ∀ m ∈ ls, g.Knows m.on) :
    g.Refines (ms ++ ls) g' (ms' ++ ls) where
  grows := h.grows
  canonical := h.canonical
  knows := List.forall_mem_append.2 ⟨h.knows, fun m hm => h.grows.knows (hls m hm)⟩
  of_has m hm e he := by
    rcases List.mem_append.1 hm with hm | hm
    · obtain ⟨n, hn, hne⟩ := h.of_has m hm e he
      exact ⟨n, List.mem_append_left _ hn, hne⟩
    · exact ⟨m, List.mem_append_right _ hm, he⟩
  offers_iff c e := by
    rw [offers_append, offers_append, h.offers_iff, h.grows.offers_iff hls]

/-! ## One replacement -/

/-- The moves that take the places of two others with a common character, and the grammar with the
triggers that are made for them. -/
inductive Resolves (g : Grammar) (x y : Move) : List Move → Grammar → Prop
  /-- both accept the same characters -/
  | same (heq : g.triggerSet x.on = g.triggerSet y.on) : Resolves g x y [x.absorb y] g
  /-- the first one accepts more, and keeps what only it accepts -/
  | first {on : Trigger} {g' : Grammar} (hne : g.triggerSet x.on ≠ g.triggerSet y.on)
      (hincl : (g.triggerSet x.on).includes (g.triggerSet y.on) = true)
      (hon : g.triggerFor ((g.triggerSet x.on).diff (g.triggerSet y.on)) = (on, g')) :
      Resolves g x y [{ x with on }, y.absorb x] g'
  /-- the second one does -/
  | second {on : Trigger} {g' : Grammar}
      (hout : ¬ (g.triggerSet x.on).includes (g.triggerSet y.on) = true)
      (hincl : (g.triggerSet y.on).includes (g.triggerSet x.on) = true)
      (hon : g.triggerFor ((g.triggerSet y.on).diff (g.triggerSet x.on)) = (on, g')) :
      Resolves g x y [x.absorb y, { y with on }] g'
  /-- both keep what only they accept, and a third one takes over what they share -/
  | neither {onX onY onC : Trigger} {g₁ g₂ g₃ : Grammar}
      (hX : ¬ (g.triggerSet y.on).includes (g.triggerSet x.on) = true)
      (hY : ¬ (g.triggerSet x.on).includes (g.triggerSet y.on) = true)
      (honX : g.triggerFor ((g.triggerSet x.on).diff
        ((g.triggerSet x.on).inter (g.triggerSet y.on))) = (onX, g₁))
      (honY : g₁.triggerFor ((g.triggerSet y.on).diff
        ((g.triggerSet x.on).inter (g.triggerSet y.on))) = (onY, g₂))
      (honC : g₂.triggerFor ((g.triggerSet x.on).inter (g.triggerSet y.on)) = (onC, g₃)) :
      Resolves g x y
        [((⟨onC, .main, ∅⟩ : Move).absorb x).absorb y, { x with on := onX }, { y with on := onY }] g₃

/-- Only the two moves with a common character are replaced. -/
theorem exists_resolves (g : Grammar) (o : Overlap) :
    ∃ ns, g.Resolves o.first o.second ns (g.resolve o).2 ∧
      (g.resolve o).1.Perm (ns ++ o.rest) := by
  unfold resolve
  dsimp only
  split
  next heq => exact ⟨_, .same heq, Overlap.merge_perm⟩
  next hne =>
  split
  next hincl => exact ⟨_, .first hne hincl rfl, Overlap.replace_perm⟩
  next hout =>
  split
  next hincl => exact ⟨_, .second hout hincl rfl, Overlap.replace_perm⟩
  next hout' =>
    exact ⟨_, .neither hout' hout rfl rfl rfl,
      (addMove_perm _ _).trans (Overlap.replace_perm.cons _)⟩

theorem replace_perm_append {o : Overlap} :
    (o.replace o.first o.second).Perm ([o.first, o.second] ++ o.rest) :=
  Overlap.replace_perm

section Resolves

variable {x y : Move} {ns : List Move}

theorem has_absorb_absorb {on : Trigger} :
    (((⟨on, .main, ∅⟩ : Move).absorb x).absorb y).Has e ↔ x.Has e ∨ y.Has e := by
  have hempty : ¬ (⟨on, .main, ∅⟩ : Move).Has e := by
    cases e with
    | target t => exact BitSet.not_mem_empty t
    | context => exact fun h => nomatch h
  rw [Move.has_absorb, Move.has_absorb, or_iff_right hempty]

/-- What a new move does, one of the two did. -/
theorem Resolves.of_has (h : g.Resolves x y ns g') {m : Move} (hm : m ∈ ns) (he : m.Has e) :
    x.Has e ∨ y.Has e := by
  cases h with
  | same =>
    obtain rfl := List.mem_singleton.1 hm
    exact Move.has_absorb.1 he
  | first =>
    simp only [List.mem_cons, List.not_mem_nil, or_false] at hm
    rcases hm with rfl | rfl
    · exact .inl (Move.has_with_on.1 he)
    · exact (Move.has_absorb.1 he).symm
  | second =>
    simp only [List.mem_cons, List.not_mem_nil, or_false] at hm
    rcases hm with rfl | rfl
    · exact Move.has_absorb.1 he
    · exact .inr (Move.has_with_on.1 he)
  | neither =>
    simp only [List.mem_cons, List.not_mem_nil, or_false] at hm
    rcases hm with rfl | rfl | rfl
    · exact has_absorb_absorb.1 he
    · exact .inl (Move.has_with_on.1 he)
    · exact .inr (Move.has_with_on.1 he)

theorem offers_pair : g.Offers [x, y] c e ↔
    (c ∈ g.triggerSet x.on ∧ x.Has e) ∨ (c ∈ g.triggerSet y.on ∧ y.Has e) := by
  simp only [offers_cons, offers_nil, or_false, triggers_iff]

theorem weight_pair : g.weight [x, y] = (g.triggerSet x.on).size + (g.triggerSet y.on).size :=
  rfl

/-- A move loses the characters of a second one that it includes; the second one also does what
the first one did. -/
theorem Provides.includes {on : Trigger} (hg : g.CanonicalClasses)
    (hover : ∃ c, c ∈ g.triggerSet x.on ∧ c ∈ g.triggerSet y.on)
    (hincl : (g.triggerSet x.on).includes (g.triggerSet y.on) = true)
    (hon : g.Provides ((g.triggerSet x.on).diff (g.triggerSet y.on)) on g')
    (hy : g.Knows y.on) :
    (∀ c e, g'.Offers [{ x with on }, y.absorb x] c e ↔ g.Offers [x, y] c e) ∧
      g'.weight [{ x with on }, y.absorb x] < g.weight [x, y] := by
  have hx : g'.triggerSet on = (g.triggerSet x.on).diff (g.triggerSet y.on) := hon.triggerSet_eq
  have hyset : g'.triggerSet (y.absorb x).on = g.triggerSet y.on := hon.grows.triggerSet_eq hy
  have hcanonx := canonical_triggerSet hg x.on
  have hcanony := canonical_triggerSet hg y.on
  constructor
  · intro c e
    rw [offers_pair, offers_pair, hyset, Move.has_absorb, Move.has_with_on, hx, CharSet.mem_diff]
    have := (CharSet.includes_iff hcanonx hcanony).1 hincl c
    tauto
  · obtain ⟨c, hcx, hcy⟩ := hover
    have hsize := CharSet.size_diff_add_size_inter hcanonx hcanony
    have hpos := CharSet.size_pos (hcanonx.inter hcanony) (CharSet.mem_inter.2 ⟨hcx, hcy⟩)
    rw [weight_pair, weight_pair, hyset, hx]
    omega

/-- Both moves lose the characters that they share, and a third one takes them over. -/
theorem Provides.shares {onX onY onC : Trigger} {g₁ g₂ g₃ : Grammar} (hg : g.CanonicalClasses)
    (hover : ∃ c, c ∈ g.triggerSet x.on ∧ c ∈ g.triggerSet y.on)
    (hX : g.Provides ((g.triggerSet x.on).diff ((g.triggerSet x.on).inter (g.triggerSet y.on)))
      onX g₁)
    (hY : g₁.Provides ((g.triggerSet y.on).diff ((g.triggerSet x.on).inter (g.triggerSet y.on)))
      onY g₂)
    (hC : g₂.Provides ((g.triggerSet x.on).inter (g.triggerSet y.on)) onC g₃) :
    let both := ((⟨onC, .main, ∅⟩ : Move).absorb x).absorb y
    (∀ c e, g₃.Offers [both, { x with on := onX }, { y with on := onY }] c e ↔
        g.Offers [x, y] c e) ∧
      g₃.weight [both, { x with on := onX }, { y with on := onY }] < g.weight [x, y] := by
  intro both
  have hx : g₃.triggerSet onX = _ :=
    ((hY.grows.trans hC.grows).triggerSet_eq hX.knows).trans hX.triggerSet_eq
  have hy : g₃.triggerSet onY = _ := (hC.grows.triggerSet_eq hY.knows).trans hY.triggerSet_eq
  have hboth : g₃.triggerSet both.on = _ := hC.triggerSet_eq
  constructor
  · intro c e
    rw [offers_cons, triggers_iff, offers_pair, offers_pair, hboth, hx, hy, has_absorb_absorb,
      Move.has_with_on, Move.has_with_on]
    simp only [CharSet.mem_diff, CharSet.mem_inter]
    tauto
  · obtain ⟨c, hcx, hcy⟩ := hover
    have hcanonx := canonical_triggerSet hg x.on
    have hcanony := canonical_triggerSet hg y.on
    have hshared := hcanonx.inter hcanony
    have hpos := CharSet.size_pos hshared (CharSet.mem_inter.2 ⟨hcx, hcy⟩)
    have hsizeX := CharSet.size_diff_add_size_inter hcanonx hshared
    have hsizeY := CharSet.size_diff_add_size_inter hcanony hshared
    -- what the two sets share is all that each of them shares with it
    have hinX := CharSet.size_congr (hcanonx.inter hshared) hshared fun c => by
      simp only [CharSet.mem_inter]
      tauto
    have hinY := CharSet.size_congr (hcanony.inter hshared) hshared fun c => by
      simp only [CharSet.mem_inter]
      tauto
    rw [weight_cons, weight_pair, weight_pair, hboth, hx, hy]
    omega

/-- The new moves do what the two did, on fewer characters altogether. -/
theorem Resolves.refines (h : g.Resolves x y ns g') (hg : g.CanonicalClasses)
    (hx : g.Knows x.on) (hy : g.Knows y.on)
    (hover : ∃ c, c ∈ g.triggerSet x.on ∧ c ∈ g.triggerSet y.on) :
    g.Refines [x, y] g' ns ∧ g'.weight ns < g.weight [x, y] := by
  have hhas : ∀ m ∈ ns, ∀ e, m.Has e → ∃ n ∈ [x, y], n.Has e := by
    intro m hm e he
    rcases h.of_has hm he with he | he
    · exact ⟨x, by simp, he⟩
    · exact ⟨y, by simp, he⟩
  have hA := canonical_triggerSet hg x.on
  have hB := canonical_triggerSet hg y.on
  cases h with
  | same heq =>
    obtain ⟨c, _, hc⟩ := hover
    have hset : g.triggerSet (x.absorb y).on = g.triggerSet x.on := rfl
    refine ⟨⟨.refl g, hg, List.forall_mem_singleton.2 hx, hhas, fun c e => ?_⟩, ?_⟩
    · rw [offers_pair, offers_cons, triggers_iff, hset, ← heq, Move.has_absorb, and_or_left]
      simp only [offers_nil, or_false]
    · have hpos := CharSet.size_pos hB hc
      rw [weight_pair, weight_cons, weight_nil, hset]
      omega
  | first _ hincl hon =>
    have hon := provides_of_triggerFor hg (hA.diff hB) hon
    obtain ⟨hoffers, hless⟩ := hon.includes hg hover hincl hy
    refine ⟨⟨hon.grows, hon.canonical, ?_, hhas, hoffers⟩, hless⟩
    exact List.forall_mem_cons.2 ⟨hon.knows, List.forall_mem_singleton.2 (hon.grows.knows hy)⟩
  | second _ hincl hon =>
    have hon := provides_of_triggerFor hg (hB.diff hA) hon
    obtain ⟨hoffers, hless⟩ := hon.includes hg (hover.imp fun c hc => hc.symm) hincl hx
    refine ⟨⟨hon.grows, hon.canonical, ?_, hhas, fun c e => ?_⟩, ?_⟩
    · exact List.forall_mem_cons.2 ⟨hon.grows.knows hx, List.forall_mem_singleton.2 hon.knows⟩
    · rw [offers_perm (.swap _ _ _), hoffers, offers_perm (.swap _ _ _)]
    · rwa [weight_perm (.swap _ _ _), weight_perm (.swap y x _)]
  | neither _ _ honX honY honC =>
    have hC := hA.inter hB
    have hX := provides_of_triggerFor hg (hA.diff hC) honX
    have hY := provides_of_triggerFor hX.canonical (hB.diff hC) honY
    have hZ := provides_of_triggerFor hY.canonical hC honC
    obtain ⟨hoffers, hless⟩ := hX.shares hg hover hY hZ
    have hgrows := hY.grows.trans hZ.grows
    refine ⟨⟨hX.grows.trans hgrows, hZ.canonical, ?_, hhas, hoffers⟩, hless⟩
    exact List.forall_mem_cons.2 ⟨hZ.knows, List.forall_mem_cons.2 ⟨hgrows.knows hX.knows,
      List.forall_mem_singleton.2 (hZ.grows.knows hY.knows)⟩⟩

end Resolves

theorem resolve_spec {o : Overlap} (hg : g.CanonicalClasses)
    (hms : ∀ m ∈ o.replace o.first o.second, g.Knows m.on)
    (hover : ∃ c, c ∈ g.triggerSet o.first.on ∧ c ∈ g.triggerSet o.second.on) :
    g.Refines (o.replace o.first o.second) (g.resolve o).2 (g.resolve o).1 ∧
      (g.resolve o).2.weight (g.resolve o).1 < g.weight (o.replace o.first o.second) := by
  obtain ⟨ns, hns, hperm⟩ := g.exists_resolves o
  obtain ⟨hrefines, hless⟩ := hns.refines hg (hms _ (Overlap.mem_replace.2 (.inl rfl)))
    (hms _ (Overlap.mem_replace.2 (.inr (.inl rfl)))) hover
  have hrest : ∀ m ∈ o.rest, g.Knows m.on := fun m hm =>
    hms m (Overlap.mem_replace.2 (.inr (.inr hm)))
  refine ⟨(hrefines.append hrest).perm replace_perm_append hperm, ?_⟩
  rw [weight_perm hperm, weight_perm replace_perm_append, weight_append, weight_append,
    hrefines.grows.weight_eq hrest]
  exact Nat.add_lt_add_right hless _

/-! ## All replacements -/

/-- No two moves of a list accept the same character. -/
def Separated (g : Grammar) (ms : List Move) : Prop :=
  ms.Pairwise fun m n => ∀ c, ¬ (g.triggers m.on c = true ∧ g.triggers n.on c = true)

/-- Separated moves stay so when classes are added. -/
theorem Grows.separated (h : g.Grows g') (hms : ∀ m ∈ ms, g.Knows m.on) (hsep : g.Separated ms) :
    g'.Separated ms := by
  refine List.Pairwise.imp_of_mem (fun {m n} hm hn hmn c => ?_) hsep
  rw [h.triggers_eq (hms m hm), h.triggers_eq (hms n hn)]
  exact hmn c

theorem splitFirst_eq_some {α : Type} {p : α → Bool} {xs before after : List α} {x : α}
    (h : splitFirst p xs = some (before, x, after)) : xs = before ++ x :: after ∧ p x = true := by
  induction xs generalizing before with
  | nil => cases h
  | cons y ys ih =>
    rw [splitFirst] at h
    split at h
    next hy =>
      obtain ⟨rfl, rfl, rfl⟩ : [] = before ∧ y = x ∧ ys = after := by simpa using h
      exact ⟨rfl, hy⟩
    next hy =>
      obtain ⟨⟨b, z, a⟩, hr, heq⟩ := Option.map_eq_some_iff.1 h
      obtain ⟨rfl, rfl, rfl⟩ : y :: b = before ∧ z = x ∧ a = after := by simpa using heq
      obtain ⟨rfl, hz⟩ := ih hr
      exact ⟨rfl, hz⟩

theorem splitFirst_eq_none {α : Type} {p : α → Bool} {xs : List α} (h : splitFirst p xs = none) :
    ∀ x ∈ xs, p x = false := by
  induction xs with
  | nil => exact fun x hx => (List.not_mem_nil hx).elim
  | cons y ys ih =>
    rw [splitFirst] at h
    split at h
    · cases h
    next hy =>
      intro x hx
      rcases List.mem_cons.1 hx with rfl | hx
      · simpa using hy
      · exact ih (Option.map_eq_none_iff.1 h) x hx

theorem findOverlap_eq_some {o : Overlap} (h : g.findOverlap ms = some o) :
    ms = o.replace o.first o.second ∧ g.overlap o.first.on o.second.on = true := by
  induction ms generalizing o with
  | nil => cases h
  | cons m ms ih =>
    rw [findOverlap] at h
    split at h
    next between second after hsplit =>
      obtain ⟨rfl, hover⟩ := splitFirst_eq_some hsplit
      obtain rfl := Option.some.inj h
      exact ⟨rfl, hover⟩
    next =>
      obtain ⟨o', ho', rfl⟩ := Option.map_eq_some_iff.1 h
      obtain ⟨hms, hover⟩ := ih ho'
      exact ⟨congrArg (m :: ·) hms, hover⟩

theorem separated_of_findOverlap (h : g.findOverlap ms = none) : g.Separated ms := by
  induction ms with
  | nil => exact List.Pairwise.nil
  | cons m ms ih =>
    rw [findOverlap] at h
    split at h
    · cases h
    next hsplit =>
      refine List.pairwise_cons.2 ⟨fun n hn c hc => ?_, ih (Option.map_eq_none_iff.1 h)⟩
      have hfalse := splitFirst_eq_none hsplit n hn
      rw [overlap_iff.2 ⟨c, hc⟩] at hfalse
      cases hfalse

/-- What every replacement keeps, all replacements keep. -/
theorem separateWithin_induction {P : Grammar → List Move → Prop}
    (hstep : ∀ (g : Grammar) (o : Overlap),
      (∃ c, c ∈ g.triggerSet o.first.on ∧ c ∈ g.triggerSet o.second.on) →
      P g (o.replace o.first o.second) → P (g.resolve o).2 (g.resolve o).1)
    (fuel : Nat) (h : P g ms) : P (g.separateWithin fuel ms).2 (g.separateWithin fuel ms).1 := by
  induction fuel generalizing g ms with
  | zero => exact h
  | succ fuel ih =>
    rw [separateWithin]
    cases hfind : g.findOverlap ms with
    | none => exact h
    | some o =>
      obtain ⟨rfl, hover⟩ := findOverlap_eq_some hfind
      simp only [overlap_iff, triggers_iff] at hover
      exact ih (hstep g o hover h)

/-- Nothing is done after all replacements that was not done before. -/
theorem exists_has_of_mem_separateWithin {fuel : Nat} {m : Move}
    (hm : m ∈ (g.separateWithin fuel ms).1) (he : m.Has e) : ∃ n ∈ ms, n.Has e := by
  refine separateWithin_induction (P := fun _ ms' => ∀ m ∈ ms', ∀ e, m.Has e → ∃ n ∈ ms, n.Has e)
    ?_ fuel (fun m hm e he => ⟨m, hm, he⟩) m hm e he
  intro g o _ hkeeps m hm e he
  obtain ⟨ns, hns, hperm⟩ := g.exists_resolves o
  rcases List.mem_append.1 (hperm.mem_iff.1 hm) with hm | hm
  · rcases hns.of_has hm he with he | he
    · exact hkeeps o.first (Overlap.mem_replace.2 (.inl rfl)) e he
    · exact hkeeps o.second (Overlap.mem_replace.2 (.inr (.inl rfl))) e he
  · exact hkeeps m (Overlap.mem_replace.2 (.inr (.inr hm))) e he

theorem separateWithin_spec {fuel : Nat} (hg : g.CanonicalClasses)
    (hms : ∀ m ∈ ms, g.Knows m.on) (hfuel : g.weight ms ≤ fuel) :
    g.Refines ms (g.separateWithin fuel ms).2 (g.separateWithin fuel ms).1 ∧
      (g.separateWithin fuel ms).2.Separated (g.separateWithin fuel ms).1 := by
  -- one replacement needs one unit of fuel, and makes the weight smaller by at least one
  induction fuel generalizing g ms with
  | zero =>
    refine ⟨.refl hg hms, separated_of_findOverlap ?_⟩
    cases hfind : g.findOverlap ms with
    | none => exact hfind
    | some o =>
      obtain ⟨heq, hover⟩ := findOverlap_eq_some hfind
      obtain ⟨c, hc, _⟩ := overlap_iff.1 hover
      have hpos := CharSet.size_pos (canonical_triggerSet hg _) (triggers_iff.1 hc)
      rw [heq, weight_perm replace_perm_append, weight_append, weight_pair] at hfuel
      omega
  | succ fuel ih =>
    rw [separateWithin]
    cases hfind : g.findOverlap ms with
    | none => exact ⟨.refl hg hms, separated_of_findOverlap hfind⟩
    | some o =>
      obtain ⟨rfl, hover⟩ := findOverlap_eq_some hfind
      simp only [overlap_iff, triggers_iff] at hover
      obtain ⟨hstep, hless⟩ := resolve_spec hg hms hover
      obtain ⟨hrun, hsep⟩ := ih hstep.canonical hstep.knows (by omega)
      exact ⟨hstep.trans hrun, hsep⟩

theorem separate_spec (hg : g.CanonicalClasses) (hms : ∀ m ∈ ms, g.Knows m.on) :
    g.Refines ms (g.separate ms).2 (g.separate ms).1 ∧
      (g.separate ms).2.Separated (g.separate ms).1 :=
  separateWithin_spec hg hms (Nat.le_refl _)

/-! ## Moves that accept nothing -/

/-- Some character is accepted by the trigger. -/
def Accepts (g : Grammar) (on : Trigger) : Prop :=
  ∃ c, c ∈ g.triggerSet on

theorem Grows.accepts {on : Trigger} (h : g.Grows g') (hon : g.Knows on) (hacc : g.Accepts on) :
    g'.Accepts on := by
  rwa [Accepts, h.triggerSet_eq hon]

theorem Provides.accepts {set : CharSet} {on : Trigger} (h : g.Provides set on g')
    (hset : ∃ c, c ∈ set) : g'.Accepts on := by
  rwa [Accepts, h.triggerSet_eq]

theorem exists_of_not_includes {s t : CharSet} (hs : s.Canonical) (ht : t.Canonical)
    (h : ¬ t.includes s = true) : ∃ c, c ∈ s ∧ c ∉ t := by
  rw [CharSet.includes_iff ht hs] at h
  push Not at h
  exact h

/-- No new move accepts nothing. -/
theorem Resolves.accepts {x y : Move} {ns : List Move} (h : g.Resolves x y ns g')
    (hg : g.CanonicalClasses) (hx : g.Knows x.on) (hy : g.Knows y.on)
    (hover : ∃ c, c ∈ g.triggerSet x.on ∧ c ∈ g.triggerSet y.on) :
    ∀ m ∈ ns, g'.Accepts m.on := by
  obtain ⟨c, hc, hc'⟩ := hover
  have hA := canonical_triggerSet hg x.on
  have hB := canonical_triggerSet hg y.on
  cases h with
  | same => exact List.forall_mem_singleton.2 ⟨c, hc⟩
  | first hne hincl hon =>
    have hon := provides_of_triggerFor hg (hA.diff hB) hon
    have hmore : ¬ (g.triggerSet y.on).includes (g.triggerSet x.on) = true := by
      intro hback
      rw [CharSet.includes_iff hA hB] at hincl
      rw [CharSet.includes_iff hB hA] at hback
      exact hne (hA.ext hB fun c => ⟨hback c, hincl c⟩)
    obtain ⟨a, ha, ha'⟩ := exists_of_not_includes hA hB hmore
    exact List.forall_mem_cons.2 ⟨hon.accepts ⟨a, CharSet.mem_diff.2 ⟨ha, ha'⟩⟩,
      List.forall_mem_singleton.2 (hon.grows.accepts hy ⟨c, hc'⟩)⟩
  | second hout _ hon =>
    have hon := provides_of_triggerFor hg (hB.diff hA) hon
    obtain ⟨b, hb, hb'⟩ := exists_of_not_includes hB hA hout
    exact List.forall_mem_cons.2 ⟨hon.grows.accepts hx ⟨c, hc⟩,
      List.forall_mem_singleton.2 (hon.accepts ⟨b, CharSet.mem_diff.2 ⟨hb, hb'⟩⟩)⟩
  | neither hout hout' honX honY honC =>
    have hC := hA.inter hB
    have hX := provides_of_triggerFor hg (hA.diff hC) honX
    have hY := provides_of_triggerFor hX.canonical (hB.diff hC) honY
    have hZ := provides_of_triggerFor hY.canonical hC honC
    obtain ⟨a, ha, ha'⟩ := exists_of_not_includes hA hB hout
    obtain ⟨b, hb, hb'⟩ := exists_of_not_includes hB hA hout'
    have hX' := hX.accepts ⟨a, CharSet.mem_diff.2 ⟨ha, fun hin => ha' (CharSet.mem_inter.1 hin).2⟩⟩
    have hY' := hY.accepts ⟨b, CharSet.mem_diff.2 ⟨hb, fun hin => hb' (CharSet.mem_inter.1 hin).1⟩⟩
    exact List.forall_mem_cons.2 ⟨hZ.accepts ⟨c, CharSet.mem_inter.2 ⟨hc, hc'⟩⟩,
      List.forall_mem_cons.2 ⟨(hY.grows.trans hZ.grows).accepts hX.knows hX',
        List.forall_mem_singleton.2 (hZ.grows.accepts hY.knows hY')⟩⟩

/-- Every move that is made in the course of all replacements accepts something. -/
theorem separate_accepts (hg : g.CanonicalClasses) (hms : ∀ m ∈ ms, g.Knows m.on) :
    ∀ m ∈ (g.separate ms).1, m ∈ ms ∨ (g.separate ms).2.Accepts m.on := by
  refine (separateWithin_induction (P := fun g' ms' => g'.CanonicalClasses ∧
    (∀ m ∈ ms', g'.Knows m.on) ∧ ∀ m ∈ ms', m ∈ ms ∨ g'.Accepts m.on) ?_ _
    ⟨hg, hms, fun m hm => .inl hm⟩).2.2
  rintro g' o hover ⟨hcanonical, hknows, haccepts⟩
  have hrefines := (resolve_spec hcanonical hknows hover).1
  refine ⟨hrefines.canonical, hrefines.knows, fun m hm => ?_⟩
  obtain ⟨ns, hns, hperm⟩ := g'.exists_resolves o
  rcases List.mem_append.1 (hperm.mem_iff.1 hm) with hm | hm
  · exact .inr (hns.accepts hcanonical (hknows _ (Overlap.mem_replace.2 (.inl rfl)))
      (hknows _ (Overlap.mem_replace.2 (.inr (.inl rfl)))) hover m hm)
  · have hm : m ∈ o.replace o.first o.second := Overlap.mem_replace.2 (.inr (.inr hm))
    exact (haccepts m hm).imp_right (hrefines.grows.accepts (hknows m hm))

end Grammar

end Ebnf
