import Mathlib.Data.Finset.Card
import Mathlib.Data.List.Nodup
import Ebnf.CharSet

/-!
# Canonical character sets

Every operation on character sets keeps the list of ranges canonical, and on
canonical sets the queries answer what they ask about the members.

Main results:

- Theorems `CharSet.Canonical.insertRange`, `CharSet.Canonical.union`,
  `CharSet.Canonical.inter` and `CharSet.Canonical.diff`: the operations keep
  sets canonical.
- Theorem `CharSet.mem_union`: the union holds the members of either set.
- Theorems `CharSet.includes_iff` and `CharSet.intersects_iff`: inclusion and
  overlap are about members.
- Theorem `CharSet.size_diff_add_size_inter`: a cut splits the number of members.
- Theorem `CharSet.Canonical.ext`: a canonical set is determined by its members.
-/

namespace Ebnf
namespace CharSet

variable {s t : CharSet} {c : Nat}

/-! ## Operations -/

theorem canonical_empty : (∅ : CharSet).Canonical :=
  ⟨fun _ hr => (List.not_mem_nil hr).elim, List.Pairwise.nil⟩

/-- Whatever lies above a bound still does after an insertion above the bound. -/
theorem lt_of_mem_insertInto {b : Nat} {r y : CharRange} {xs : List CharRange}
    (hr : b < r.lo) (hxs : ∀ x ∈ xs, b < x.lo) (hy : y ∈ insertInto r xs) : b < y.lo := by
  induction xs generalizing r with
  | nil =>
    rw [insertInto, List.mem_singleton] at hy
    exact hy ▸ hr
  | cons x xs ih =>
    have hx : b < x.lo := hxs x List.mem_cons_self
    have hrest : ∀ z ∈ xs, b < z.lo := fun z hz => hxs z (List.mem_cons_of_mem x hz)
    rw [insertInto] at hy
    split at hy
    · rcases List.mem_cons.1 hy with rfl | hy
      · exact hx
      · exact ih hr hrest hy
    · split at hy
      · rcases List.mem_cons.1 hy with rfl | hy
        · exact hr
        · exact hxs y hy
      · exact ih (r := ⟨min r.lo x.lo, max r.hi x.hi⟩) (by simp only; omega) hrest hy

theorem canonical_insertInto {r : CharRange} {xs : List CharRange} (hr : r.lo ≤ r.hi)
    (hxs : Canonical ⟨xs⟩) : Canonical ⟨insertInto r xs⟩ := by
  induction xs generalizing r with
  | nil => exact ⟨fun y hy => by rw [List.mem_singleton.1 hy]; exact hr, List.pairwise_singleton _ r⟩
  | cons x xs ih =>
    have hx : x.lo ≤ x.hi := hxs.1 x List.mem_cons_self
    have hsep : ∀ y ∈ xs, x.hi + 1 < y.lo := (List.pairwise_cons.1 hxs.2).1
    have hrest : Canonical ⟨xs⟩ :=
      ⟨fun y hy => hxs.1 y (List.mem_cons_of_mem x hy), (List.pairwise_cons.1 hxs.2).2⟩
    rw [insertInto]
    split
    next hbelow =>
      have htail := ih hr hrest
      refine ⟨fun y hy => ?_, List.pairwise_cons.2 ⟨fun y hy => ?_, htail.2⟩⟩
      · rcases List.mem_cons.1 hy with rfl | hy
        · exact hx
        · exact htail.1 y hy
      · exact lt_of_mem_insertInto hbelow hsep hy
    next hbelow =>
      split
      next habove =>
        refine ⟨fun y hy => ?_, List.pairwise_cons.2 ⟨fun y hy => ?_, hxs.2⟩⟩
        · rcases List.mem_cons.1 hy with rfl | hy
          · exact hr
          · exact hxs.1 y hy
        · rcases List.mem_cons.1 hy with rfl | hy
          · exact habove
          · have := hsep y hy
            omega
      next habove => exact ih (by simp only; omega) hrest

theorem Canonical.insertRange (hs : s.Canonical) (lo hi : Nat) :
    (s.insertRange lo hi).Canonical := by
  unfold CharSet.insertRange
  split
  · exact hs
  next h => exact canonical_insertInto (Nat.le_of_not_lt h) hs

theorem canonical_singleton (c : Nat) : (singleton c).Canonical :=
  canonical_empty.insertRange c c

@[simp]
theorem mem_singleton {d : Nat} : c ∈ singleton d ↔ c = d := by
  change c ∈ (∅ : CharSet).insertRange d d ↔ c = d
  rw [mem_insertRange canonical_empty.1]
  have hnone : c ∉ (∅ : CharSet) := by
    rw [mem_iff]
    rintro ⟨r, hr, _⟩
    exact List.not_mem_nil hr
  constructor
  · rintro (h | h)
    · omega
    · exact absurd h hnone
  · rintro rfl
    exact .inl ⟨Nat.le_refl c, Nat.le_refl c⟩

/-- Inserting ranges one after the other adds their members. -/
theorem foldl_insertRange {rs : List CharRange} (hs : s.Canonical) :
    (rs.foldl (fun u r => u.insertRange r.lo r.hi) s).Canonical ∧
      (c ∈ rs.foldl (fun u r => u.insertRange r.lo r.hi) s ↔
        c ∈ s ∨ ∃ r ∈ rs, r.lo ≤ c ∧ c ≤ r.hi) := by
  induction rs generalizing s with
  | nil => simp [hs]
  | cons r rs ih =>
    have hstep := ih (s := s.insertRange r.lo r.hi) (hs.insertRange r.lo r.hi)
    refine ⟨hstep.1, ?_⟩
    rw [List.foldl_cons, hstep.2, mem_insertRange hs.1]
    simp only [List.mem_cons, exists_eq_or_imp]
    rw [or_assoc, or_left_comm]

theorem Canonical.union (hs : s.Canonical) (t : CharSet) : (s.union t).Canonical :=
  (foldl_insertRange (c := 0) hs).1

theorem mem_union (hs : s.Canonical) : c ∈ s.union t ↔ c ∈ s ∨ c ∈ t := by
  rw [CharSet.union, (foldl_insertRange hs).2, mem_iff (s := t)]

theorem Canonical.inter (hs : s.Canonical) (ht : t.Canonical) : (s.inter t).Canonical := by
  have hpart {r u x : CharRange} (h : r.inter? u = some x) :
      x.lo ≤ x.hi ∧ r.lo ≤ x.lo ∧ u.lo ≤ x.lo ∧ x.hi ≤ r.hi ∧ x.hi ≤ u.hi := by
    rw [CharRange.inter?] at h
    split at h
    · obtain rfl := Option.some.inj h
      dsimp only
      omega
    · cases h
  constructor
  · intro x hx
    simp only [CharSet.inter, List.mem_flatMap, List.mem_filterMap] at hx
    obtain ⟨r, _, u, _, hx⟩ := hx
    exact (hpart hx).1
  · rw [CharSet.inter, List.pairwise_flatMap]
    constructor
    · intro r _
      rw [List.pairwise_filterMap]
      refine ht.2.imp fun {u v} huv x hx y hy => ?_
      have := hpart hx
      have := hpart hy
      omega
    · refine hs.2.imp fun {r r'} hrr x hx y hy => ?_
      obtain ⟨u, _, hx⟩ := List.mem_filterMap.1 hx
      obtain ⟨v, _, hy⟩ := List.mem_filterMap.1 hy
      have := hpart hx
      have := hpart hy
      omega

/-- What a cut leaves lies within what was there before. -/
theorem within_of_mem_cut {r u x : CharRange} (hr : r.lo ≤ r.hi) (hx : x ∈ r.cut u) :
    x.lo ≤ x.hi ∧ r.lo ≤ x.lo ∧ x.hi ≤ r.hi := by
  unfold CharRange.cut at hx
  rcases List.mem_append.1 hx with hx | hx
  · split at hx
    · rw [List.mem_singleton] at hx
      subst hx
      dsimp only
      omega
    · cases hx
  · split at hx
    · rw [List.mem_singleton] at hx
      subst hx
      dsimp only
      omega
    · cases hx

theorem pairwise_cut {r u : CharRange} (hu : u.lo ≤ u.hi) :
    (r.cut u).Pairwise fun x y => x.hi + 1 < y.lo := by
  unfold CharRange.cut
  split
  · split
    · refine List.pairwise_pair.2 ?_
      dsimp only
      omega
    · exact List.pairwise_singleton _ _
  · split
    · exact List.pairwise_singleton _ _
    · exact List.Pairwise.nil

theorem canonical_flatMap_cut {rs : List CharRange} {u : CharRange} (hrs : Canonical ⟨rs⟩)
    (hu : u.lo ≤ u.hi) : Canonical ⟨rs.flatMap (·.cut u)⟩ := by
  constructor
  · intro x hx
    obtain ⟨r, hr, hx⟩ := List.mem_flatMap.1 hx
    exact (within_of_mem_cut (hrs.1 r hr) hx).1
  · refine List.pairwise_flatMap.2 ⟨fun r _ => pairwise_cut hu, ?_⟩
    refine hrs.2.imp_of_mem fun {r r'} hr hr' hrr x hx y hy => ?_
    have := within_of_mem_cut (hrs.1 r hr) hx
    have := within_of_mem_cut (hrs.1 r' hr') hy
    omega

theorem Canonical.diff (hs : s.Canonical) (ht : t.Canonical) : (s.diff t).Canonical := by
  have hfold : ∀ (us rs : List CharRange), (∀ u ∈ us, u.lo ≤ u.hi) → Canonical ⟨rs⟩ →
      Canonical ⟨us.foldl (fun rs u => rs.flatMap (·.cut u)) rs⟩ := by
    intro us
    induction us with
    | nil => exact fun rs _ hrs => hrs
    | cons u us ih =>
      intro rs hus hrs
      exact ih _ (fun v hv => hus v (List.mem_cons_of_mem u hv))
        (canonical_flatMap_cut hrs (hus u List.mem_cons_self))
  exact hfold t.ranges s.ranges ht.1 hs

/-! ## Queries -/

theorem isEmpty_iff (hs : s.Canonical) : s.isEmpty = true ↔ ∀ c, c ∉ s := by
  rw [isEmpty, List.isEmpty_iff]
  constructor
  · intro h c hc
    obtain ⟨r, hr, _⟩ := mem_iff.1 hc
    rw [h] at hr
    exact List.not_mem_nil hr
  · intro h
    rw [List.eq_nil_iff_forall_not_mem]
    intro r hr
    exact h r.lo (mem_iff.2 ⟨r, hr, Nat.le_refl _, hs.1 r hr⟩)

theorem includes_iff (hs : s.Canonical) (ht : t.Canonical) :
    s.includes t = true ↔ ∀ c, c ∈ t → c ∈ s := by
  rw [includes, isEmpty_iff (ht.diff hs)]
  simp only [mem_diff, not_and, not_not]

theorem intersects_iff : s.intersects t = true ↔ ∃ c, c ∈ s ∧ c ∈ t := by
  simp only [intersects, List.any_eq_true, decide_eq_true_eq, mem_iff]
  constructor
  · rintro ⟨r, hr, u, hu, h⟩
    exact ⟨max r.lo u.lo, ⟨r, hr, by omega⟩, ⟨u, hu, by omega⟩⟩
  · rintro ⟨c, ⟨r, hr, hrc⟩, ⟨u, hu, huc⟩⟩
    exact ⟨r, hr, u, hu, by omega⟩

/-! ## Number of members -/

theorem mem_toList : c ∈ s.toList ↔ c ∈ s := by
  rw [mem_iff, toList, List.mem_flatMap]
  simp only [List.mem_range'_1, CharRange.size]
  constructor
  · rintro ⟨r, hr, h⟩
    exact ⟨r, hr, by omega⟩
  · rintro ⟨r, hr, h⟩
    exact ⟨r, hr, by omega⟩

theorem nodup_toList (hs : s.Canonical) : s.toList.Nodup := by
  refine List.nodup_flatMap.2 ⟨fun r _ => List.nodup_range', hs.2.imp fun {r r'} hrr c hc hc' => ?_⟩
  simp only [List.mem_range'_1, CharRange.size] at hc hc'
  omega

theorem length_toList : s.toList.length = s.size := by
  unfold toList size
  induction s.ranges with
  | nil => rfl
  | cons r rs ih => simp [ih]

/-- The size of a canonical set is the number of its members. -/
theorem card_toFinset (hs : s.Canonical) : s.toList.toFinset.card = s.size := by
  rw [List.toFinset_card_of_nodup (nodup_toList hs), length_toList]

theorem size_pos (hs : s.Canonical) (hc : c ∈ s) : 0 < s.size := by
  rw [← card_toFinset hs, Finset.card_pos]
  exact ⟨c, List.mem_toFinset.2 (mem_toList.2 hc)⟩

theorem size_diff_add_size_inter (hs : s.Canonical) (ht : t.Canonical) :
    (s.diff t).size + (s.inter t).size = s.size := by
  have hdiff : (s.diff t).toList.toFinset = s.toList.toFinset \ t.toList.toFinset := by
    ext c
    simp only [List.mem_toFinset, Finset.mem_sdiff, mem_toList, mem_diff]
  have hinter : (s.inter t).toList.toFinset = s.toList.toFinset ∩ t.toList.toFinset := by
    ext c
    simp only [List.mem_toFinset, Finset.mem_inter, mem_toList, mem_inter]
  rw [← card_toFinset (hs.diff ht), ← card_toFinset (hs.inter ht), ← card_toFinset hs, hdiff, hinter]
  exact Finset.card_sdiff_add_card_inter _ _

/-- Sets with the same members have the same size. -/
theorem size_congr (hs : s.Canonical) (ht : t.Canonical) (h : ∀ c, c ∈ s ↔ c ∈ t) :
    s.size = t.size := by
  have heq : s.toList.toFinset = t.toList.toFinset := by
    ext c
    simp only [List.mem_toFinset, mem_toList, h]
  rw [← card_toFinset hs, ← card_toFinset ht, heq]

/-- A set with one member is written in one way only. -/
theorem eq_singleton_of_size (hs : s.Canonical) (hfirst : s.first? = some c) (hsize : s.size = 1) :
    s = singleton c := by
  obtain ⟨ranges⟩ := s
  cases ranges with
  | nil => cases hfirst
  | cons r rs =>
    have hr : r.lo ≤ r.hi := hs.1 r List.mem_cons_self
    have hlo : r.lo = c := Option.some.inj hfirst
    have hsum : r.size + (CharSet.mk rs).size = 1 := hsize
    rw [CharRange.size] at hsum
    cases rs with
    | nil =>
      have hhi : r.hi = c := by
        simp only [size, List.foldr_nil] at hsum
        omega
      obtain ⟨lo, hi⟩ := r
      dsimp only at hlo hhi
      subst hlo hhi
      simp [singleton, ofRange, CharSet.insertRange, insertInto, empty]
    | cons r' rs =>
      have hr' : r'.lo ≤ r'.hi := hs.1 r' (by simp)
      have : (CharSet.mk (r' :: rs)).size = r'.size + (CharSet.mk rs).size := rfl
      rw [this, CharRange.size] at hsum
      omega

/-! ## Members determine the set -/

/-- The members of the further ranges lie above the first range. -/
theorem lt_of_mem_tail {r : CharRange} {rs : List CharRange} (hs : Canonical ⟨r :: rs⟩)
    (hc : c ∈ CharSet.mk rs) : r.hi + 1 < c := by
  obtain ⟨x, hx, hlo, _⟩ := mem_iff.1 hc
  exact Nat.lt_of_lt_of_le ((List.pairwise_cons.1 hs.2).1 x hx) hlo

theorem Canonical.tail {r : CharRange} {rs : List CharRange} (hs : Canonical ⟨r :: rs⟩) :
    Canonical ⟨rs⟩ :=
  ⟨fun x hx => hs.1 x (List.mem_cons_of_mem r hx), (List.pairwise_cons.1 hs.2).2⟩

theorem mem_cons {r : CharRange} {rs : List CharRange} :
    c ∈ CharSet.mk (r :: rs) ↔ (r.lo ≤ c ∧ c ≤ r.hi) ∨ c ∈ CharSet.mk rs := by
  simp only [mem_iff, List.exists_mem_cons_iff]

/-- The first range ends where the first gap begins. -/
theorem first_range_le {r r' : CharRange} {rs rs' : List CharRange} (hs : Canonical ⟨r :: rs⟩)
    (ht : Canonical ⟨r' :: rs'⟩) (h : ∀ c, c ∈ CharSet.mk (r :: rs) ↔ c ∈ CharSet.mk (r' :: rs')) :
    r'.lo ≤ r.lo ∧ (r.lo = r'.lo → r'.hi ≤ r.hi) := by
  have hr : r.lo ≤ r.hi := hs.1 r List.mem_cons_self
  constructor
  · rcases mem_cons.1 ((h r.lo).1 (mem_cons.2 (.inl ⟨Nat.le_refl _, hr⟩))) with hin | hin
    · exact hin.1
    · have := ht.1 r' List.mem_cons_self
      have := lt_of_mem_tail ht hin
      omega
  · intro hlo
    by_contra hlt
    -- the number behind the first range would belong to the second set only
    have hin : r.hi + 1 ∈ CharSet.mk (r' :: rs') := mem_cons.2 (.inl ⟨by omega, by omega⟩)
    rcases mem_cons.1 ((h _).2 hin) with hin | hin
    · omega
    · exact Nat.lt_irrefl _ (lt_of_mem_tail hs hin)

/-- A canonical set is determined by its members. -/
theorem Canonical.ext (hs : s.Canonical) (ht : t.Canonical) (h : ∀ c, c ∈ s ↔ c ∈ t) : s = t := by
  obtain ⟨rs⟩ := s
  obtain ⟨rs'⟩ := t
  induction rs generalizing rs' with
  | nil =>
    cases rs' with
    | nil => rfl
    | cons r' rs' =>
      have hr := ht.1 r' List.mem_cons_self
      have hin := (h r'.lo).2 (mem_cons.2 (.inl ⟨Nat.le_refl _, hr⟩))
      exact absurd hin (by simp [mem_iff])
  | cons r rs ih =>
    cases rs' with
    | nil =>
      have hr := hs.1 r List.mem_cons_self
      have hin := (h r.lo).1 (mem_cons.2 (.inl ⟨Nat.le_refl _, hr⟩))
      exact absurd hin (by simp [mem_iff])
    | cons r' rs' =>
      obtain ⟨hlo, hhi⟩ := first_range_le hs ht h
      obtain ⟨hlo', hhi'⟩ := first_range_le ht hs fun c => (h c).symm
      have hlos : r.lo = r'.lo := Nat.le_antisymm hlo' hlo
      have hhis : r.hi = r'.hi := Nat.le_antisymm (hhi' hlos.symm) (hhi hlos)
      obtain rfl : r = r' := by
        cases r
        cases r'
        simp_all
      have htail : rs = rs' := by
        refine congrArg CharSet.ranges (ih hs.tail rs' ht.tail fun c => ⟨fun hc => ?_, fun hc => ?_⟩)
        · have := lt_of_mem_tail hs hc
          exact (mem_cons.1 ((h c).1 (mem_cons.2 (.inr hc)))).resolve_left (by omega)
        · have := lt_of_mem_tail ht hc
          exact (mem_cons.1 ((h c).2 (mem_cons.2 (.inr hc)))).resolve_left (by omega)
      rw [htail]

end CharSet
end Ebnf
