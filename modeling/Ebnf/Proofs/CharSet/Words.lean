import Mathlib.Data.List.TakeWhile
import Ebnf.Proofs.CharSet.Canonical

/-!
# Character sets in machine words

Bounds of ranges are kept in words of 32 bits, and each operation on sets is one
pass over the sorted ranges of its arguments.  The passes compute with words:
adding one to the largest word saturates where only a comparison follows, and is
a failure, as taking one from zero is, where a bound is made.  On canonical sets
no pass fails, also at both ends of the words, and each computes the operation of
the same meaning on sets of numbers.

Main results:

- Theorems `CharSet.spliceRange_eq`, `CharSet.mergeSorted_eq`, `CharSet.meetPass_eq` and
  `CharSet.cutPass?_eq`: the passes compute insertion, union, intersection and difference.
- Theorem `CharSet.Canonical.length_le`: words have room for half as many ranges.
- Theorem `CharSet.Construction.run_spec`: every set that the operations make from the
  empty one is made without overflow, is canonical, and has the members that it should have.
-/

namespace Ebnf
namespace CharSet

variable {s t : CharSet} {c : Nat} {r x : CharRange} {xs ys : List CharRange}

/-! ## Words -/

/-- The largest word. -/
def lastWord : Nat := 0xFFFFFFFF

/-- The next word, or the largest one again. -/
def saturatingSucc (n : Nat) : Nat :=
  if n < lastWord then n + 1 else lastWord

/-- The next word, if there is one. -/
def succ? (n : Nat) : Option Nat :=
  if n < lastWord then some (n + 1) else none

/-- The word before, if there is one. -/
def pred? (n : Nat) : Option Nat :=
  if 0 < n then some (n - 1) else none

/-- All bounds are words. -/
def InWords (s : CharSet) : Prop :=
  ∀ r ∈ s.ranges, r.hi ≤ lastWord

theorem toNat_le_lastWord (n : UInt32) : n.toNat ≤ lastWord :=
  Nat.le_of_lt_succ n.toNat_lt

/-- Saturation does not change a comparison with a word. -/
theorem saturatingSucc_lt {n m : Nat} (hm : m ≤ lastWord) :
    saturatingSucc n < m ↔ n + 1 < m := by
  unfold saturatingSucc
  split <;> omega

theorem le_saturatingSucc {n m : Nat} (hm : m ≤ lastWord) :
    m ≤ saturatingSucc n ↔ m ≤ n + 1 := by
  unfold saturatingSucc
  split <;> omega

/-! ## Lists of ranges -/

theorem canonical_cons : Canonical ⟨x :: xs⟩ ↔
    x.lo ≤ x.hi ∧ (∀ y ∈ xs, x.hi + 1 < y.lo) ∧ Canonical ⟨xs⟩ := by
  simp only [Canonical, List.forall_mem_cons, List.pairwise_cons]
  tauto

theorem mem_cons_ranges : c ∈ (⟨x :: xs⟩ : CharSet) ↔
    (x.lo ≤ c ∧ c ≤ x.hi) ∨ c ∈ (⟨xs⟩ : CharSet) := by
  simp only [mem_iff, List.mem_cons, exists_eq_or_imp]

theorem not_mem_nil_ranges : c ∉ (⟨[]⟩ : CharSet) := by
  simp [mem_iff]

theorem mem_append_ranges : c ∈ (⟨xs ++ ys⟩ : CharSet) ↔
    c ∈ (⟨xs⟩ : CharSet) ∨ c ∈ (⟨ys⟩ : CharSet) := by
  simp only [mem_iff, List.mem_append, or_and_right, exists_or]

theorem lt_of_mem_ranges {b : Nat} (h : ∀ x ∈ xs, b < x.lo) (hc : c ∈ (⟨xs⟩ : CharSet)) : b < c := by
  obtain ⟨r, hr, hlo, _⟩ := mem_iff.1 hc
  exact (h r hr).trans_le hlo

/-- Ranges may be put before a canonical list that begins beyond them. -/
theorem Canonical.append (hxs : Canonical ⟨xs⟩) (hys : Canonical ⟨ys⟩)
    (hbegin : ∀ x ∈ xs, ∀ c ∈ (⟨ys⟩ : CharSet), x.hi + 1 < c) : Canonical ⟨xs ++ ys⟩ := by
  refine ⟨fun r hr => (List.mem_append.1 hr).elim (hxs.1 r) (hys.1 r), ?_⟩
  refine List.pairwise_append.2 ⟨hxs.2, hys.2, fun x hx y hy => ?_⟩
  exact hbegin x hx y.lo (mem_iff.2 ⟨y, hy, Nat.le_refl _, hys.1 y hy⟩)

/-- The bounds of a canonical set are words if its members are. -/
theorem Canonical.inWords (hs : s.Canonical) (h : ∀ c ∈ s, c ≤ lastWord) : s.InWords :=
  fun r hr => h r.hi (mem_iff.2 ⟨r, hr, hs.1 r hr, Nat.le_refl _⟩)

theorem InWords.tail (h : InWords ⟨x :: xs⟩) : InWords ⟨xs⟩ :=
  fun r hr => h r (List.mem_cons_of_mem x hr)

theorem Canonical.sublist (hs : Canonical ⟨xs⟩) (h : ys.Sublist xs) : Canonical ⟨ys⟩ :=
  ⟨fun r hr => hs.1 r (h.subset hr), hs.2.sublist h⟩

/-- Behind the first range that reaches up to a bound, all do. -/
theorem Canonical.le_of_mem_dropWhile {b : Nat} (hs : Canonical ⟨xs⟩)
    (hx : x ∈ xs.dropWhile fun x => decide (x.hi < b)) : b ≤ x.hi := by
  induction xs with
  | nil => cases hx
  | cons y xs ih =>
    obtain ⟨hy, hsep, hrest⟩ := canonical_cons.1 hs
    by_cases hlow : y.hi < b
    · rw [List.dropWhile_cons, if_pos (decide_eq_true hlow)] at hx
      exact ih hrest hx
    · rw [List.dropWhile_cons, if_neg (by simpa using hlow)] at hx
      rcases List.mem_cons.1 hx with rfl | hmem
      · exact Nat.le_of_not_lt hlow
      · have := hsep x hmem
        have := hrest.1 x hmem
        omega

/-- Every range of a canonical set takes up one number and separates itself by another. -/
theorem Canonical.add_length_le {b : Nat} (hs : Canonical ⟨xs⟩) (hwords : InWords ⟨xs⟩)
    (hb : ∀ x ∈ xs, b ≤ x.lo) (hb' : b ≤ lastWord + 2) :
    b + 2 * xs.length ≤ lastWord + 2 := by
  induction xs generalizing b with
  | nil => simpa using hb'
  | cons x xs ih =>
    obtain ⟨hx, hsep, hrest⟩ := canonical_cons.1 hs
    have hlo := hb x List.mem_cons_self
    have hhi : x.hi ≤ lastWord := hwords x List.mem_cons_self
    have htail := ih (b := x.hi + 2) hrest hwords.tail (fun y hy => hsep y hy) (by omega)
    simp only [List.length_cons]
    omega

/-- A canonical set of words has at most half as many ranges as there are words. -/
theorem Canonical.length_le (hs : s.Canonical) (hwords : s.InWords) :
    s.ranges.length ≤ 0x80000000 := by
  have h := hs.add_length_le (b := 0) hwords (fun _ _ => Nat.zero_le _) (Nat.zero_le _)
  simp only [lastWord] at h
  omega

/-! ## Inserting a range -/

/-- Takes the ranges that begin up to `stop` from the front of a list into a range. -/
def absorb (stop : Nat) (r : CharRange) : List CharRange → CharRange × List CharRange
  | [] => (r, [])
  | x :: xs =>
    if x.lo ≤ stop then absorb stop ⟨min r.lo x.lo, max r.hi x.hi⟩ xs else (r, x :: xs)

/-- Replaces the ranges that a range overlaps or touches by one range. -/
def spliceRange (s : CharSet) (lo hi : Nat) : CharSet :=
  if hi < lo then s
  else
    let isBelow := fun x : CharRange => decide (saturatingSucc x.hi < lo)
    let (merged, after) := absorb (saturatingSucc hi) ⟨lo, hi⟩ (s.ranges.dropWhile isBelow)
    ⟨s.ranges.takeWhile isBelow ++ merged :: after⟩

/-- Absorbing is inserting, as long as the range has not grown beyond `hi`, or only into the gap
before what follows. -/
theorem insertInto_eq_absorb {hi : Nat} (hxs : Canonical ⟨xs⟩) (hwords : InWords ⟨xs⟩)
    (hlow : ∀ x ∈ xs, ¬ x.hi + 1 < r.lo) (hle : hi ≤ r.hi)
    (hgrown : r.hi = hi ∨ ∀ x ∈ xs, r.hi + 1 < x.lo) :
    insertInto r xs = (absorb (saturatingSucc hi) r xs).1 :: (absorb (saturatingSucc hi) r xs).2 := by
  induction xs generalizing r with
  | nil => rfl
  | cons x xs ih =>
    obtain ⟨hx, hsep, hrest⟩ := canonical_cons.1 hxs
    have hword : x.lo ≤ lastWord := hx.trans (hwords x List.mem_cons_self)
    rw [insertInto, if_neg (hlow x List.mem_cons_self), absorb]
    have hstop : x.lo ≤ saturatingSucc hi ↔ ¬ r.hi + 1 < x.lo := by
      rw [le_saturatingSucc hword]
      rcases hgrown with rfl | hgap
      · omega
      · have := hgap x List.mem_cons_self
        omega
    by_cases hgap : r.hi + 1 < x.lo
    · rw [if_pos hgap, if_neg (by rw [hstop]; exact not_not.2 hgap)]
    · rw [if_neg hgap, if_pos (hstop.2 hgap)]
      refine ih hrest hwords.tail (fun y hy => ?_) (by simp only; omega) ?_
      · have := hlow y (List.mem_cons_of_mem x hy)
        simp only
        omega
      · -- what has grown beyond `hi` ends where `x` ends
        have hr : r.hi = hi := hgrown.resolve_right fun h => hgap (h x List.mem_cons_self)
        by_cases hbeyond : x.hi ≤ hi
        · exact .inl (by simp only; omega)
        · refine .inr fun y hy => ?_
          have := hsep y hy
          simp only
          omega

/-- Ranges far below come before the insertion. -/
theorem insertInto_append {before : List CharRange} (h : ∀ x ∈ before, x.hi + 1 < r.lo) :
    insertInto r (before ++ xs) = before ++ insertInto r xs := by
  induction before with
  | nil => rfl
  | cons x before ih =>
    obtain ⟨hx, hbefore⟩ := List.forall_mem_cons.1 h
    rw [List.cons_append, insertInto, if_pos hx, ih hbefore, List.cons_append]

theorem spliceRange_eq {lo hi : Nat} (hs : s.Canonical) (hwords : s.InWords) (hlo : lo ≤ lastWord) :
    s.spliceRange lo hi = s.insertRange lo hi := by
  unfold spliceRange insertRange
  split
  · rfl
  next hle =>
    have hbelow : (fun x : CharRange => decide (saturatingSucc x.hi < lo)) =
        fun x => decide (x.hi < lo - 1) := by
      funext x
      rw [decide_eq_decide, saturatingSucc_lt hlo]
      omega
    simp only [hbelow]
    have hbefore : ∀ x ∈ s.ranges.takeWhile (fun x => decide (x.hi < lo - 1)), x.hi + 1 < lo := by
      intro x hx
      have hlow := List.mem_takeWhile_imp (p := fun x : CharRange => decide (x.hi < lo - 1)) hx
      have := of_decide_eq_true hlow
      omega
    have hrest : ∀ x ∈ s.ranges.dropWhile (fun x => decide (x.hi < lo - 1)), ¬ x.hi + 1 < lo := by
      intro x hx
      have := hs.le_of_mem_dropWhile hx
      omega
    conv_rhs => rw [← List.takeWhile_append_dropWhile (p := fun x => decide (x.hi < lo - 1))
      (l := s.ranges)]
    rw [insertInto_append hbefore, insertInto_eq_absorb (hs.sublist (List.dropWhile_sublist _))
      (fun x hx => hwords x ((List.dropWhile_sublist _).subset hx)) hrest (Nat.le_refl hi) (.inl rfl)]

/-! ## Union -/

/-- Goes through ranges in the order of their beginnings and lets the last one grow as long as the
next overlaps or touches it. -/
def growLast (last : CharRange) : List CharRange → List CharRange
  | [] => [last]
  | x :: xs =>
    if x.lo ≤ saturatingSucc last.hi then growLast ⟨last.lo, max last.hi x.hi⟩ xs
    else last :: growLast x xs

/-- Sorts the ranges of both sets by their beginnings and joins what overlaps or touches. -/
def mergeSorted (s t : CharSet) : CharSet :=
  match (s.ranges ++ t.ranges).mergeSort fun x y => decide (x.lo ≤ y.lo) with
  | [] => ⟨[]⟩
  | x :: xs => ⟨growLast x xs⟩

/-- Growing makes a sorted list canonical, begins with the first range, and keeps the members. -/
theorem growLast_spec {last : CharRange} (hlast : last.lo ≤ last.hi)
    (hxs : ∀ x ∈ xs, x.lo ≤ x.hi ∧ x.hi ≤ lastWord)
    (hsorted : (last :: xs).Pairwise fun x y => x.lo ≤ y.lo) :
    Canonical ⟨growLast last xs⟩ ∧ (∀ y ∈ growLast last xs, last.lo ≤ y.lo) ∧
      ∀ c, c ∈ (⟨growLast last xs⟩ : CharSet) ↔ c ∈ (⟨last :: xs⟩ : CharSet) := by
  induction xs generalizing last with
  | nil => exact ⟨canonical_cons.2 ⟨hlast, by simp, canonical_empty⟩, by simp [growLast], fun c => Iff.rfl⟩
  | cons x xs ih =>
    obtain ⟨⟨hx, hword⟩, hrest⟩ := List.forall_mem_cons.1 hxs
    obtain ⟨hfirst, hsorted⟩ := List.pairwise_cons.1 hsorted
    obtain ⟨hle, hfirst⟩ := List.forall_mem_cons.1 hfirst
    rw [growLast]
    split
    next htouch =>
      rw [le_saturatingSucc (hx.trans hword)] at htouch
      have hgrown : (⟨last.lo, max last.hi x.hi⟩ :: xs : List CharRange).Pairwise
          fun x y => x.lo ≤ y.lo :=
        List.pairwise_cons.2 ⟨hfirst, (List.pairwise_cons.1 hsorted).2⟩
      obtain ⟨hcanonical, hbegin, hmem⟩ := ih (by simp only; omega) hrest hgrown
      refine ⟨hcanonical, hbegin, fun c => (hmem c).trans ?_⟩
      simp only [mem_cons_ranges, ← or_assoc]
      refine or_congr_left ?_
      omega
    next htouch =>
      rw [le_saturatingSucc (hx.trans hword)] at htouch
      obtain ⟨hcanonical, hbegin, hmem⟩ := ih hx hrest hsorted
      refine ⟨canonical_cons.2 ⟨hlast, fun y hy => ?_, hcanonical⟩, ?_, fun c => ?_⟩
      · have := hbegin y hy
        omega
      · refine List.forall_mem_cons.2 ⟨Nat.le_refl _, fun y hy => hle.trans (hbegin y hy)⟩
      · rw [mem_cons_ranges, mem_cons_ranges, hmem]

theorem mergeSorted_eq (hs : s.Canonical) (ht : t.Canonical) (hs' : s.InWords) (ht' : t.InWords) :
    s.mergeSorted t = s.union t := by
  have hranges : ∀ x ∈ s.ranges ++ t.ranges, x.lo ≤ x.hi ∧ x.hi ≤ lastWord := by
    intro x hx
    rcases List.mem_append.1 hx with hx | hx
    · exact ⟨hs.1 x hx, hs' x hx⟩
    · exact ⟨ht.1 x hx, ht' x hx⟩
  have hperm := List.mergeSort_perm (s.ranges ++ t.ranges) fun x y => decide (x.lo ≤ y.lo)
  have hsorted : ((s.ranges ++ t.ranges).mergeSort fun x y => decide (x.lo ≤ y.lo)).Pairwise
      fun x y => decide (x.lo ≤ y.lo) = true :=
    List.pairwise_mergeSort (by simp only [decide_eq_true_eq]; omega) (by simp; omega) _
  have hmem : ∀ c, c ∈ (⟨(s.ranges ++ t.ranges).mergeSort fun x y => decide (x.lo ≤ y.lo)⟩ : CharSet) ↔
      c ∈ s.union t := by
    intro c
    rw [mem_union hs, ← mem_append_ranges, mem_iff, mem_iff]
    simp only [hperm.mem_iff]
  unfold mergeSorted
  generalize (s.ranges ++ t.ranges).mergeSort (fun x y => decide (x.lo ≤ y.lo)) = all at *
  cases all with
  | nil => exact canonical_empty.ext (hs.union t) hmem
  | cons x xs =>
    have hall : ∀ y ∈ x :: xs, y.lo ≤ y.hi ∧ y.hi ≤ lastWord :=
      fun y hy => hranges y (hperm.mem_iff.1 hy)
    obtain ⟨hx, hxs⟩ := List.forall_mem_cons.1 hall
    obtain ⟨hcanonical, _, hsame⟩ := growLast_spec hx.1 hxs
      (hsorted.imp fun h => of_decide_eq_true h)
    exact hcanonical.ext (hs.union t) fun c => (hsame c).trans (hmem c)

/-! ## Intersection -/

/-- Goes through two lists of ranges at once, keeps what their first ranges share, and drops the
one that ends first. -/
def meetPass : List CharRange → List CharRange → List CharRange
  | x :: xs, y :: ys =>
    (x.inter? y).toList ++ if x.hi < y.hi then meetPass xs (y :: ys) else meetPass (x :: xs) ys
  | [], _ => []
  | _ :: _, [] => []
termination_by xs ys => xs.length + ys.length

/-- What two ranges share, before what begins behind one of them. -/
theorem inter?_append {y : CharRange} {rest : List CharRange} (hrest : Canonical ⟨rest⟩)
    (hbegin : ∀ c ∈ (⟨rest⟩ : CharSet), min x.hi y.hi + 1 < c) :
    Canonical ⟨(x.inter? y).toList ++ rest⟩ ∧
      ∀ c, c ∈ (⟨(x.inter? y).toList ++ rest⟩ : CharSet) ↔
        ((x.lo ≤ c ∧ c ≤ x.hi) ∧ y.lo ≤ c ∧ c ≤ y.hi) ∨ c ∈ (⟨rest⟩ : CharSet) := by
  rw [CharRange.inter?]
  split
  next hshared =>
    refine ⟨canonical_cons.2 ⟨hshared, fun z hz => ?_, hrest⟩, fun c => ?_⟩
    · exact hbegin z.lo (mem_iff.2 ⟨z, hz, Nat.le_refl _, hrest.1 z hz⟩)
    · refine mem_cons_ranges.trans (or_congr_left ?_)
      simp only
      omega
  next hnone =>
    refine ⟨hrest, fun c => ⟨.inr, fun h => h.resolve_left ?_⟩⟩
    omega

/-- A pass over canonical lists finds the common members in canonical form. -/
theorem meetPass_spec (hxs : Canonical ⟨xs⟩) (hys : Canonical ⟨ys⟩) :
    Canonical ⟨meetPass xs ys⟩ ∧
      ∀ c, c ∈ (⟨meetPass xs ys⟩ : CharSet) ↔ c ∈ (⟨xs⟩ : CharSet) ∧ c ∈ (⟨ys⟩ : CharSet) := by
  fun_induction meetPass xs ys with
  | case1 x xs y ys ihx ihy =>
    obtain ⟨_, hxsep, hxrest⟩ := canonical_cons.1 hxs
    obtain ⟨_, hysep, hyrest⟩ := canonical_cons.1 hys
    have hxlt : ∀ c ∈ (⟨xs⟩ : CharSet), x.hi + 1 < c := fun c => lt_of_mem_ranges hxsep
    have hylt : ∀ c ∈ (⟨ys⟩ : CharSet), y.hi + 1 < c := fun c => lt_of_mem_ranges hysep
    split
    next hlt =>
      -- nothing behind `y` is shared with `x`
      obtain ⟨hcanonical, hmem⟩ := ihx hxrest hys
      obtain ⟨hcanonical', hmem'⟩ := inter?_append (x := x) (y := y) hcanonical fun c hc => by
        have := hxlt c ((hmem c).1 hc).1
        omega
      refine ⟨hcanonical', fun c => ?_⟩
      rw [hmem', hmem, mem_cons_ranges, mem_cons_ranges]
      constructor
      · rintro (⟨hx, hy⟩ | ⟨hxs, hy⟩)
        · exact ⟨.inl hx, .inl hy⟩
        · exact ⟨.inr hxs, hy⟩
      · rintro ⟨hx | hxs, hy⟩
        · refine .inl ⟨hx, hy.resolve_right fun hc => ?_⟩
          have := hylt c hc
          omega
        · exact .inr ⟨hxs, hy⟩
    next hge =>
      obtain ⟨hcanonical, hmem⟩ := ihy hxs hyrest
      obtain ⟨hcanonical', hmem'⟩ := inter?_append (x := x) (y := y) hcanonical fun c hc => by
        have := hylt c ((hmem c).1 hc).2
        omega
      refine ⟨hcanonical', fun c => ?_⟩
      rw [hmem', hmem, mem_cons_ranges, mem_cons_ranges]
      constructor
      · rintro (⟨hx, hy⟩ | ⟨hx, hys⟩)
        · exact ⟨.inl hx, .inl hy⟩
        · exact ⟨hx, .inr hys⟩
      · rintro ⟨hx, hy | hys⟩
        · refine .inl ⟨hx.resolve_right fun hc => ?_, hy⟩
          have := hxlt c hc
          omega
        · exact .inr ⟨hx, hys⟩
  | case2 => exact ⟨canonical_empty, fun c => by simp [not_mem_nil_ranges]⟩
  | case3 => exact ⟨canonical_empty, fun c => by simp [not_mem_nil_ranges]⟩

theorem meetPass_eq (hs : s.Canonical) (ht : t.Canonical) :
    ⟨meetPass s.ranges t.ranges⟩ = s.inter t := by
  obtain ⟨hcanonical, hmem⟩ := meetPass_spec hs ht
  exact hcanonical.ext (hs.inter ht) fun c => (hmem c).trans mem_inter.symm

/-! ## Difference -/

/-- What lies from `lo` on below a cut. -/
def below? (lo : Nat) (cut : CharRange) : Option (List CharRange) :=
  if lo < cut.lo then (pred? cut.lo).map fun hi => [⟨lo, hi⟩] else some []

/-- What remains from `lo` up to the end of a range without the members of the cuts, none of which
ends below `lo`. -/
def trim? (r : CharRange) (lo : Nat) : List CharRange → Option (List CharRange)
  | [] => some [⟨lo, r.hi⟩]
  | cut :: cuts =>
    if cut.lo ≤ r.hi then do
      let left ← below? lo cut
      if r.hi ≤ cut.hi then some left
      else do
        let next ← succ? cut.hi
        let rest ← trim? r next cuts
        some (left ++ rest)
    else some [⟨lo, r.hi⟩]

/-- Goes through the ranges of a set, and drops the cuts that end before each for good. -/
def cutPass? : List CharRange → List CharRange → Option (List CharRange)
  | [], _ => some []
  | r :: rs, cuts => do
    let cuts := cuts.dropWhile fun cut => decide (cut.hi < r.lo)
    let trimmed ← trim? r r.lo cuts
    let rest ← cutPass? rs cuts
    some (trimmed ++ rest)

theorem below?_spec (lo : Nat) (cut : CharRange) :
    ∃ left, below? lo cut = some left ∧ Canonical ⟨left⟩ ∧ (∀ x ∈ left, x.hi < cut.lo) ∧
      ∀ c, c ∈ (⟨left⟩ : CharSet) ↔ lo ≤ c ∧ c < cut.lo := by
  unfold below?
  split
  next hlt =>
    refine ⟨[⟨lo, cut.lo - 1⟩], ?_, canonical_cons.2 ⟨by simp only; omega, by simp, canonical_empty⟩,
      ?_, fun c => ?_⟩
    · rw [pred?, if_pos (Nat.zero_lt_of_lt hlt), Option.map_some]
    · simp only [List.mem_singleton, forall_eq]
      omega
    · simp only [mem_cons_ranges, not_mem_nil_ranges, or_false]
      omega
  next hge =>
    refine ⟨[], rfl, canonical_empty, by simp, fun c => ?_⟩
    simp only [not_mem_nil_ranges, false_iff]
    omega

/-- If no cut begins up to the end, all remains. -/
theorem whole_spec {lo hi : Nat} {cuts : List CharRange} (hle : lo ≤ hi)
    (hcuts : ∀ cut ∈ cuts, hi < cut.lo) :
    Canonical ⟨[⟨lo, hi⟩]⟩ ∧
      ∀ c, c ∈ (⟨[⟨lo, hi⟩]⟩ : CharSet) ↔ (lo ≤ c ∧ c ≤ hi) ∧ c ∉ (⟨cuts⟩ : CharSet) := by
  refine ⟨canonical_cons.2 ⟨hle, by simp, canonical_empty⟩, fun c => ?_⟩
  have hnot : c ≤ hi → c ∉ (⟨cuts⟩ : CharSet) := fun hc hmem => by
    have := lt_of_mem_ranges hcuts hmem
    omega
  simp only [mem_cons_ranges, not_mem_nil_ranges, or_false]
  tauto

section Cut

variable {lo hi c : Nat} {cut : CharRange} {cuts : List CharRange}

/-- If the first cut covers the end, what remains lies below it. -/
theorem lt_cut_iff (hcanonical : Canonical ⟨cut :: cuts⟩) (hmeets : cut.lo ≤ hi) (hcovers : hi ≤ cut.hi) :
    lo ≤ c ∧ c < cut.lo ↔ (lo ≤ c ∧ c ≤ hi) ∧ c ∉ (⟨cut :: cuts⟩ : CharSet) := by
  have hbehind : c ∈ (⟨cuts⟩ : CharSet) → cut.hi + 1 < c :=
    lt_of_mem_ranges (canonical_cons.1 hcanonical).2.1
  rw [mem_cons_ranges]
  constructor
  · rintro ⟨hlo, hlt⟩
    refine ⟨by omega, ?_⟩
    rintro (hcut | hmem)
    · omega
    · have := hbehind hmem
      omega
  · rintro ⟨hc, hnot⟩
    have := not_or.1 hnot
    omega

/-- If the first cut ends before the end, what remains lies below it, or behind it and is in no other
cut. -/
theorem lt_cut_or_iff (hcanonical : Canonical ⟨cut :: cuts⟩) (hfirst : lo ≤ cut.hi) (hends : cut.hi < hi) :
    (lo ≤ c ∧ c < cut.lo) ∨ (cut.hi + 1 ≤ c ∧ c ≤ hi) ∧ c ∉ (⟨cuts⟩ : CharSet) ↔
      (lo ≤ c ∧ c ≤ hi) ∧ c ∉ (⟨cut :: cuts⟩ : CharSet) := by
  obtain ⟨hle, hsep, _⟩ := canonical_cons.1 hcanonical
  have hbehind : c ∈ (⟨cuts⟩ : CharSet) → cut.hi + 1 < c := lt_of_mem_ranges hsep
  rw [mem_cons_ranges]
  constructor
  · rintro (hc | ⟨hc, hnot⟩)
    · refine ⟨by omega, ?_⟩
      rintro (hcut | hmem)
      · omega
      · have := hbehind hmem
        omega
    · exact ⟨by omega, fun h => h.elim (by omega) hnot⟩
  · rintro ⟨hc, hnot⟩
    obtain ⟨hout, hnot⟩ := not_or.1 hnot
    by_cases hlow : c < cut.lo
    · exact .inl ⟨hc.1, hlow⟩
    · exact .inr ⟨by omega, hnot⟩

end Cut

/-- Trimming a range of words succeeds, and leaves its members from `lo` on that are in no cut. -/
theorem trim?_spec {lo : Nat} {cuts : List CharRange} (hlo : lo ≤ r.hi) (hword : r.hi ≤ lastWord)
    (hcuts : Canonical ⟨cuts⟩) (hend : ∀ cut ∈ cuts, lo ≤ cut.hi) :
    ∃ rest, trim? r lo cuts = some rest ∧ Canonical ⟨rest⟩ ∧
      ∀ c, c ∈ (⟨rest⟩ : CharSet) ↔ (lo ≤ c ∧ c ≤ r.hi) ∧ c ∉ (⟨cuts⟩ : CharSet) := by
  induction cuts generalizing lo with
  | nil => exact ⟨_, rfl, whole_spec hlo (by simp)⟩
  | cons cut cuts ih =>
    obtain ⟨hcut, hsep, hrest⟩ := canonical_cons.1 hcuts
    have hfirst := hend cut List.mem_cons_self
    obtain ⟨left, hleft, hcanonical, hbelow, hmem⟩ := below?_spec lo cut
    rw [trim?]
    by_cases hmeets : cut.lo ≤ r.hi
    · rw [if_pos hmeets, hleft, Option.bind_eq_bind, Option.bind_some]
      by_cases hcovers : r.hi ≤ cut.hi
      · refine ⟨left, if_pos hcovers, hcanonical, fun c => ?_⟩
        rw [hmem, lt_cut_iff hcuts hmeets hcovers]
      · -- the next piece begins behind the cut
        have hnext : ∀ next ∈ cuts, cut.hi + 1 ≤ next.hi := fun next hnext => by
          have := hsep next hnext
          have := hrest.1 next hnext
          omega
        obtain ⟨rest, htrim, hcanonical', hmem'⟩ := ih (Nat.lt_of_not_le hcovers) hrest hnext
        have hsucc : succ? cut.hi = some (cut.hi + 1) := if_pos (by omega)
        refine ⟨left ++ rest, ?_, hcanonical.append hcanonical' fun x hx c hc => ?_, fun c => ?_⟩
        · rw [if_neg hcovers, hsucc, Option.bind_eq_bind, Option.bind_some, htrim, Option.bind_some]
        · have := hbelow x hx
          have := (hmem' c).1 hc
          omega
        · rw [mem_append_ranges, hmem, hmem', lt_cut_or_iff hcuts hfirst (Nat.lt_of_not_le hcovers)]
    · rw [if_neg hmeets]
      refine ⟨_, rfl, whole_spec hlo (List.forall_mem_cons.2 ⟨by omega, fun next hnext => ?_⟩)⟩
      have := hsep next hnext
      omega

/-- What ends below a bound has no members from there on. -/
theorem mem_dropWhile_iff {b : Nat} {cuts : List CharRange} (hc : b ≤ c) :
    c ∈ (⟨cuts.dropWhile fun cut => decide (cut.hi < b)⟩ : CharSet) ↔ c ∈ (⟨cuts⟩ : CharSet) := by
  induction cuts with
  | nil => rfl
  | cons cut cuts ih =>
    by_cases hlow : cut.hi < b
    · rw [List.dropWhile_cons, if_pos (decide_eq_true hlow), ih, mem_cons_ranges,
        or_iff_right (by omega)]
    · rw [List.dropWhile_cons, if_neg (by simpa using hlow)]

/-- A pass over canonical lists of words succeeds, and leaves the members that are in no cut in
canonical form. -/
theorem cutPass?_spec {cuts : List CharRange} (hxs : Canonical ⟨xs⟩) (hwords : InWords ⟨xs⟩)
    (hcuts : Canonical ⟨cuts⟩) :
    ∃ rest, cutPass? xs cuts = some rest ∧ Canonical ⟨rest⟩ ∧
      ∀ c, c ∈ (⟨rest⟩ : CharSet) ↔ c ∈ (⟨xs⟩ : CharSet) ∧ c ∉ (⟨cuts⟩ : CharSet) := by
  induction xs generalizing cuts with
  | nil => exact ⟨[], rfl, canonical_empty, fun c => by simp [not_mem_nil_ranges]⟩
  | cons x xs ih =>
    obtain ⟨hx, hsep, hrest⟩ := canonical_cons.1 hxs
    have hdrop := hcuts.sublist (List.dropWhile_sublist fun cut => decide (cut.hi < x.lo))
    obtain ⟨trimmed, htrim, hcanonical, hmem⟩ := trim?_spec hx (hwords x List.mem_cons_self) hdrop
      fun cut hcut => hcuts.le_of_mem_dropWhile hcut
    obtain ⟨rest, hpass, hcanonical', hmem'⟩ := ih hrest hwords.tail hdrop
    have hbehind : ∀ c ∈ (⟨xs⟩ : CharSet), x.hi + 1 < c := fun c => lt_of_mem_ranges hsep
    refine ⟨trimmed ++ rest, ?_, hcanonical.append hcanonical' fun y hy c hc => ?_, fun c => ?_⟩
    · rw [cutPass?, htrim, Option.bind_eq_bind, Option.bind_some, hpass, Option.bind_some]
    · have hend : y.hi ∈ (⟨trimmed⟩ : CharSet) :=
        mem_iff.2 ⟨y, hy, hcanonical.1 y hy, Nat.le_refl _⟩
      have := (hmem y.hi).1 hend
      have := hbehind c ((hmem' c).1 hc).1
      omega
    · rw [mem_append_ranges, hmem, hmem', mem_cons_ranges, or_and_right]
      refine or_congr (and_congr_right fun hc => ?_) (and_congr_right fun hc => ?_)
      · rw [mem_dropWhile_iff hc.1]
      · have := hbehind c hc
        rw [mem_dropWhile_iff (by omega)]

theorem cutPass?_eq (hs : s.Canonical) (hwords : s.InWords) (ht : t.Canonical) :
    (cutPass? s.ranges t.ranges).map CharSet.mk = some (s.diff t) := by
  obtain ⟨rest, hpass, hcanonical, hmem⟩ := cutPass?_spec hs hwords ht
  rw [hpass, Option.map_some, hcanonical.ext (hs.diff ht) fun c => (hmem c).trans mem_diff.symm]

/-! ## All sets -/

/-- How a set is made from the empty one. -/
inductive Construction
  | empty
  | insertRange (base : Construction) (lo hi : UInt32)
  | insert (base : Construction) (c : UInt32)
  | union (left right : Construction)
  | inter (left right : Construction)
  | diff (left right : Construction)

namespace Construction

/-- Makes the set with the passes over words; nothing if a bound is no word. -/
def run : Construction → Option CharSet
  | empty => some ∅
  | insertRange base lo hi => do return (← base.run).spliceRange lo.toNat hi.toNat
  | insert base c => do return (← base.run).spliceRange c.toNat c.toNat
  | union left right => do return (← left.run).mergeSorted (← right.run)
  | inter left right => do return ⟨meetPass (← left.run).ranges (← right.run).ranges⟩
  | diff left right => do
    let ranges ← cutPass? (← left.run).ranges (← right.run).ranges
    return ⟨ranges⟩

/-- Makes the set with the operations on numbers. -/
def set : Construction → CharSet
  | empty => ∅
  | insertRange base lo hi => base.set.insertRange lo.toNat hi.toNat
  | insert base c => base.set.insert c.toNat
  | union left right => left.set.union right.set
  | inter left right => left.set.inter right.set
  | diff left right => left.set.diff right.set

/-- The members that the set should have. -/
def Has : Construction → Nat → Prop
  | empty, _ => False
  | insertRange base lo hi, c => base.Has c ∨ lo.toNat ≤ c ∧ c ≤ hi.toNat
  | insert base d, c => base.Has c ∨ c = d.toNat
  | union left right, c => left.Has c ∨ right.Has c
  | inter left right, c => left.Has c ∧ right.Has c
  | diff left right, c => left.Has c ∧ ¬ right.Has c

theorem canonical_set (k : Construction) : k.set.Canonical := by
  induction k with
  | empty => exact canonical_empty
  | insertRange base lo hi ih => exact ih.insertRange _ _
  | insert base c ih => exact ih.insertRange _ _
  | union left right ihl _ => exact ihl.union _
  | inter left right ihl ihr => exact ihl.inter ihr
  | diff left right ihl ihr => exact ihl.diff ihr

theorem mem_set {k : Construction} : c ∈ k.set ↔ k.Has c := by
  induction k with
  | empty => exact iff_of_false not_mem_nil_ranges id
  | insertRange base lo hi ih =>
    rw [set, mem_insertRange base.canonical_set.1, ih, Has, or_comm]
  | insert base d ih =>
    rw [set, CharSet.insert, mem_insertRange base.canonical_set.1, ih, Has, or_comm]
    exact or_congr_right ⟨fun h => Nat.le_antisymm h.2 h.1, fun h => by omega⟩
  | union left right ihl ihr => rw [set, mem_union left.canonical_set, ihl, ihr, Has]
  | inter left right ihl ihr => rw [set, mem_inter, ihl, ihr, Has]
  | diff left right ihl ihr => rw [set, mem_diff, ihl, ihr, Has]

theorem le_lastWord {k : Construction} (h : k.Has c) : c ≤ lastWord := by
  induction k with
  | empty => exact h.elim
  | insertRange base lo hi ih => exact h.elim ih fun h => h.2.trans (toNat_le_lastWord hi)
  | insert base d ih => exact h.elim ih fun h => h ▸ toNat_le_lastWord d
  | union left right ihl ihr => exact h.elim ihl ihr
  | inter left right ihl _ => exact ihl h.1
  | diff left right ihl _ => exact ihl h.1

theorem inWords_set (k : Construction) : k.set.InWords :=
  k.canonical_set.inWords fun _ hc => le_lastWord (mem_set.1 hc)

/-- The passes never leave the words, and make what the operations on numbers make. -/
theorem run_eq_set (k : Construction) : k.run = some k.set := by
  induction k with
  | empty => rfl
  | insertRange base lo hi ih =>
    simp only [run, ih, Option.bind_eq_bind, Option.bind_some, Option.pure_def]
    rw [spliceRange_eq base.canonical_set base.inWords_set (toNat_le_lastWord lo), set]
  | insert base c ih =>
    simp only [run, ih, Option.bind_eq_bind, Option.bind_some, Option.pure_def]
    rw [spliceRange_eq base.canonical_set base.inWords_set (toNat_le_lastWord c), set, CharSet.insert]
  | union left right ihl ihr =>
    simp only [run, ihl, ihr, Option.bind_eq_bind, Option.bind_some, Option.pure_def]
    rw [mergeSorted_eq left.canonical_set right.canonical_set left.inWords_set right.inWords_set, set]
  | inter left right ihl ihr =>
    simp only [run, ihl, ihr, Option.bind_eq_bind, Option.bind_some, Option.pure_def]
    rw [meetPass_eq left.canonical_set right.canonical_set, set]
  | diff left right ihl ihr =>
    have hdiff := cutPass?_eq left.canonical_set left.inWords_set right.canonical_set
    simp only [run, ihl, ihr, Option.bind_eq_bind, Option.bind_some, Option.pure_def]
    rw [set, ← hdiff, Option.map_eq_bind]
    rfl

/-- Whatever words are inserted and whatever sets are combined, no bound leaves the words, the ranges
are canonical and few enough to be counted by words, and the members are the ones that the operations
stand for. -/
theorem run_spec (k : Construction) :
    ∃ s, k.run = some s ∧ s = k.set ∧ s.Canonical ∧ s.InWords ∧ s.ranges.length ≤ 0x80000000 ∧
      ∀ c, c ∈ s ↔ k.Has c :=
  ⟨k.set, k.run_eq_set, rfl, k.canonical_set, k.inWords_set,
    k.canonical_set.length_le k.inWords_set, fun _ => mem_set⟩

/-- Both ends of the words: a full set without its first and last member, and the two put back. -/
example :
    let full := empty.insertRange 0 0xFFFFFFFF
    let ends := (empty.insert 0).insert 0xFFFFFFFF
    (diff full ends).run = some ⟨[⟨1, 0xFFFFFFFE⟩]⟩ ∧
      (union (diff full ends) ends).run = some ⟨[⟨0, 0xFFFFFFFF⟩]⟩ := by
  simp only [run_eq_set]
  decide +kernel

end Construction

end CharSet
end Ebnf
