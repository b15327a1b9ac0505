/-!
# Character sets

A character set is a list of closed ranges of code points.  The operations keep
the list *canonical*: every range is nonempty, ranges ascend, and between two
neighbours at least one code point is missing.  A canonical list is determined
by its members, so equality of sets is equality of lists.

Main results:

- Theorem `CharSet.mem_iff`: membership is membership in some range.
- Theorem `CharSet.mem_insertRange`: inserting a range adds exactly its members.
- Theorems `CharSet.mem_inter` and `CharSet.mem_diff`: intersection and difference.
-/

namespace Ebnf

/-- A closed range of code points, both ends included. -/
structure CharRange where
  lo : Nat
  hi : Nat
  deriving DecidableEq, Repr, Inhabited

namespace CharRange

/-- Whether a code point lies in the range. -/
def contains (r : CharRange) (c : Nat) : Bool :=
  decide (r.lo ≤ c) && decide (c ≤ r.hi)

/-- Number of code points in the range. -/
def size (r : CharRange) : Nat :=
  r.hi + 1 - r.lo

/-- The part that two ranges share, if there is one. -/
def inter? (r s : CharRange) : Option CharRange :=
  if max r.lo s.lo ≤ min r.hi s.hi then some ⟨max r.lo s.lo, min r.hi s.hi⟩ else none

/-- What remains of `r` without the members of `s`: at most two ranges, in ascending order. -/
def cut (r s : CharRange) : List CharRange :=
  (if r.lo < s.lo then [⟨r.lo, min r.hi (s.lo - 1)⟩] else []) ++
  (if s.hi < r.hi then [⟨max r.lo (s.hi + 1), r.hi⟩] else [])

theorem contains_iff (r : CharRange) (c : Nat) :
    r.contains c = true ↔ r.lo ≤ c ∧ c ≤ r.hi := by
  simp [contains]

end CharRange

/-- A set of code points, as an ascending list of separated ranges. -/
structure CharSet where
  ranges : List CharRange
  deriving DecidableEq, Repr, Inhabited

namespace CharSet

/-- The largest code point of a Unicode character. -/
def lastChar : Nat := 0x10FFFF

/-- The set without members. -/
def empty : CharSet := ⟨[]⟩

instance : EmptyCollection CharSet := ⟨empty⟩

/-- Whether `c` is a member. -/
def contains (s : CharSet) (c : Nat) : Bool :=
  s.ranges.any (·.contains c)

instance : Membership Nat CharSet := ⟨fun s c => s.contains c = true⟩

instance (c : Nat) (s : CharSet) : Decidable (c ∈ s) :=
  inferInstanceAs (Decidable (s.contains c = true))

theorem mem_iff {s : CharSet} {c : Nat} :
    c ∈ s ↔ ∃ r ∈ s.ranges, r.lo ≤ c ∧ c ≤ r.hi := by
  change s.contains c = true ↔ _
  simp [contains, CharRange.contains_iff]

/-- Ranges are nonempty, ascending, and separated by at least one code point. -/
def Canonical (s : CharSet) : Prop :=
  (∀ r ∈ s.ranges, r.lo ≤ r.hi) ∧ s.ranges.Pairwise fun r t => r.hi + 1 < t.lo

/-! ## Inserting a range -/

/-- Puts a nonempty range into an ascending list, absorbing every range that it overlaps or
touches. -/
def insertInto (r : CharRange) : List CharRange → List CharRange
  | [] => [r]
  | x :: xs =>
    if x.hi + 1 < r.lo then x :: insertInto r xs
    else if r.hi + 1 < x.lo then r :: x :: xs
    else insertInto ⟨min r.lo x.lo, max r.hi x.hi⟩ xs

/-- Adds all code points from `lo` to `hi`; nothing if `hi < lo`. -/
def insertRange (s : CharSet) (lo hi : Nat) : CharSet :=
  if hi < lo then s else ⟨insertInto ⟨lo, hi⟩ s.ranges⟩

/-- Adds one code point. -/
def insert (s : CharSet) (c : Nat) : CharSet :=
  s.insertRange c c

/-- The set of all code points from `lo` to `hi`. -/
def ofRange (lo hi : Nat) : CharSet :=
  empty.insertRange lo hi

/-- The set with the one member `c`. -/
def singleton (c : Nat) : CharSet :=
  ofRange c c

/-- The set of all characters. -/
def full : CharSet :=
  ofRange 0 lastChar

/-- The set that arises from inserting pairs of bounds one after another. -/
def ofPairs (pairs : List (Nat × Nat)) : CharSet :=
  pairs.foldl (fun s p => s.insertRange p.1 p.2) empty

theorem exists_mem_insertInto {r : CharRange} {xs : List CharRange} {c : Nat}
    (hr : r.lo ≤ r.hi) (hxs : ∀ x ∈ xs, x.lo ≤ x.hi) :
    (∃ x ∈ insertInto r xs, x.lo ≤ c ∧ c ≤ x.hi) ↔
      (r.lo ≤ c ∧ c ≤ r.hi) ∨ ∃ x ∈ xs, x.lo ≤ c ∧ c ≤ x.hi := by
  induction xs generalizing r with
  | nil => simp [insertInto]
  | cons x xs ih =>
    have hx : x.lo ≤ x.hi := hxs x (by simp)
    have hrest : ∀ y ∈ xs, y.lo ≤ y.hi := fun y hy => hxs y (by simp [hy])
    simp only [insertInto]
    split
    · simp only [List.mem_cons, exists_eq_or_imp, ih hr hrest]
      exact or_left_comm
    · split
      · simp
      · have hm : min r.lo x.lo ≤ max r.hi x.hi := by omega
        rw [ih hm hrest]
        simp only [List.mem_cons, exists_eq_or_imp]
        rw [← or_assoc]
        refine or_congr_left ?_
        omega

theorem mem_insertRange {s : CharSet} (hs : ∀ r ∈ s.ranges, r.lo ≤ r.hi) {lo hi c : Nat} :
    c ∈ s.insertRange lo hi ↔ (lo ≤ c ∧ c ≤ hi) ∨ c ∈ s := by
  unfold insertRange
  split
  · constructor
    · exact .inr
    · rintro (h | h)
      · omega
      · exact h
  · next h =>
    rw [mem_iff, mem_iff]
    exact exists_mem_insertInto (Nat.le_of_not_lt h) hs

/-! ## Algebra -/

/-- All members of either set. -/
def union (s t : CharSet) : CharSet :=
  t.ranges.foldl (fun u r => u.insertRange r.lo r.hi) s

/-- The common members. -/
def inter (s t : CharSet) : CharSet :=
  ⟨s.ranges.flatMap fun r => t.ranges.filterMap r.inter?⟩

/-- The members of `s` that are not members of `t`. -/
def diff (s t : CharSet) : CharSet :=
  ⟨t.ranges.foldl (fun rs cutter => rs.flatMap (·.cut cutter)) s.ranges⟩

theorem mem_inter {s t : CharSet} {c : Nat} : c ∈ s.inter t ↔ c ∈ s ∧ c ∈ t := by
  simp only [mem_iff, inter, List.mem_flatMap, List.mem_filterMap]
  constructor
  · rintro ⟨x, ⟨r, hr, u, hu, hx⟩, hc⟩
    rw [CharRange.inter?] at hx
    split at hx
    · obtain rfl := Option.some.inj hx
      dsimp only at hc
      exact ⟨⟨r, hr, by omega⟩, ⟨u, hu, by omega⟩⟩
    · cases hx
  · rintro ⟨⟨r, hr, hrc⟩, ⟨u, hu, huc⟩⟩
    refine ⟨⟨max r.lo u.lo, min r.hi u.hi⟩, ⟨r, hr, u, hu, ?_⟩, ?_⟩
    · rw [CharRange.inter?, if_pos (by omega)]
    · dsimp only
      omega

theorem exists_mem_cut {r s : CharRange} {c : Nat} :
    (∃ x ∈ r.cut s, x.lo ≤ c ∧ c ≤ x.hi) ↔
      (r.lo ≤ c ∧ c ≤ r.hi) ∧ ¬ (s.lo ≤ c ∧ c ≤ s.hi) := by
  unfold CharRange.cut
  split <;> split <;> simp <;> omega

theorem exists_mem_foldl_cut {rs cutters : List CharRange} {c : Nat} :
    (∃ x ∈ cutters.foldl (fun rs s => rs.flatMap (·.cut s)) rs, x.lo ≤ c ∧ c ≤ x.hi) ↔
      (∃ r ∈ rs, r.lo ≤ c ∧ c ≤ r.hi) ∧ ¬ ∃ s ∈ cutters, s.lo ≤ c ∧ c ≤ s.hi := by
  induction cutters generalizing rs with
  | nil => simp
  | cons s cutters ih =>
    have hstep : (∃ x ∈ rs.flatMap (·.cut s), x.lo ≤ c ∧ c ≤ x.hi) ↔
        (∃ r ∈ rs, r.lo ≤ c ∧ c ≤ r.hi) ∧ ¬ (s.lo ≤ c ∧ c ≤ s.hi) := by
      constructor
      · rintro ⟨x, hx, hc⟩
        obtain ⟨r, hr, hxr⟩ := List.mem_flatMap.1 hx
        obtain ⟨hrc, hsc⟩ := exists_mem_cut.1 ⟨x, hxr, hc⟩
        exact ⟨⟨r, hr, hrc⟩, hsc⟩
      · rintro ⟨⟨r, hr, hrc⟩, hsc⟩
        obtain ⟨x, hxr, hc⟩ := exists_mem_cut.2 ⟨hrc, hsc⟩
        exact ⟨x, List.mem_flatMap.2 ⟨r, hr, hxr⟩, hc⟩
    simp only [List.foldl_cons, ih, hstep, List.mem_cons, exists_eq_or_imp, not_or, and_assoc]

theorem mem_diff {s t : CharSet} {c : Nat} : c ∈ s.diff t ↔ c ∈ s ∧ c ∉ t := by
  rw [mem_iff, mem_iff, mem_iff]
  exact exists_mem_foldl_cut

/-! ## Queries -/

/-- Whether the set has no members. -/
def isEmpty (s : CharSet) : Bool :=
  s.ranges.isEmpty

/-- Whether every member of `t` is a member of `s`. -/
def includes (s t : CharSet) : Bool :=
  (t.diff s).isEmpty

/-- Whether the two sets share a member. -/
def intersects (s t : CharSet) : Bool :=
  s.ranges.any fun r => t.ranges.any fun u => decide (max r.lo u.lo ≤ min r.hi u.hi)

/-- Number of members. -/
def size (s : CharSet) : Nat :=
  s.ranges.foldr (fun r n => r.size + n) 0

/-- The smallest member. -/
def first? (s : CharSet) : Option Nat :=
  s.ranges.head?.map CharRange.lo

/-- All members in ascending order. -/
def toList (s : CharSet) : List Nat :=
  s.ranges.flatMap fun r => List.range' r.lo r.size

/-- The first `k` members of a list of ranges, without spelling out the others. -/
def takeRanges : Nat → List CharRange → List Nat
  | _, [] => []
  | k, r :: rs => List.range' r.lo (min k r.size) ++ takeRanges (k - r.size) rs

/-- The first `k` members in ascending order. -/
def take (k : Nat) (s : CharSet) : List Nat :=
  takeRanges k s.ranges

theorem take_range' (k a n : Nat) :
    (List.range' a n).take k = List.range' a (min k n) := by
  induction n generalizing k a with
  | zero => simp
  | succ n ih =>
    cases k with
    | zero => simp
    | succ k => simp [List.range'_succ, ih, Nat.succ_min_succ]

theorem takeRanges_eq (k : Nat) (rs : List CharRange) :
    takeRanges k rs = (rs.flatMap fun r => List.range' r.lo r.size).take k := by
  induction rs generalizing k with
  | nil => simp [takeRanges]
  | cons r rs ih => simp [takeRanges, ih, List.take_append, take_range']

theorem take_eq (k : Nat) (s : CharSet) : s.take k = s.toList.take k :=
  takeRanges_eq k s.ranges

/-- Text of one range: a number, or two numbers joined by `..=`. -/
def rangeText (r : CharRange) : String :=
  if r.lo = r.hi then toString r.lo else toString r.lo ++ "..=" ++ toString r.hi

/-- The members as braced text, one entry for each range. -/
def describe (s : CharSet) : String :=
  "\x7b" ++ ", ".intercalate (s.ranges.map rangeText) ++ "\x7d"

end CharSet

end Ebnf
