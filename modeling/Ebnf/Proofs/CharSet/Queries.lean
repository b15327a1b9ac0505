import Mathlib.Data.Set.Card
import Ebnf.Proofs.CharSet.Words

/-!
# Questions to character sets

A set is asked for a number by a binary search among its ranges, for a subset by
taking its members away, for a common member by one pass with a cursor in either
list, and for its size by a sum of machine words.  On canonical sets of words
each answer is the one that the members give: the ranges are ordered for the
search, the passes neither overlook a range nor leave the words, and two sets
with the same members are the same list.

Main results:

- Theorem `CharSet.lookup_eq`: every correct binary search finds the ranges that hold a number.
- Theorem `CharSet.meets_eq`: the two cursors meet exactly if the sets share a member.
- Theorem `CharSet.count?_eq`: the sum of the lengths is the number of members.
- Theorem `CharSet.queries_exact`: all questions to canonical sets are answered by their members.
-/

namespace Ebnf
namespace CharSet

variable {s t : CharSet} {c : Nat} {x y : CharRange} {xs ys : List CharRange}

/-! ## Binary search -/

/-- How a range lies to a number that is looked for. -/
def compareTo (c : Nat) (r : CharRange) : Ordering :=
  if r.hi < c then .lt else if c < r.lo then .gt else .eq

/-- Elements below what is looked for come first, and elements above it last. -/
def OrderedBy {α : Type} (compare : α → Ordering) (xs : List α) : Prop :=
  xs.Pairwise fun x y => (compare y = .lt → compare x = .lt) ∧ (compare x = .gt → compare y = .gt)

/-- What a binary search has to find in an ordered list: the index of an element that is neither
below nor above, if there is one. -/
structure IsBinarySearch {α : Type} (search : List α → (α → Ordering) → Option Nat) : Prop where
  found {xs : List α} {compare : α → Ordering} {i : Nat} :
    OrderedBy compare xs → search xs compare = some i → ∃ x, xs[i]? = some x ∧ compare x = .eq
  missing {xs : List α} {compare : α → Ordering} :
    OrderedBy compare xs → search xs compare = none → ∀ x ∈ xs, compare x ≠ .eq

/-- Looks for a range that holds the number. -/
def lookup (search : List CharRange → (CharRange → Ordering) → Option Nat) (s : CharSet) (c : Nat) :
    Bool :=
  (search s.ranges (compareTo c)).isSome

theorem compareTo_eq_lt : compareTo c x = .lt ↔ x.hi < c := by
  unfold compareTo
  split
  · simp [*]
  · split <;> simp [*]

theorem compareTo_eq_eq : compareTo c x = .eq ↔ x.lo ≤ c ∧ c ≤ x.hi := by
  unfold compareTo
  split
  · simp only [reduceCtorEq, false_iff]
    omega
  · split
    · simp only [reduceCtorEq, false_iff]
      omega
    · simp only [true_iff]
      omega

theorem lt_of_compareTo_eq_gt (h : compareTo c x = .gt) : c < x.lo := by
  unfold compareTo at h
  split at h
  · cases h
  · split at h
    · assumption
    · cases h

/-- The ranges of a canonical set are ordered for every number. -/
theorem Canonical.orderedBy (hs : s.Canonical) (c : Nat) : OrderedBy (compareTo c) s.ranges := by
  apply List.Pairwise.imp_of_mem _ hs.2
  intro x y hx hy hxy
  have hxle : x.lo ≤ x.hi := hs.1 x hx
  have hyle : y.lo ≤ y.hi := hs.1 y hy
  constructor
  · intro hlt
    rw [compareTo_eq_lt] at hlt ⊢
    omega
  · intro hgt
    have hbelow := lt_of_compareTo_eq_gt hgt
    unfold compareTo
    rw [if_neg (by omega), if_pos (by omega)]

/-- A correct binary search answers as a look at all ranges does. -/
theorem lookup_eq {search : List CharRange → (CharRange → Ordering) → Option Nat}
    (hsearch : IsBinarySearch search) (hs : s.Canonical) (c : Nat) :
    lookup search s c = s.contains c := by
  have hordered := hs.orderedBy c
  cases hresult : search s.ranges (compareTo c) with
  | none =>
    have hmissing := hsearch.missing hordered hresult
    have hnot : ¬ c ∈ s := by
      intro hc
      obtain ⟨r, hr, hin⟩ := mem_iff.1 hc
      exact hmissing r hr (compareTo_eq_eq.2 hin)
    rw [lookup, hresult, Option.isSome_none]
    exact (Bool.eq_false_iff.2 hnot).symm
  | some i =>
    obtain ⟨r, hr, heq⟩ := hsearch.found hordered hresult
    have hc : c ∈ s := mem_iff.2 ⟨r, List.mem_of_getElem? hr, compareTo_eq_eq.1 heq⟩
    rw [lookup, hresult, Option.isSome_some]
    exact hc.symm

section Halving

variable {α : Type} {compare : α → Ordering} {zs : List α}

/-- Halves the part of a list that has `size` elements from `base` on until one is left. -/
def narrow (compare : α → Ordering) (zs : List α) (base size : Nat) : Nat :=
  if 1 < size then
    let middle := base + size / 2
    let base' := if zs[middle]?.map compare = some .gt then base else middle
    narrow compare zs base' (size - size / 2)
  else base
termination_by size

/-- Binary search: halves the list, and compares the one element that is left. -/
def bisect (zs : List α) (compare : α → Ordering) : Option Nat :=
  let base := narrow compare zs 0 zs.length
  if zs[base]?.map compare = some .eq then some base else none

/-- Everything from `size` elements behind `base` on lies above what is looked for, and `base` does
not unless it is the first index. -/
structure Straddles (compare : α → Ordering) (zs : List α) (base size : Nat) : Prop where
  above : ∀ i z, base + size ≤ i → zs[i]? = some z → compare z = .gt
  notAbove : base ≠ 0 → ∀ z, zs[base]? = some z → compare z ≠ .gt

/-- The order of a list, by indices. -/
theorem OrderedBy.of_le (h : OrderedBy compare zs) {i j : Nat} {z w : α} (hij : i ≤ j)
    (hz : zs[i]? = some z) (hw : zs[j]? = some w) :
    (compare w = .lt → compare z = .lt) ∧ (compare z = .gt → compare w = .gt) := by
  rcases Nat.eq_or_lt_of_le hij with rfl | hlt
  · obtain rfl := Option.some.inj (hz.symm.trans hw)
    exact ⟨id, id⟩
  · obtain ⟨hi, rfl⟩ := List.getElem?_eq_some_iff.1 hz
    obtain ⟨hj, rfl⟩ := List.getElem?_eq_some_iff.1 hw
    exact List.pairwise_iff_getElem.1 h i j hi hj hlt

/-- Halving keeps what lies on either side. -/
theorem Straddles.halve (h : OrderedBy compare zs) {base size : Nat}
    (hst : Straddles compare zs base size) (hsize : 1 < size) :
    Straddles compare zs
      (if zs[base + size / 2]?.map compare = some .gt then base else base + size / 2)
      (size - size / 2) := by
  by_cases hgt : zs[base + size / 2]?.map compare = some .gt
  · rw [if_pos hgt]
    obtain ⟨middle, hmiddle, hgt⟩ := Option.map_eq_some_iff.1 hgt
    constructor
    · intro i z hi hz
      have hle : base + size / 2 ≤ i := by omega
      exact (h.of_le hle hmiddle hz).2 hgt
    · exact hst.notAbove
  · rw [if_neg hgt]
    constructor
    · intro i z hi hz
      apply hst.above i z _ hz
      omega
    · intro _ z hz hgt'
      apply hgt
      rw [hz, Option.map_some, hgt']

theorem narrow_spec (h : OrderedBy compare zs) {base size : Nat}
    (hst : Straddles compare zs base size) (hfit : base + size ≤ zs.length) (hsize : 0 < size) :
    Straddles compare zs (narrow compare zs base size) 1 ∧
      narrow compare zs base size < zs.length := by
  fun_induction narrow compare zs base size with
  | case1 base size hlarge middle base' ih =>
    apply ih (hst.halve h hlarge)
    · have hbase' : base' ≤ middle := by
        unfold base'
        split
        · exact Nat.le_add_right base (size / 2)
        · exact Nat.le_refl middle
      omega
    · omega
  | case2 base size hsmall =>
    obtain rfl : size = 1 := by omega
    constructor
    · exact hst
    · omega

/-- Halving is a binary search. -/
theorem isBinarySearch_bisect : IsBinarySearch (bisect (α := α)) := by
  constructor
  · intro zs compare i _ hfound
    rw [bisect] at hfound
    split at hfound
    next heq =>
      obtain rfl := Option.some.inj hfound
      exact Option.map_eq_some_iff.1 heq
    next => cases hfound
  · intro zs compare hordered hmissing z hz heq
    obtain ⟨i, hi⟩ := List.getElem?_of_mem hz
    have hlength : i < zs.length := (List.getElem?_eq_some_iff.1 hi).1
    have hst : Straddles compare zs 0 zs.length := by
      constructor
      · intro j w hj hw
        rw [List.getElem?_eq_none (by omega)] at hw
        cases hw
      · intro hne
        exact absurd rfl hne
    obtain ⟨hend, hin⟩ := narrow_spec hordered hst (by omega) (by omega)
    have hbase := List.getElem?_eq_getElem hin
    have hne : compare zs[narrow compare zs 0 zs.length] ≠ .eq := by
      intro hbaseEq
      unfold bisect at hmissing
      rw [if_pos (by rw [hbase, Option.map_some, hbaseEq])] at hmissing
      cases hmissing
    -- what is equal can stand neither behind the element that is left nor in front of it
    rcases Nat.lt_trichotomy i (narrow compare zs 0 zs.length) with hlt | rfl | hgt
    · have hnotGt := hend.notAbove (by omega) _ hbase
      cases hcmp : compare zs[narrow compare zs 0 zs.length] with
      | lt =>
        have hbelow := (hordered.of_le (Nat.le_of_lt hlt) hi hbase).1 hcmp
        rw [heq] at hbelow
        cases hbelow
      | eq => exact hne hcmp
      | gt => exact hnotGt hcmp
    · rw [hbase] at hi
      rw [← Option.some.inj hi] at heq
      exact hne heq
    · have habove := hend.above i z hgt hi
      rw [heq] at habove
      cases habove

end Halving

/-! ## Common members -/

/-- Goes through two lists of ranges at once until their first ranges share a number, and drops the
one that ends first. -/
def meets : List CharRange → List CharRange → Bool
  | x :: xs, y :: ys =>
    if max x.lo y.lo ≤ min x.hi y.hi then true
    else if x.hi < y.hi then meets xs (y :: ys)
    else meets (x :: xs) ys
  | [], _ => false
  | _ :: _, [] => false
termination_by xs ys => xs.length + ys.length

/-- The cursors meet exactly if the pass that collects what is shared collects something. -/
theorem meets_eq_meetPass (xs ys : List CharRange) : meets xs ys = !(meetPass xs ys).isEmpty := by
  fun_induction meets xs ys with
  | case1 x xs y ys hshare =>
    rw [meetPass, CharRange.inter?, if_pos hshare]
    rfl
  | case2 x xs y ys hshare hlt ih =>
    rw [meetPass, CharRange.inter?, if_neg hshare, if_pos hlt, ih]
    rfl
  | case3 x xs y ys hshare hge ih =>
    rw [meetPass, CharRange.inter?, if_neg hshare, if_neg hge, ih]
    rfl
  | case4 ys =>
    rw [meetPass]
    rfl
  | case5 x xs =>
    rw [meetPass]
    rfl

theorem meets_eq (hs : s.Canonical) (ht : t.Canonical) :
    meets s.ranges t.ranges = s.intersects t := by
  have hinter : meetPass s.ranges t.ranges = (s.inter t).ranges :=
    congrArg CharSet.ranges (meetPass_eq hs ht)
  have hempty := isEmpty_iff (hs.inter ht)
  simp only [mem_inter] at hempty
  rw [meets_eq_meetPass, hinter, Bool.eq_iff_iff, intersects_iff]
  change (!(s.inter t).isEmpty) = true ↔ _
  rw [Bool.not_eq_true', ← Bool.not_eq_true, hempty]
  simp only [not_forall, not_not]

/-! ## Inclusion -/

/-- Whether nothing is left of the second set once the members of the first are taken away; nothing
if a bound leaves the words. -/
def includesPass? (s t : CharSet) : Option Bool :=
  (cutPass? t.ranges s.ranges).map List.isEmpty

theorem includesPass?_eq (hs : s.Canonical) (ht : t.Canonical) (ht' : t.InWords) :
    includesPass? s t = some (s.includes t) := by
  have hpass := cutPass?_eq ht ht' hs
  obtain ⟨rest, hrest, hdiff⟩ := Option.map_eq_some_iff.1 hpass
  rw [includesPass?, hrest, Option.map_some, includes, ← hdiff, isEmpty]

/-! ## Number of members -/

/-- The largest count, a word of 64 bits. -/
def lastCount : Nat := 0xFFFFFFFFFFFFFFFF

/-- The sum of two counts, if it is one. -/
def addCount? (n m : Nat) : Option Nat :=
  if n + m ≤ lastCount then some (n + m) else none

/-- The difference of two words, if it is one. -/
def subWord? (n m : Nat) : Option Nat :=
  if m ≤ n then some (n - m) else none

/-- Adds the lengths of all ranges to a count. -/
def countFrom? (n : Nat) : List CharRange → Option Nat
  | [] => some n
  | x :: xs => do
    let width ← subWord? x.hi x.lo
    let length ← addCount? width 1
    let sum ← addCount? n length
    countFrom? sum xs

/-- Adds up the lengths of all ranges of a set. -/
def count? (s : CharSet) : Option Nat :=
  countFrom? 0 s.ranges

theorem size_cons : (⟨x :: xs⟩ : CharSet).size = x.size + (⟨xs⟩ : CharSet).size :=
  rfl

/-- From a bound on, a canonical set has no more members than there are words. -/
theorem Canonical.add_size_le {b : Nat} (hs : Canonical ⟨xs⟩) (hwords : InWords ⟨xs⟩)
    (hb : ∀ x ∈ xs, b ≤ x.lo) (hb' : b ≤ lastWord + 1) :
    b + (⟨xs⟩ : CharSet).size ≤ lastWord + 1 := by
  induction xs generalizing b with
  | nil => exact hb'
  | cons x xs ih =>
    obtain ⟨hx, hsep, hrest⟩ := canonical_cons.1 hs
    have hlo := hb x List.mem_cons_self
    have hhi : x.hi ≤ lastWord := hwords x List.mem_cons_self
    have hbehind : ∀ y ∈ xs, x.hi + 1 ≤ y.lo := fun y hy => Nat.le_of_lt (hsep y hy)
    have htail := ih hrest hwords.tail hbehind (by omega)
    rw [size_cons, CharRange.size]
    omega

/-- A canonical set of words has at most as many members as there are words. -/
theorem Canonical.size_le (hs : s.Canonical) (hwords : s.InWords) : s.size ≤ lastWord + 1 := by
  have h := hs.add_size_le hwords (fun _ _ => Nat.zero_le _) (Nat.zero_le _)
  rwa [Nat.zero_add] at h

theorem countFrom?_eq {n : Nat} (hxs : ∀ x ∈ xs, x.lo ≤ x.hi)
    (hn : n + (⟨xs⟩ : CharSet).size ≤ lastCount) :
    countFrom? n xs = some (n + (⟨xs⟩ : CharSet).size) := by
  induction xs generalizing n with
  | nil => rfl
  | cons x xs ih =>
    have hx : x.lo ≤ x.hi := hxs x List.mem_cons_self
    have hrest : ∀ y ∈ xs, y.lo ≤ y.hi := fun y hy => hxs y (List.mem_cons_of_mem x hy)
    have hlength : x.hi - x.lo + 1 = x.size := by
      rw [CharRange.size]
      omega
    rw [size_cons] at hn ⊢
    have hwidth : subWord? x.hi x.lo = some (x.hi - x.lo) := if_pos hx
    have hadd : addCount? (x.hi - x.lo) 1 = some x.size := by
      rw [addCount?, hlength, if_pos (by omega)]
    have hsum : addCount? n x.size = some (n + x.size) := if_pos (by omega)
    simp only [countFrom?, hwidth, hadd, hsum, Option.bind_eq_bind, Option.bind_some]
    rw [ih hrest (by omega), Nat.add_assoc]

/-- The lengths of the ranges are added without overflow. -/
theorem count?_eq (hs : s.Canonical) (hwords : s.InWords) : s.count? = some s.size := by
  have hsize : s.size ≤ lastWord + 1 := hs.size_le hwords
  have hfits : 0 + s.size ≤ lastCount := by
    simp only [lastWord] at hsize
    simp only [lastCount]
    omega
  rw [count?, countFrom?_eq hs.1 hfits, Nat.zero_add]

/-- The size is the number of members. -/
theorem ncard_eq_size (hs : s.Canonical) : {c | c ∈ s}.ncard = s.size := by
  have hset : {c | c ∈ s} = (s.toList.toFinset : Set Nat) := by
    ext c
    simp [mem_toList]
  rw [hset, Set.ncard_coe_finset, card_toFinset hs]

/-! ## All members -/

/-- The members are listed in ascending order. -/
theorem pairwise_toList (hs : s.Canonical) : s.toList.Pairwise (· < ·) := by
  unfold toList
  rw [List.pairwise_flatMap]
  constructor
  · intro x _
    exact List.pairwise_lt_range'
  · apply hs.2.imp
    intro x y hxy c hc d hd
    simp only [List.mem_range'_1, CharRange.size] at hc hd
    omega

/-- The list of the members begins with the smallest one. -/
theorem head?_toList (hs : s.Canonical) : s.toList.head? = s.first? := by
  obtain ⟨ranges⟩ := s
  cases ranges with
  | nil => rfl
  | cons x xs =>
    have hx : x.lo ≤ x.hi := hs.1 x List.mem_cons_self
    obtain ⟨n, hn⟩ : ∃ n, x.size = n + 1 := ⟨x.hi - x.lo, by
      rw [CharRange.size]
      omega⟩
    simp only [toList, first?, List.flatMap_cons, List.head?_cons, Option.map_some, hn,
      List.range'_succ, List.cons_append]

/-! ## All questions -/

/-- Canonical sets with the same members are equal, and only those. -/
theorem beq_iff (hs : s.Canonical) (ht : t.Canonical) :
    (s == t) = true ↔ ∀ c, c ∈ s ↔ c ∈ t := by
  rw [beq_iff_eq]
  constructor
  · intro heq c
    rw [heq]
  · exact hs.ext ht

/-- On canonical sets of words, whatever correct binary search is used: a number is found exactly if
a range holds it; inclusion, intersection and emptiness are answered by the members, and no bound
leaves the words on the way; the lengths add up to the number of members; the members are listed
once each in ascending order, the first one first; and sets are equal exactly if they have the same
members. -/
theorem queries_exact {search : List CharRange → (CharRange → Ordering) → Option Nat}
    (hsearch : IsBinarySearch search) (hs : s.Canonical) (ht : t.Canonical) (hs' : s.InWords)
    (ht' : t.InWords) :
    (∀ c, lookup search s c = s.contains c ∧
      (lookup search s c = true ↔ ∃ r ∈ s.ranges, r.lo ≤ c ∧ c ≤ r.hi)) ∧
    (includesPass? s t = some (s.includes t) ∧ (s.includes t = true ↔ ∀ c ∈ t, c ∈ s)) ∧
    (meets s.ranges t.ranges = s.intersects t ∧ (s.intersects t = true ↔ ∃ c, c ∈ s ∧ c ∈ t)) ∧
    (s.isEmpty = true ↔ ∀ c, c ∉ s) ∧
    (s.count? = some s.size ∧ s.size = {c | c ∈ s}.ncard) ∧
    (s.toList.Pairwise (· < ·) ∧ (∀ c, c ∈ s.toList ↔ c ∈ s) ∧ s.first? = s.toList.head?) ∧
    ((s == t) = true ↔ ∀ c, c ∈ s ↔ c ∈ t) := by
  have hlookup := lookup_eq hsearch hs
  refine ⟨fun c => ⟨hlookup c, ?_⟩, ⟨includesPass?_eq hs ht ht', includes_iff hs ht⟩,
    ⟨meets_eq hs ht, intersects_iff⟩, isEmpty_iff hs, ⟨count?_eq hs hs', (ncard_eq_size hs).symm⟩,
    ⟨pairwise_toList hs, fun _ => mem_toList, (head?_toList hs).symm⟩, beq_iff hs ht⟩
  rw [hlookup c]
  exact mem_iff

/-- Halving finds both ends of the words in a set that holds them, and a gap is no member. -/
theorem queries_exact_bisect :
    let s : CharSet := ⟨[⟨0, 3⟩, ⟨5, 5⟩, ⟨0xFFFFFFFE, 0xFFFFFFFF⟩]⟩
    let t : CharSet := ⟨[⟨5, 5⟩, ⟨0xFFFFFFFF, 0xFFFFFFFF⟩]⟩
    IsBinarySearch (bisect (α := CharRange)) ∧ s.Canonical ∧ t.Canonical ∧ s.InWords ∧ t.InWords ∧
      lookup bisect s 0 = true ∧ lookup bisect s 4 = false ∧ lookup bisect s 0xFFFFFFFF = true ∧
      includesPass? s t = some true ∧ includesPass? t s = some false ∧
      meets s.ranges t.ranges = true ∧ s.count? = some 7 ∧ {c | c ∈ s}.ncard = 7 ∧
      s.toList.head? = some 0 ∧ (s == t) = false := by
  intro s t
  have hs : s.Canonical := by
    unfold Canonical
    decide
  have ht : t.Canonical := by
    unfold Canonical
    decide
  have hs' : s.InWords := by
    unfold InWords
    decide
  have ht' : t.InWords := by
    unfold InWords
    decide
  obtain ⟨hlookup, ⟨hincludes, _⟩, ⟨hmeets, _⟩, _, ⟨hcount, hncard⟩, ⟨_, _, hfirst⟩, _⟩ :=
    queries_exact isBinarySearch_bisect hs ht hs' ht'
  obtain ⟨_, ⟨hincluded, _⟩, _⟩ := queries_exact isBinarySearch_bisect ht hs ht' hs'
  refine ⟨isBinarySearch_bisect, hs, ht, hs', ht', ?_, ?_, ?_, ?_, ?_, ?_, ?_, ?_, ?_, ?_⟩
  · rw [(hlookup 0).1]
    decide
  · rw [(hlookup 4).1]
    decide
  · rw [(hlookup 0xFFFFFFFF).1]
    decide
  · rw [hincludes]
    decide
  · rw [hincluded]
    decide
  · rw [hmeets]
    decide
  · rw [hcount]
    decide
  · rw [← hncard]
    decide
  · rw [← hfirst]
    rfl
  · decide

end CharSet
end Ebnf
