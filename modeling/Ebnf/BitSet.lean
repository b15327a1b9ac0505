/-!
# Sets of small numbers

Terminal numbers, nonterminal numbers and state numbers are collected in bit
sets: the number `i` is a member if bit `i` of the mask is set.  Two bit sets
with the same members are equal.

Main results:

- Theorem `BitSet.ext_mem`: a bit set is determined by its members.
- Theorems `BitSet.mem_insert`, `BitSet.mem_erase`, `BitSet.mem_union`,
  `BitSet.mem_inter`, `BitSet.mem_diff`: what each operation does to the members.
- Theorems `BitSet.mem_toList` and `BitSet.pairwise_toList`: the list of a bit set
  holds its members in ascending order.
-/

namespace Ebnf

/-- A finite set of natural numbers, one bit for each. -/
structure BitSet where
  mask : Nat
  deriving DecidableEq, Repr, Inhabited

namespace BitSet

/-- The set without members. -/
def empty : BitSet := ⟨0⟩

instance : EmptyCollection BitSet := ⟨empty⟩

/-- Whether `i` is a member. -/
def contains (s : BitSet) (i : Nat) : Bool :=
  s.mask.testBit i

instance : Membership Nat BitSet := ⟨fun s i => s.contains i = true⟩

instance (i : Nat) (s : BitSet) : Decidable (i ∈ s) :=
  inferInstanceAs (Decidable (s.contains i = true))

/-- Adds one number. -/
def insert (s : BitSet) (i : Nat) : BitSet :=
  ⟨s.mask ||| 1 <<< i⟩

/-- The set with the one member `i`. -/
def singleton (i : Nat) : BitSet :=
  empty.insert i

/-- All members of either set. -/
def union (s t : BitSet) : BitSet :=
  ⟨s.mask ||| t.mask⟩

/-- The common members. -/
def inter (s t : BitSet) : BitSet :=
  ⟨s.mask &&& t.mask⟩

/-- The members of `s` that are not members of `t`. -/
def diff (s t : BitSet) : BitSet :=
  ⟨s.mask ^^^ (s.mask &&& t.mask)⟩

/-- Removes one number. -/
def erase (s : BitSet) (i : Nat) : BitSet :=
  s.diff (singleton i)

/-- The numbers below `n`. -/
def full (n : Nat) : BitSet :=
  ⟨(1 <<< n) - 1⟩

/-- The members of a list. -/
def ofList (is : List Nat) : BitSet :=
  is.foldl insert empty

/-- The bits among the lowest `1 <<< k` of a mask that are set, in ascending order, each counted
from `base`.  The mask is halved until one bit is left; a half without bits is passed over. -/
def bitsFrom : (k base mask : Nat) → List Nat
  | 0, base, mask => if mask.testBit 0 then [base] else []
  | k + 1, base, mask =>
    if mask = 0 then []
    else
      let half := 1 <<< k
      bitsFrom k base (mask &&& (full half).mask) ++ bitsFrom k (base + half) (mask >>> half)

/-- The members in ascending order. -/
def toList (s : BitSet) : List Nat :=
  bitsFrom (s.mask.log2.log2 + 1) 0 s.mask

/-- Number of members. -/
def size (s : BitSet) : Nat :=
  s.toList.length

/-- The smallest member. -/
def min? (s : BitSet) : Option Nat :=
  s.toList.head?

/-- Whether the set has no members. -/
def isEmpty (s : BitSet) : Bool :=
  s.mask == 0

/-- Whether the two sets share a member. -/
def intersects (s t : BitSet) : Bool :=
  !(s.inter t).isEmpty

/-! ## Membership after each operation -/

theorem mem_def {s : BitSet} {i : Nat} : i ∈ s ↔ s.mask.testBit i = true :=
  Iff.rfl

@[simp]
theorem contains_iff {s : BitSet} {i : Nat} : s.contains i = true ↔ i ∈ s :=
  Iff.rfl

theorem ext_mem {s t : BitSet} (h : ∀ i, i ∈ s ↔ i ∈ t) : s = t := by
  cases s with
  | mk a =>
    cases t with
    | mk b =>
      have hab : a = b := Nat.eq_of_testBit_eq fun i => Bool.eq_iff_iff.2 (h i)
      rw [hab]

@[simp]
theorem not_mem_empty (i : Nat) : i ∉ (∅ : BitSet) := by
  change ¬ Nat.testBit 0 i = true
  simp

@[simp]
theorem mem_insert {s : BitSet} {i j : Nat} : j ∈ s.insert i ↔ j = i ∨ j ∈ s := by
  simp only [mem_def, insert, Nat.testBit_or, Nat.testBit_shiftLeft, Bool.or_eq_true]
  constructor
  · rintro (h | h)
    · exact .inr h
    · simp only [Bool.and_eq_true, decide_eq_true_eq,
        Nat.testBit_one_eq_true_iff_self_eq_zero] at h
      exact .inl (by omega)
  · rintro (h | h)
    · subst h
      simp
    · exact .inl h

@[simp]
theorem mem_singleton {i j : Nat} : j ∈ singleton i ↔ j = i := by
  rw [singleton, mem_insert]
  exact or_iff_left (not_mem_empty j)

@[simp]
theorem mem_union {s t : BitSet} {i : Nat} : i ∈ s.union t ↔ i ∈ s ∨ i ∈ t := by
  simp [mem_def, union]

@[simp]
theorem mem_inter {s t : BitSet} {i : Nat} : i ∈ s.inter t ↔ i ∈ s ∧ i ∈ t := by
  simp [mem_def, inter]

@[simp]
theorem mem_diff {s t : BitSet} {i : Nat} : i ∈ s.diff t ↔ i ∈ s ∧ i ∉ t := by
  simp only [mem_def, diff, Nat.testBit_xor, Nat.testBit_and]
  cases s.mask.testBit i <;> cases t.mask.testBit i <;> simp

@[simp]
theorem mem_erase {s : BitSet} {i j : Nat} : j ∈ s.erase i ↔ j ∈ s ∧ j ≠ i := by
  simp [erase]

@[simp]
theorem mem_full {n i : Nat} : i ∈ full n ↔ i < n := by
  rw [mem_def, full, Nat.one_shiftLeft, Nat.testBit_two_pow_sub_one]
  exact decide_eq_true_iff

theorem mem_foldl_union {α : Type} {f : α → BitSet} {xs : List α} {s : BitSet} {i : Nat} :
    i ∈ xs.foldl (fun s x => s.union (f x)) s ↔ i ∈ s ∨ ∃ x ∈ xs, i ∈ f x := by
  induction xs generalizing s with
  | nil => simp
  | cons x xs ih => simp [ih, or_assoc]

theorem mem_foldl_insert {is : List Nat} {s : BitSet} {i : Nat} :
    i ∈ is.foldl insert s ↔ i ∈ is ∨ i ∈ s := by
  induction is generalizing s with
  | nil => simp
  | cons j is ih =>
    rw [List.foldl_cons, ih, mem_insert, List.mem_cons, or_left_comm, or_assoc]

@[simp]
theorem mem_ofList {is : List Nat} {i : Nat} : i ∈ ofList is ↔ i ∈ is := by
  rw [ofList, mem_foldl_insert]
  exact or_iff_left (not_mem_empty i)

theorem le_log2_of_mem {s : BitSet} {i : Nat} (h : i ∈ s) : i ≤ s.mask.log2 := by
  have hge : 2 ^ i ≤ s.mask := Nat.ge_two_pow_of_testBit h
  have hpos : s.mask ≠ 0 := Nat.ne_of_gt (Nat.lt_of_lt_of_le (Nat.two_pow_pos i) hge)
  exact (Nat.le_log2 hpos).2 hge

theorem mem_bitsFrom {k base mask i : Nat} :
    i ∈ bitsFrom k base mask ↔ base ≤ i ∧ i - base < 1 <<< k ∧ mask.testBit (i - base) = true := by
  induction k generalizing base mask with
  | zero =>
    rw [bitsFrom]
    split
    next h =>
      rw [List.mem_singleton]
      constructor
      · rintro rfl
        exact ⟨Nat.le_refl i, by simp, by rwa [Nat.sub_self]⟩
      · rintro ⟨hle, hlt, _⟩
        simp only [Nat.shiftLeft_zero] at hlt
        omega
    next h =>
      refine iff_of_false (by simp) ?_
      rintro ⟨_, hlt, hbit⟩
      simp only [Nat.shiftLeft_zero, Nat.lt_one_iff] at hlt
      exact h (hlt ▸ hbit)
  | succ k ih =>
    rw [bitsFrom]
    split
    next h => simp [h]
    next h =>
      have hdouble : 1 <<< (k + 1) = 1 <<< k + 1 <<< k := by
        simp only [Nat.one_shiftLeft, Nat.pow_succ]
        omega
      rw [List.mem_append, ih, ih, hdouble, Nat.testBit_and, Nat.testBit_shiftRight]
      simp only [Bool.and_eq_true, ← mem_def, mem_full]
      constructor
      · rintro (⟨hle, hlt, hbit, _⟩ | ⟨hle, hlt, hbit⟩)
        · exact ⟨hle, by omega, hbit⟩
        · have hi : 1 <<< k + (i - (base + 1 <<< k)) = i - base := by omega
          exact ⟨by omega, by omega, hi ▸ hbit⟩
      · rintro ⟨hle, hlt, hbit⟩
        by_cases hlow : i - base < 1 <<< k
        · exact .inl ⟨hle, hlow, hbit, hlow⟩
        · have hi : 1 <<< k + (i - (base + 1 <<< k)) = i - base := by omega
          exact .inr ⟨by omega, by omega, hi.symm ▸ hbit⟩

theorem pairwise_bitsFrom (k base mask : Nat) : (bitsFrom k base mask).Pairwise (· < ·) := by
  induction k generalizing base mask with
  | zero =>
    rw [bitsFrom]
    split <;> simp
  | succ k ih =>
    rw [bitsFrom]
    split
    · simp
    · refine List.pairwise_append.2 ⟨ih _ _, ih _ _, fun i hi j hj => ?_⟩
      have hlow := mem_bitsFrom.1 hi
      have hhigh := mem_bitsFrom.1 hj
      omega

@[simp]
theorem mem_toList {s : BitSet} {i : Nat} : i ∈ s.toList ↔ i ∈ s := by
  rw [toList, mem_bitsFrom, Nat.sub_zero, ← mem_def]
  have hlt (h : i ∈ s) : i < 1 <<< (s.mask.log2.log2 + 1) := by
    rw [Nat.one_shiftLeft]
    exact Nat.lt_of_le_of_lt (le_log2_of_mem h) Nat.lt_log2_self
  exact ⟨fun h => h.2.2, fun h => ⟨Nat.zero_le i, hlt h, h⟩⟩

/-- The members are listed in ascending order, each once. -/
theorem pairwise_toList (s : BitSet) : s.toList.Pairwise (· < ·) :=
  pairwise_bitsFrom _ 0 s.mask

theorem nodup_toList (s : BitSet) : s.toList.Nodup :=
  s.pairwise_toList.imp Nat.ne_of_lt

theorem isEmpty_iff {s : BitSet} : s.isEmpty = true ↔ ∀ i, i ∉ s := by
  constructor
  · intro h i hi
    have hmask : s.mask = 0 := by simpa [isEmpty] using h
    rw [mem_def, hmask, Nat.zero_testBit] at hi
    cases hi
  · intro h
    have hempty : s = ∅ := ext_mem fun i => iff_of_false (h i) (not_mem_empty i)
    subst hempty
    rfl

theorem intersects_iff {s t : BitSet} : s.intersects t = true ↔ ∃ i, i ∈ s ∧ i ∈ t := by
  constructor
  · intro h
    false_or_by_contra
    next hnone =>
    have hempty : (s.inter t).isEmpty = true :=
      isEmpty_iff.2 fun i hi => hnone ⟨i, mem_inter.1 hi⟩
    simp [intersects, hempty] at h
  · rintro ⟨i, hi⟩
    have hne : (s.inter t).isEmpty ≠ true := fun h => isEmpty_iff.1 h i (mem_inter.2 hi)
    simpa [intersects] using hne

end BitSet

end Ebnf
