/-!
# Depth-first search

Start sets, follow sets, reachability of nonterminals and of scanner states are
all collected along the edges of a finite graph with cycles.  `explore` lists
what can be reached, each node once.  The fresh nodes, those that may still be
listed, are marked in an array.  Every step takes one mark away, so there are at
most as many steps as marks.

Main results:

- Theorem `mem_explore`: the list holds exactly the fresh nodes that a path
  through fresh nodes reaches.
- Theorem `nodup_explore`: no node is listed twice.
-/

namespace Ebnf

/-! ## Marks -/

/-- Whether a node is marked. -/
def isFresh (fresh : Array Bool) (p : Nat) : Bool :=
  fresh.getD p false

/-- Marks for all nodes below `n`. -/
def allFresh (n : Nat) : Array Bool :=
  .replicate n true

/-- Takes the mark of a node away. -/
def visit (fresh : Array Bool) (p : Nat) : Array Bool :=
  fresh.setIfInBounds p false

@[simp]
theorem isFresh_allFresh {n p : Nat} : isFresh (allFresh n) p = true ↔ p < n := by
  simp only [isFresh, allFresh, Array.getD_eq_getD_getElem?, Array.getElem?_replicate]
  split <;> simp_all

@[simp]
theorem isFresh_visit {fresh : Array Bool} {p q : Nat} :
    isFresh (visit fresh p) q = true ↔ isFresh fresh q = true ∧ q ≠ p := by
  simp only [isFresh, visit, Array.getD_eq_getD_getElem?, Array.getElem?_setIfInBounds]
  by_cases h : p = q
  · subst h
    by_cases hsize : p < fresh.size <;> simp [hsize]
  · simp [h, Ne.symm h]

/-- A visit takes one mark away. -/
theorem count_visit_lt {fresh : Array Bool} {p : Nat} (h : isFresh fresh p = true) :
    (visit fresh p).count true < fresh.count true := by
  have hsize : p < fresh.size := by
    false_or_by_contra
    next hge => simp [isFresh, hge] at h
  have hp : fresh[p] = true := by simpa [isFresh, hsize] using h
  have hpos : 0 < fresh.count true := Array.count_pos_iff.2 (hp ▸ Array.getElem_mem hsize)
  rw [visit, Array.setIfInBounds_def, dif_pos hsize, Array.count_set hsize]
  simp only [hp, beq_self_eq_true, if_true]
  simpa using Nat.sub_lt hpos Nat.one_pos

/-! ## Search -/

/-- Reached from one of `pending` on a path that stays within `fresh`. -/
inductive Reached (succ : Nat → List Nat) (fresh : Nat → Prop) (pending : List Nat) : Nat → Prop
  | root {p : Nat} : p ∈ pending → fresh p → Reached succ fresh pending p
  | step {p q : Nat} : Reached succ fresh pending p → q ∈ succ p → fresh q →
      Reached succ fresh pending q

/-- At most `fuel` fresh nodes that can be reached from the pending ones, in depth-first order. -/
def exploreWithin (succ : Nat → List Nat) : Nat → Array Bool → List Nat → List Nat
  | 0, _, _ => []
  | fuel + 1, fresh, pending =>
    match pending.dropWhile fun p => !isFresh fresh p with
    | [] => []
    | p :: rest => p :: exploreWithin succ fuel (visit fresh p) (succ p ++ rest)

/-- The fresh nodes that can be reached from the pending ones, in depth-first order. -/
def explore (succ : Nat → List Nat) (fresh : Array Bool) (pending : List Nat) : List Nat :=
  exploreWithin succ fresh.size fresh pending

theorem isFresh_of_dropWhile_eq_cons {fresh : Array Bool} {pending rest : List Nat} {p : Nat}
    (h : (pending.dropWhile fun p => !isFresh fresh p) = p :: rest) : isFresh fresh p = true := by
  induction pending with
  | nil => cases h
  | cons x pending ih =>
    by_cases hx : isFresh fresh x = true
    · simp only [List.dropWhile_cons, hx, Bool.not_true, Bool.false_eq_true, if_false,
        List.cons.injEq] at h
      exact h.1 ▸ hx
    · simp only [List.dropWhile_cons, hx, Bool.not_false, if_true] at h
      exact ih h

namespace Reached

variable {succ : Nat → List Nat} {fresh fresh' : Nat → Prop} {pending : List Nat} {p q : Nat}

theorem of_fresh (h : Reached succ fresh pending q) : fresh q := by
  cases h with
  | root _ hq => exact hq
  | step _ _ hq => exact hq

theorem congr_fresh (h : ∀ q, fresh q ↔ fresh' q) :
    Reached succ fresh pending q ↔ Reached succ fresh' pending q := by
  rw [funext fun q => propext (h q)]

theorem mono {succ' : Nat → List Nat} (hsucc : ∀ p, ∀ q ∈ succ p, q ∈ succ' p)
    (h : Reached succ fresh pending q) : Reached succ' fresh pending q := by
  induction h with
  | root hmem hq => exact .root hmem hq
  | step _ hs hq ih => exact .step ih (hsucc _ _ hs) hq

/-- A path that begins behind `p` begins at `p`. -/
theorem of_visit (hp : fresh p)
    (h : Reached succ (fun q => fresh q ∧ q ≠ p) (succ p ++ pending) q) :
    Reached succ fresh (p :: pending) q := by
  induction h with
  | root hmem hq =>
    rcases List.mem_append.1 hmem with hs | hs
    · exact .step (.root List.mem_cons_self hp) hs hq.1
    · exact .root (List.mem_cons_of_mem p hs) hq.1
  | step _ hs hq ih => exact .step ih hs hq.1

/-- A path to another node can begin behind the last visit of `p`. -/
theorem visit (h : Reached succ fresh (p :: pending) q) (hne : q ≠ p) :
    Reached succ (fun q => fresh q ∧ q ≠ p) (succ p ++ pending) q := by
  induction h with
  | root hmem hq =>
    have hpend := (List.mem_cons.1 hmem).resolve_left hne
    exact .root (List.mem_append_right _ hpend) ⟨hq, hne⟩
  | @step r q _ hs hq ih =>
    by_cases hr : r = p
    · subst hr
      exact .root (List.mem_append_left _ hs) ⟨hq, hne⟩
    · exact .step (ih hr) hs ⟨hq, hne⟩

theorem cons_of_not_fresh (hp : ¬ fresh p) :
    Reached succ fresh (p :: pending) q ↔ Reached succ fresh pending q := by
  constructor
  · intro h
    induction h with
    | root hmem hq =>
      rcases List.mem_cons.1 hmem with heq | hmem
      · exact absurd (heq ▸ hq) hp
      · exact .root hmem hq
    | step _ hs hq ih => exact .step ih hs hq
  · intro h
    induction h with
    | root hmem hq => exact .root (List.mem_cons_of_mem p hmem) hq
    | step _ hs hq ih => exact .step ih hs hq

theorem dropWhile_iff {marks : Array Bool} :
    Reached succ (isFresh marks · = true) (pending.dropWhile fun p => !isFresh marks p) q ↔
      Reached succ (isFresh marks · = true) pending q := by
  induction pending with
  | nil => rfl
  | cons p pending ih =>
    by_cases hp : isFresh marks p = true
    · simp [hp]
    · rw [cons_of_not_fresh hp, ← ih]
      simp [hp]

theorem not_nil : ¬ Reached succ fresh [] q := by
  intro h
  induction h with
  | root hmem _ => cases hmem
  | step _ _ _ ih => exact ih

end Reached

theorem mem_exploreWithin {succ : Nat → List Nat} {fuel : Nat} {fresh : Array Bool}
    {pending : List Nat} {q : Nat} (hfuel : fresh.count true ≤ fuel) :
    q ∈ exploreWithin succ fuel fresh pending ↔
      Reached succ (isFresh fresh · = true) pending q := by
  induction fuel generalizing fresh pending with
  | zero =>
    refine iff_of_false List.not_mem_nil fun h => ?_
    have := count_visit_lt h.of_fresh
    omega
  | succ fuel ih =>
    rw [← Reached.dropWhile_iff, exploreWithin]
    split
    · next heq =>
      rw [heq]
      exact iff_of_false List.not_mem_nil Reached.not_nil
    · next p rest heq =>
      have hp : isFresh fresh p = true := isFresh_of_dropWhile_eq_cons heq
      have hcount : (visit fresh p).count true ≤ fuel := by
        have := count_visit_lt hp
        omega
      rw [heq, List.mem_cons, ih hcount, Reached.congr_fresh fun _ => isFresh_visit]
      constructor
      · rintro (rfl | h)
        · exact .root List.mem_cons_self hp
        · exact .of_visit hp h
      · intro h
        by_cases hne : q = p
        · exact .inl hne
        · exact .inr (h.visit hne)

theorem mem_explore {succ : Nat → List Nat} {fresh : Array Bool} {pending : List Nat} {q : Nat} :
    q ∈ explore succ fresh pending ↔ Reached succ (isFresh fresh · = true) pending q :=
  mem_exploreWithin Array.count_le_size

theorem isFresh_of_mem_exploreWithin {succ : Nat → List Nat} {fuel : Nat} {fresh : Array Bool}
    {pending : List Nat} {q : Nat} (h : q ∈ exploreWithin succ fuel fresh pending) :
    isFresh fresh q = true := by
  induction fuel generalizing fresh pending with
  | zero => cases h
  | succ fuel ih =>
    rw [exploreWithin] at h
    split at h
    · cases h
    · next p rest heq =>
      rcases List.mem_cons.1 h with rfl | h
      · exact isFresh_of_dropWhile_eq_cons heq
      · exact (isFresh_visit.1 (ih h)).1

theorem nodup_exploreWithin {succ : Nat → List Nat} {fuel : Nat} {fresh : Array Bool}
    {pending : List Nat} : (exploreWithin succ fuel fresh pending).Nodup := by
  induction fuel generalizing fresh pending with
  | zero => exact List.nodup_nil
  | succ fuel ih =>
    rw [exploreWithin]
    split
    · exact List.nodup_nil
    · next p rest heq =>
      refine List.nodup_cons.2 ⟨fun hmem => ?_, ih⟩
      exact (isFresh_visit.1 (isFresh_of_mem_exploreWithin hmem)).2 rfl

theorem nodup_explore {succ : Nat → List Nat} {fresh : Array Bool} {pending : List Nat} :
    (explore succ fresh pending).Nodup :=
  nodup_exploreWithin

end Ebnf
