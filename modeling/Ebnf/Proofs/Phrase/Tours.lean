import Ebnf.Proofs.Analysis.Follow
import Ebnf.Proofs.Machine.Ending

/-!
# Two ways of walking agree

Some passes over a production keep no marks.  They go into structures and stop where a node
leaves the structure around it, so what they meet is the outline.  Others follow every link,
out of structures and round iterations, and mark the nodes that they have met.  The first
ones rely on the right nodes being marked as leaving, the others on the marks cutting loops
off.  Both meet each node of a production once.

Main results:

- Theorem `exists_tourFrom`: a recursive search that hands its marks on comes to an end and
  meets the nodes in the order of the search with pending nodes.
- Theorem `Grammar.Assembled.tours_agree`: however a phrase is put together, both ways of
  walking meet its nodes, each once.
-/

namespace Ebnf

/-! ## Recursive search -/

/-- Meets the fresh nodes that are reached from a node, going on from each successor with the marks that
are left: the nodes that are met, and the marks.  There is no result if this takes more than `fuel`
calls inside each other. -/
def tourFrom (succ : Nat → List Nat) : Nat → Nat → Array Bool → Option (List Nat × Array Bool)
  | 0, p, fresh => if isFresh fresh p then none else some ([], fresh)
  | fuel + 1, p, fresh =>
    if isFresh fresh p then
      (succ p).foldlM (fun state q => do
        let (met, fresh) ← tourFrom succ fuel q state.2
        some (state.1 ++ met, fresh)) ([p], visit fresh p)
    else some ([], fresh)

/-- Goes on from several nodes, one after the other. -/
def tourAll (succ : Nat → List Nat) (fuel : Nat) (pending : List Nat)
    (state : List Nat × Array Bool) : Option (List Nat × Array Bool) :=
  pending.foldlM (fun state q => do
    let (met, fresh) ← tourFrom succ fuel q state.2
    some (state.1 ++ met, fresh)) state

/-- A search from the pending nodes begins with `met`, and then `fresh'` are the marks that are left. -/
structure Tours (succ : Nat → List Nat) (pending : List Nat) (fresh : Array Bool) (met : List Nat)
    (fresh' : Array Bool) : Prop where
  explores : ∀ n rest, exploreWithin succ (met.length + n) fresh (pending ++ rest) =
    met ++ exploreWithin succ n fresh' rest
  marks : fresh' = met.foldl visit fresh
  count_le : fresh'.count true ≤ fresh.count true

section Tours

variable {succ : Nat → List Nat} {fresh fresh' fresh'' : Array Bool} {pending pending' met met' : List Nat}
  {p n fuel : Nat}

theorem tourFrom_of_not_fresh (hp : ¬ isFresh fresh p = true) :
    tourFrom succ fuel p fresh = some ([], fresh) := by
  cases fuel <;> rw [tourFrom, if_neg hp]

theorem tourFrom_of_fresh (hp : isFresh fresh p = true) :
    tourFrom succ (fuel + 1) p fresh = tourAll succ fuel (succ p) ([p], visit fresh p) := by
  rw [tourFrom, if_pos hp, tourAll]

theorem exploreWithin_of_not_fresh (hp : ¬ isFresh fresh p = true) :
    exploreWithin succ fuel fresh (p :: pending) = exploreWithin succ fuel fresh pending := by
  cases fuel with
  | zero => rfl
  | succ fuel => rw [exploreWithin, exploreWithin, List.dropWhile_cons_of_pos (by simp [hp])]

theorem exploreWithin_of_fresh (hp : isFresh fresh p = true) :
    exploreWithin succ (fuel + 1) fresh (p :: pending) =
      p :: exploreWithin succ fuel (visit fresh p) (succ p ++ pending) := by
  rw [exploreWithin, List.dropWhile_cons_of_neg (by simp [hp])]

namespace Tours

theorem nil : Tours succ [] fresh [] fresh :=
  ⟨fun n rest => by simp, rfl, Nat.le_refl _⟩

theorem skip (hp : ¬ isFresh fresh p = true) : Tours succ [p] fresh [] fresh :=
  ⟨fun n rest => by simp [exploreWithin_of_not_fresh hp], rfl, Nat.le_refl _⟩

/-- A fresh node is met before its successors. -/
theorem visit (hp : isFresh fresh p = true) (h : Tours succ (succ p) (Ebnf.visit fresh p) met fresh') :
    Tours succ [p] fresh (p :: met) fresh' where
  explores n rest := by
    rw [List.length_cons, Nat.succ_add, List.singleton_append, exploreWithin_of_fresh hp, h.explores,
      List.cons_append]
  marks := h.marks
  count_le := Nat.le_trans h.count_le (Nat.le_of_lt (count_visit_lt hp))

theorem append (h : Tours succ pending fresh met fresh')
    (h' : Tours succ pending' fresh' met' fresh'') :
    Tours succ (pending ++ pending') fresh (met ++ met') fresh'' where
  explores n rest := by
    rw [List.length_append, Nat.add_assoc, List.append_assoc, h.explores, h'.explores,
      List.append_assoc]
  marks := by rw [List.foldl_append, ← h.marks, h'.marks]
  count_le := Nat.le_trans h'.count_le h.count_le

end Tours

/-- With as many calls as there are marks, the search from any node comes to an end. -/
def Tourable (succ : Nat → List Nat) (n : Nat) : Prop :=
  ∀ (p : Nat) (fresh : Array Bool), fresh.count true ≤ n → ∃ met fresh',
    HaltsWith (fun fuel => tourFrom succ fuel p fresh) n (met, fresh') ∧
      Tours succ [p] fresh met fresh'

/-- Several searches come to an end if each of them does. -/
theorem Tourable.exists_tourAll (h : Tourable succ n) (pending : List Nat) (before : List Nat)
    (hcount : fresh.count true ≤ n) : ∃ met fresh',
      HaltsWith (fun fuel => tourAll succ fuel pending (before, fresh)) n (before ++ met, fresh') ∧
        Tours succ pending fresh met fresh' := by
  induction pending generalizing before fresh with
  | nil => exact ⟨[], fresh, fun _ _ => by simp [tourAll], .nil⟩
  | cons p pending ih =>
    obtain ⟨met, fresh₁, hfirst, htour⟩ := h p fresh hcount
    obtain ⟨met', fresh', hrest, htour'⟩ :=
      ih (before ++ met) (Nat.le_trans htour.count_le hcount)
    refine ⟨met ++ met', fresh', fun fuel hfuel => ?_, htour.append htour'⟩
    rw [← List.append_assoc, ← hrest fuel hfuel]
    simp [tourAll, hfirst fuel hfuel]

/-- Each node that is met leaves fewer marks to the searches from its successors. -/
theorem tourable (succ : Nat → List Nat) (n : Nat) : Tourable succ n := by
  induction n with
  | zero =>
    intro p fresh hcount
    have hp : ¬ isFresh fresh p = true := fun hp =>
      Nat.not_lt_zero _ (Nat.lt_of_lt_of_le (count_visit_lt hp) hcount)
    exact ⟨[], fresh, fun fuel _ => tourFrom_of_not_fresh hp, .skip hp⟩
  | succ n ih =>
    intro p fresh hcount
    by_cases hp : isFresh fresh p = true
    · have hfewer : (visit fresh p).count true ≤ n :=
        Nat.le_of_lt_succ (Nat.lt_of_lt_of_le (count_visit_lt hp) hcount)
      obtain ⟨met, fresh', hhalts, htour⟩ := ih.exists_tourAll (succ p) [p] hfewer
      exact ⟨p :: met, fresh', hhalts.succ fun _ => tourFrom_of_fresh hp, htour.visit hp⟩
    · exact ⟨[], fresh, fun fuel _ => tourFrom_of_not_fresh hp, .skip hp⟩

@[simp]
theorem exploreWithin_nil : exploreWithin succ fuel fresh [] = [] := by
  cases fuel <;> rfl

theorem exploreWithin_of_count_eq_zero (h : fresh.count true = 0) :
    exploreWithin succ fuel fresh pending = [] := by
  refine List.eq_nil_iff_forall_not_mem.2 fun q hq => ?_
  have hlt := count_visit_lt (isFresh_of_mem_exploreWithin hq)
  rw [h] at hlt
  exact Nat.not_lt_zero _ hlt

/-- A search that may take more steps than there are marks lists no more. -/
theorem exploreWithin_congr {fuel' : Nat} (hfuel : fresh.count true ≤ fuel)
    (hfuel' : fresh.count true ≤ fuel') :
    exploreWithin succ fuel fresh pending = exploreWithin succ fuel' fresh pending := by
  induction fuel generalizing fuel' fresh pending with
  | zero =>
    have hzero := Nat.le_zero.1 hfuel
    rw [exploreWithin_of_count_eq_zero hzero, exploreWithin_of_count_eq_zero hzero]
  | succ fuel ih =>
    cases fuel' with
    | zero =>
      have hzero := Nat.le_zero.1 hfuel'
      rw [exploreWithin_of_count_eq_zero hzero, exploreWithin_of_count_eq_zero hzero]
    | succ fuel' =>
      rw [exploreWithin, exploreWithin]
      split
      · rfl
      · next p rest heq =>
        have hlt := count_visit_lt (isFresh_of_dropWhile_eq_cons heq)
        exact congrArg (p :: ·) (ih (by omega) (by omega))

/-- The recursive search comes to an end, and meets what the search with pending nodes lists. -/
theorem exists_tourFrom (succ : Nat → List Nat) (p : Nat) (fresh : Array Bool) :
    HaltsWith (fun fuel => tourFrom succ fuel p fresh) (fresh.count true)
      (explore succ fresh [p], (explore succ fresh [p]).foldl visit fresh) := by
  obtain ⟨met, fresh', hhalts, htour⟩ := tourable succ _ p fresh (Nat.le_refl _)
  have hmet : explore succ fresh [p] = met := by
    have hexplore := htour.explores (fresh.count true) []
    rw [exploreWithin_nil, List.append_nil, List.append_nil] at hexplore
    rw [← hexplore]
    exact exploreWithin_congr Array.count_le_size (Nat.le_add_left _ _)
  rw [hmet, ← htour.marks]
  exact hhalts

end Tours

/-! ## Walks over a phrase -/

namespace Grammar

variable {g : Grammar} {pool : List Phrase} {e : Phrase} {up : Bool} {fresh : Array Bool}

/-- All nodes of a closed phrase are met, each once. -/
theorem Shows.explore_perm (h : g.Shows e none up) (hnodup : e.nodes.Nodup)
    (hfresh : ∀ p ∈ e.nodes, isFresh fresh p = true) :
    (explore g.edges fresh [e.entry]).Perm e.nodes :=
  (List.perm_ext_iff_of_nodup nodup_explore hnodup).2 fun _ => h.mem_explore_edges hfresh

/-- However a phrase is put together and closed, a walk that keeps no marks and stops where nodes leave
their structure comes to an end and meets each node of the phrase once.  So does a walk that follows
every link and marks what it has met, if none of the nodes was met before. -/
theorem Assembled.tours_agree (h : Assembled g (e :: pool)) :
    let whole := g.close e.fragment
    e.nodes.Nodup ∧
      (∀ fuel, e.nodes.length ≤ fuel →
        (whole.outlineWithin fuel (some e.fragment.entry)).nodes = e.nodes) ∧
      ∀ fresh : Array Bool, (∀ p ∈ e.nodes, isFresh fresh p = true) →
        ∃ met, met.Perm e.nodes ∧ met = explore whole.edges fresh [e.fragment.entry] ∧
          HaltsWith (fun fuel => tourFrom whole.edges fuel e.fragment.entry fresh)
            (fresh.count true) (met, met.foldl visit fresh) := by
  intro whole
  have hshows : whole.Shows e none false := h.shows_close
  have hnodup : e.nodes.Nodup := h.toPool.nodup e List.mem_cons_self
  refine ⟨hnodup, fun fuel hfuel => ?_, fun fresh hfresh => ?_⟩
  · show (whole.outlineWithin fuel (some e.entry)).nodes = e.nodes
    rw [outlineWithin_closed hshows (.inr rfl) hfuel, Phrase.nodes_outline]
    exact List.append_nil _
  · exact ⟨_, hshows.explore_perm hnodup hfresh, rfl, exists_tourFrom _ _ _⟩

/-- The fragments of `(a | B) c`, put together. -/
def forked : Grammar :=
  let (a, g) := initial.addLeaf { kind := .terminal 1, line := 1 }
  let (arms, g) := g.firstArm a
  let (b, g) := g.addLeaf { kind := .nonterminal 2, line := 1 }
  let (arms, g) := g.addArm arms b
  let (c, g) := g.addLeaf { kind := .terminal 3, line := 1 }
  (g.sequence arms c).2

/-- The phrase `(a | B) c`. -/
def forkedPhrase : Phrase :=
  .seq (.alt 1 (.leaf 0) (.arm 3 (.leaf 2))) (.leaf 4)

theorem assembled_forked : Assembled forked [forkedPhrase] := by
  have hterminal : ∀ s, (NodeKind.terminal s).isLeaf = true := fun _ => rfl
  have hnonterminal : (NodeKind.nonterminal 2).isLeaf = true := rfl
  have harm := ((Assembled.start .initial).leaf (hterminal 1) 1 none).firstArm
  have harms := ((harm.leaf hnonterminal 1 none).perm (.swap _ _ _)).addArm rfl
  exact ((harms.leaf (hterminal 3) 1 none).perm (.swap _ _ _)).sequence

/-- In `(a | B) c` the walk with marks gets from `a` to `c`, before it gets to `B`. -/
theorem Assembled.tours_agree_forked :
    let whole := forked.close forkedPhrase.fragment
    Assembled forked [forkedPhrase] ∧
      (whole.outlineWithin 5 (some 1)).nodes = [1, 0, 3, 2, 4] ∧
      HaltsWith (fun fuel => tourFrom whole.edges fuel 1 (allFresh 5)) 5
        ([1, 0, 4, 3, 2], [1, 0, 4, 3, 2].foldl visit (allFresh 5)) := by
  intro whole
  obtain ⟨_, hseen, hmet⟩ := assembled_forked.tours_agree
  have hfresh : ∀ p ∈ forkedPhrase.nodes, isFresh (allFresh 5) p = true := by decide
  obtain ⟨_, _, rfl, hhalts⟩ := hmet (allFresh 5) hfresh
  have hexplore : explore whole.edges (allFresh 5) [1] = [1, 0, 4, 3, 2] := by decide +kernel
  refine ⟨assembled_forked, hseen 5 (Nat.le_refl _), ?_⟩
  rw [← hexplore]
  exact hhalts

end Grammar

end Ebnf
