import Ebnf.Proofs.Analysis.Any
import Ebnf.Proofs.Analysis.Begins
import Ebnf.Proofs.Analysis.Borders

/-!
# What is passed in front of an ANY

Where a phrase has no ANYs of its own, going through it takes terminals from one that
follows, once for each part that can be passed and behind which the ANY is seen.  Behind a
part one sees to the end of the structure that encloses it, and on behind an option, an
iteration or an alternative only from the part at its very end.

Main results:

- Theorem `Grammar.narrowAnys_eq_narrowPast`: a phrase without ANYs is gone through by
  going past its parts.
- Theorem `Grammar.mem_set_narrowPast`: what is taken from an ANY on the way.
- Theorems `Grammar.Composed.leadingAny_of_borders` and `Grammar.Composed.borders_of_leadingAny`:
  behind which parts one sees what follows the phrase.
-/

namespace Ebnf

namespace Grammar

variable {g g' : Grammar} {pool : List Phrase} {e f x : Phrase} {fs : List Phrase}
  {k v : Option NodeId} {up : Bool} {a p : NodeId} {m n : Nat} {rest : Outline}

/-! ## Going past parts -/

/-- None of the nodes is an ANY. -/
def Free (g : Grammar) (ps : List NodeId) : Prop :=
  ∀ p ∈ ps, (g.node p).kind ≠ .any

theorem Shrinks.free {ps : List NodeId} (h : g.Shrinks g') (hfree : g.Free ps) : g'.Free ps :=
  fun p hp => h.agrees.kind_eq p ▸ hfree p hp

theorem Free.frontAny_eq_none (h : g.Free e.nodes) : g.frontAny (e.outline .done) = none := by
  refine Option.eq_none_iff_forall_not_mem.2 fun q hq => ?_
  obtain ⟨hmem, hkind⟩ := mem_of_frontAny hq
  rw [Phrase.nodes_outline, Outline.nodes, List.append_nil] at hmem
  exact h q hmem hkind

/-- Takes terminals from what is seen behind each of the phrases. -/
def narrowPast (g : Grammar) (fs : List Phrase) : Grammar :=
  fs.foldl (fun g f => g.narrowBehind f.entry) g

theorem narrowPast_append {gs : List Phrase} :
    g.narrowPast (fs ++ gs) = (g.narrowPast fs).narrowPast gs :=
  List.foldl_append

/-- The phrase itself is passed after the parts within it. -/
theorem narrowPast_pieces (hseq : ∀ a b, e ≠ .seq a b) :
    g.narrowPast e.pieces = (g.narrowPast e.within).narrowBehind e.entry := by
  rw [Phrase.pieces, narrowPast_append]
  cases e with
  | seq a b => exact absurd rfl (hseq a b)
  | _ => rfl

theorem narrowPast_shrinks (g : Grammar) (fs : List Phrase) : g.Shrinks (g.narrowPast fs) :=
  List.foldlRecOn fs _ (motive := g.Shrinks) (.refl g) fun _ h f _ =>
    h.trans (narrowBehind_shrinks _ f.entry)

theorem narrowGroup_of_free (h : g.Free e.nodes) : g.narrowGroup p (e.outline .done) = g := by
  rw [narrowGroup, h.frontAny_eq_none]

theorem narrowArm_of_free {taken : BitSet} (h : g.Free e.nodes) :
    (g.narrowArm p (e.outline .done) taken).2 = g := by
  rw [narrowArm, h.frontAny_eq_none]

/-- A phrase without ANYs is gone through by going past its parts.  As the further arms of an
alternative it is not a part by itself. -/
theorem narrowAnys_eq_narrowPast (h : g.Shows e k up) (hfree : g.Free e.nodes) :
    g.narrowAnys (e.outline .done) = g.narrowPast e.pieces ∧
      (e.isArms = true → ∀ taken, g.narrowArms taken (e.outline .done) = g.narrowPast e.within) := by
  induction e generalizing g k up with
  | leaf p =>
    refine ⟨?_, fun harms => by cases harms⟩
    rw [Phrase.outline, narrowAnys, narrowAnys]
    rfl
  | seq a b iha ihb =>
    refine ⟨?_, fun harms => by cases harms⟩
    obtain ⟨ha, hb⟩ := List.forall_mem_append.1 hfree
    have hpast := g.narrowPast_shrinks a.pieces
    rw [Phrase.outline, narrowAnys_outline, (iha h.1 ha).1, (ihb (hpast.shows h.2) (hpast.free hb)).1,
      ← narrowPast_append]
    exact congrArg _ (List.append_nil _).symm
  | opt p e ih | iter p e ih =>
    refine ⟨?_, fun harms => by cases harms⟩
    obtain ⟨_, he⟩ := List.forall_mem_cons.1 hfree
    rw [Phrase.outline, narrowAnys, narrowAnys, (ih h.2 he).1,
      narrowGroup_of_free ((g.narrowPast_shrinks e.pieces).free he)]
    exact Eq.trans rfl (Eq.symm (narrowPast_pieces (by simp)))
  | arm p e ih =>
    obtain ⟨_, he⟩ := List.forall_mem_cons.1 hfree
    have harms : ∀ taken, g.narrowArms taken ((Phrase.arm p e).outline .done) =
        g.narrowPast (Phrase.arm p e).within := by
      intro taken
      rw [Phrase.outline, narrowArms_arm, (ih h.2 he).1,
        narrowArm_of_free ((g.narrowPast_shrinks e.pieces).free he), narrowArms_of_arms rfl]
      rfl
    refine ⟨?_, fun _ => harms⟩
    rw [Phrase.outline, narrowAnys_arm, narrowAnys, ← Phrase.outline, harms ∅]
    exact Eq.trans rfl (Eq.symm (narrowPast_pieces (by simp)))
  | alt p e r ihe ihr =>
    obtain ⟨he, hr⟩ := List.forall_mem_append.1 (List.forall_mem_cons.1 hfree).2
    have hpast := g.narrowPast_shrinks e.pieces
    have harms : ∀ taken, g.narrowArms taken ((Phrase.alt p e r).outline .done) =
        g.narrowPast (Phrase.alt p e r).within := by
      intro taken
      rw [Phrase.outline, narrowArms_arm, (ihe h.2.2.1 he).1, narrowArm_of_free (hpast.free he),
        (ihr (hpast.shows h.2.2.2) (hpast.free hr)).2 h.1, ← narrowPast_append]
      rfl
    refine ⟨?_, fun _ => harms⟩
    rw [Phrase.outline, narrowAnys_arm, narrowAnys, ← Phrase.outline, harms ∅]
    exact Eq.trans rfl (Eq.symm (narrowPast_pieces (by simp)))

/-! ## What is taken on the way -/

/-- Going past the part takes the terminal from the ANY. -/
def Takes (g : Grammar) (a : NodeId) (n : Nat) (f : Phrase) : Prop :=
  g.deletableNode f.entry = true ∧ g.leadingAny (g.node f.entry).next = some a ∧
    n ∈ g.first (g.contents f.entry)

theorem mem_set_narrowBehind : n ∈ ((g.narrowBehind f.entry).node a).set ↔
    n ∈ (g.node a).set ∧ ¬ g.Takes a n f := by
  unfold narrowBehind Takes leadingAny
  split
  · next hdel =>
    split
    · next any hany =>
      rw [mem_set_narrow, hany]
      simp [hdel, eq_comm]
    · next hnone => simp [hnone]
  · next hdel => simp [hdel]

/-- If the part can be passed and the ANY is seen behind it, the search through the contents of the
part comes to no ANY. -/
def Steady (g : Grammar) (a : NodeId) (f : Phrase) : Prop :=
  g.deletableNode f.entry = true → g.leadingAny (g.node f.entry).next = some a →
    ∀ q, Reached g.startEdges (· < g.nodes.size) (g.contents f.entry).toList q →
      (g.node q).kind ≠ .any

theorem Shrinks.contents_eq (h : g.Shrinks g') (p : NodeId) : g'.contents p = g.contents p := by
  unfold contents
  simp only [h.agrees.kind_eq, h.sym_eq, h.agrees.sub_eq]

theorem Shrinks.steady (h : g.Shrinks g') (hset : g.Steady a f) : g'.Steady a f := by
  unfold Steady
  simp only [h.agrees.deletableNode_eq, h.leadingAny_eq, h.agrees.next_eq, h.startEdges_eq, h.size_eq,
    h.contents_eq, h.agrees.kind_eq]
  exact hset

theorem Shrinks.takes_iff (h : g.Shrinks g') (hset : g.Steady a f) :
    g'.Takes a n f ↔ g.Takes a n f := by
  unfold Takes
  rw [h.agrees.deletableNode_eq, h.leadingAny_eq, h.agrees.next_eq, h.contents_eq]
  exact and_congr_right fun hdel => and_congr_right fun hsees => h.mem_first_iff (hset hdel hsees)

/-- What is taken on the way is what each part by itself takes. -/
theorem mem_set_narrowPast (hset : ∀ f ∈ fs, g.Steady a f) :
    n ∈ ((g.narrowPast fs).node a).set ↔ n ∈ (g.node a).set ∧ ∀ f ∈ fs, ¬ g.Takes a n f := by
  induction fs generalizing g with
  | nil => simp [narrowPast]
  | cons f fs ih =>
    obtain ⟨_, hfs⟩ := List.forall_mem_cons.1 hset
    have hshrinks := g.narrowBehind_shrinks f.entry
    have hsame : (∀ f' ∈ fs, ¬ (g.narrowBehind f.entry).Takes a n f') ↔ ∀ f' ∈ fs, ¬ g.Takes a n f' :=
      forall₂_congr fun f' hf' => not_congr (hshrinks.takes_iff (hfs f' hf'))
    calc
      n ∈ ((g.narrowPast (f :: fs)).node a).set
      _ ↔ n ∈ ((g.narrowBehind f.entry).node a).set ∧
          ∀ f' ∈ fs, ¬ (g.narrowBehind f.entry).Takes a n f' :=
        ih fun f' hf' => hshrinks.steady (hfs f' hf')
      _ ↔ n ∈ (g.node a).set ∧ ∀ f' ∈ f :: fs, ¬ g.Takes a n f' := by
        rw [hsame, mem_set_narrowBehind, List.forall_mem_cons, and_assoc]

/-! ## What is seen behind a part -/

/-- `v` is the ANY that is seen from a node, if any, to every depth from `m` on. -/
def Sees (g : Grammar) (m : Nat) (k v : Option NodeId) : Prop :=
  ∀ fuel, m ≤ fuel → g.frontAny (g.outlineWithin fuel k) = v

/-- Past a phrase without ANYs one sees on if it is nullable. -/
theorem Shows.frontAny_outline (h : g.Shows e k up) (hnodup : e.nodes.Nodup) (hfree : g.Free e.nodes) :
    g.frontAny (e.outline rest) =
      if e.nullable g.leafDeletable then g.frontAny rest else none := by
  induction e generalizing k up rest with
  | leaf p =>
    rw [Phrase.outline, frontAny, if_neg (hfree p List.mem_cons_self)]
    rfl
  | seq a b iha ihb =>
    obtain ⟨ha, hb, _⟩ := List.nodup_append'.1 hnodup
    obtain ⟨hfa, hfb⟩ := List.forall_mem_append.1 hfree
    rw [Phrase.outline, iha h.1 ha hfa, ihb h.2 hb hfb, Phrase.nullable]
    cases a.nullable g.leafDeletable <;> rfl
  | arm p e =>
    have hdel := (deletableNode_entry h hnodup (by simp)).1
    have hbody := Free.frontAny_eq_none (List.forall_mem_cons.1 hfree).2
    rw [Phrase.entry] at hdel
    rw [Phrase.outline, frontAny, hbody, frontAny, hdel]
    rfl
  | alt p e r =>
    have hdel := (deletableNode_entry h hnodup (by simp)).1
    obtain ⟨he, hr⟩ := List.forall_mem_append.1 (List.forall_mem_cons.1 hfree).2
    rw [Phrase.entry] at hdel
    rw [Phrase.outline, frontAny, Free.frontAny_eq_none he, Free.frontAny_eq_none hr, hdel]
    rfl
  | opt p e | iter p e =>
    have hbody := Free.frontAny_eq_none (List.forall_mem_cons.1 hfree).2
    rw [Phrase.outline, frontAny, hbody]
    rfl

/-- From the first node of a nullable phrase without ANYs one sees what follows, unless the phrase ends
its structure. -/
theorem Shows.sees (h : g.Shows e k up) (hnodup : e.nodes.Nodup) (hfree : g.Free e.nodes)
    (hk : up = false → g.Sees m k v) : g.Sees (m + e.nodes.length) (some e.entry)
      (if e.nullable g.leafDeletable then if up then none else v else none) := by
  intro fuel hfuel
  have hbehind : g.Behind m k up fun o => g.frontAny o = if up then none else v := by
    unfold Behind
    cases up with
    | true => rfl
    | false => exact hk rfl
  obtain ⟨rest, hrest, heq⟩ := outlineWithin_entry m fuel h hbehind hfuel
  rw [heq, h.frontAny_outline hnodup hfree, hrest]

/-- Behind a phrase that is no sequence one sees what follows. -/
theorem Sees.leadingAny_next (hk : g.Sees m k v) (h : g.Shows e k up) (hnodup : e.nodes.Nodup)
    (hseq : ∀ a b, e ≠ .seq a b) (hm : m ≤ g.nodes.size) :
    g.leadingAny (g.node e.entry).next = v := by
  rw [(deletableNode_entry h hnodup hseq).2]
  exact hk _ hm

/-- What is seen behind a phrase that is no sequence is seen behind the phrase itself or behind a part
within it. -/
theorem Sees.borders (hk : g.Sees m k v) (h : g.Shows e k up) (hnodup : e.nodes.Nodup)
    (hseq : ∀ a b, e ≠ .seq a b) (hm : m ≤ g.nodes.size)
    (hwithin : ∀ f ∈ e.within, g.leadingAny (g.node f.entry).next = some a →
      v = some a ∧ Phrase.Borders (g.Vanishes pool) up e f)
    (hf : f ∈ e.pieces) (hsees : g.leadingAny (g.node f.entry).next = some a) :
    v = some a ∧ Phrase.Borders (g.Vanishes pool) up e f := by
  rcases List.mem_append.1 hf with hf | hf
  · exact hwithin f hf hsees
  · obtain rfl : f = e := by
      cases e with
      | seq a b => cases hf
      | _ => exact List.mem_singleton.1 hf
    exact ⟨(hk.leadingAny_next h hnodup hseq hm).symm.trans hsees, .self hseq⟩

namespace Composed

variable (hg : g.Composed pool) (hclosed : g.Closed) (hflags : g.FlagsSound pool)
include hg hclosed hflags

/-- Behind these parts one sees what follows the phrase. -/
theorem leadingAny_of_borders (hb : Phrase.Borders (g.Vanishes pool) up e f) (h : g.Shows e k up)
    (hnodup : e.nodes.Nodup) (hfree : g.Free e.nodes) (hk : g.Sees m k v) (hm : m ≤ g.nodes.size)
    (hroom : up = false → m + e.nodes.length ≤ g.nodes.size) :
    f ∈ e.pieces ∧ g.leadingAny (g.node f.entry).next = v := by
  induction hb generalizing k m with
  | @self up e hseq =>
    refine ⟨List.mem_append_right _ ?_, hk.leadingAny_next h hnodup hseq hm⟩
    cases e with
    | seq a b => exact absurd rfl (hseq a b)
    | _ => exact List.mem_cons_self
  | @second up a b f _ ih =>
    obtain ⟨_, hb, _⟩ := List.nodup_append'.1 hnodup
    have hlen : (Phrase.seq a b).nodes.length = a.nodes.length + b.nodes.length := List.length_append
    obtain ⟨hf, hsees⟩ := ih h.2 hb (List.forall_mem_append.1 hfree).2 hk hm
      fun hup => Nat.le_trans (by omega) (hroom hup)
    exact ⟨List.mem_append_left _ (List.mem_append_right _ hf), hsees⟩
  | @first a b f hvanish _ ih =>
    obtain ⟨ha, hb, _⟩ := List.nodup_append'.1 hnodup
    obtain ⟨hfa, hfb⟩ := List.forall_mem_append.1 hfree
    have hlen : (Phrase.seq a b).nodes.length = a.nodes.length + b.nodes.length := List.length_append
    have hroom := hroom rfl
    have hnull := (hg.nullable_iff_vanishes hclosed hflags).2 hvanish
    have hpast := h.2.sees hb hfb fun _ => hk
    rw [if_pos hnull] at hpast
    obtain ⟨hf, hsees⟩ := ih h.1 ha hfa hpast (by omega) fun _ => by omega
    exact ⟨List.mem_append_left _ (List.mem_append_left _ hf), hsees⟩
  | option _ ih =>
    obtain ⟨hf, hsees⟩ := ih h.2 (List.nodup_cons.1 hnodup).2 (List.forall_mem_cons.1 hfree).2 hk hm
      nofun
    exact ⟨List.mem_append_left _ hf, hsees⟩
  | @round p e f _ ih =>
    have hpast := h.sees hnodup hfree fun _ => hk
    obtain ⟨hf, hsees⟩ := ih h.2 (List.nodup_cons.1 hnodup).2 (List.forall_mem_cons.1 hfree).2 hpast
      (hroom rfl) nofun
    exact ⟨List.mem_append_left _ hf, hsees⟩
  | body hx _ ih =>
    have hsub := Phrase.sublist_of_mem_bodies hx
    obtain ⟨hf, hsees⟩ := ih (h.body hx) (hnodup.sublist hsub) (fun p hp => hfree p (hsub.subset hp)) hk
      hm nofun
    exact ⟨List.mem_append_left _ (Phrase.pieces_subset_of_mem_bodies hx hf), hsees⟩

/-- An ANY that is seen behind a part follows the phrase, and the part is one of these.  In an
alternative it is at the end of one of the arms. -/
theorem borders_of_leadingAny (h : g.Shows e k up) (hnodup : e.nodes.Nodup) (hfree : g.Free e.nodes)
    (hk : g.Sees m k v) (hm : m ≤ g.nodes.size)
    (hroom : up = false → m + e.nodes.length ≤ g.nodes.size) :
    (∀ f ∈ e.pieces, g.leadingAny (g.node f.entry).next = some a →
      v = some a ∧ Phrase.Borders (g.Vanishes pool) up e f) ∧
    (e.isArms = true → ∀ f ∈ e.within, g.leadingAny (g.node f.entry).next = some a →
      v = some a ∧ ∃ x ∈ e.bodies, Phrase.Borders (g.Vanishes pool) true x f) := by
  induction e generalizing k up m v with
  | leaf p =>
    refine ⟨fun f hf => hk.borders h hnodup (by simp) hm ?_ hf, fun harms => by cases harms⟩
    exact fun f hf => absurd hf List.not_mem_nil
  | seq a b iha ihb =>
    refine ⟨fun f hf hsees => ?_, fun harms => by cases harms⟩
    obtain ⟨ha, hb, _⟩ := List.nodup_append'.1 hnodup
    obtain ⟨hfa, hfb⟩ := List.forall_mem_append.1 hfree
    have hlen : (Phrase.seq a b).nodes.length = a.nodes.length + b.nodes.length := List.length_append
    have hsize := h.length_nodes_le hnodup
    rw [Phrase.pieces, Phrase.whole, List.append_nil] at hf
    rcases List.mem_append.1 hf with hf | hf
    · cases up with
      | true =>
        -- the second part ends the structure, so one does not see past it
        have hpast := h.2.sees (m := 0) (v := none) hb hfb nofun
        have hnone := ((iha h.1 ha hfa hpast (by omega) fun _ => by omega).1 f hf hsees).1
        split at hnone <;> cases hnone
      | false =>
        have hroom := hroom rfl
        have hpast := h.2.sees hb hfb fun _ => hk
        obtain ⟨hv, hborders⟩ := (iha h.1 ha hfa hpast (by omega) fun _ => by omega).1 f hf hsees
        split at hv
        · next hnull => exact ⟨hv, .first ((hg.nullable_iff_vanishes hclosed hflags).1 hnull) hborders⟩
        · cases hv
    · obtain ⟨hv, hborders⟩ := (ihb h.2 hb hfb hk hm fun hup =>
        Nat.le_trans (by omega) (hroom hup)).1 f hf hsees
      exact ⟨hv, .second hborders⟩
  | opt p e ih =>
    refine ⟨fun f hf => hk.borders h hnodup (by simp) hm (fun f hf hsees => ?_) hf,
      fun harms => by cases harms⟩
    obtain ⟨hv, hborders⟩ := (ih h.2 (List.nodup_cons.1 hnodup).2 (List.forall_mem_cons.1 hfree).2 hk hm
      nofun).1 f hf hsees
    exact ⟨hv, .option hborders⟩
  | iter p e ih =>
    refine ⟨fun f hf => hk.borders h hnodup (by simp) hm (fun f hf hsees => ?_) hf,
      fun harms => by cases harms⟩
    have he := (List.nodup_cons.1 hnodup).2
    have hfe := (List.forall_mem_cons.1 hfree).2
    have hsize := h.length_nodes_le hnodup
    cases up with
    | true =>
      -- behind the iteration its structure ends, so one does not see past it from the contents
      have hpast := h.sees (m := 0) (v := none) hnodup hfree nofun
      have hnone := ((ih h.2 he hfe hpast (by omega) nofun).1 f hf hsees).1
      split at hnone <;> cases hnone
    | false =>
      have hpast := h.sees hnodup hfree fun _ => hk
      obtain ⟨hv, hborders⟩ := (ih h.2 he hfe hpast (hroom rfl) nofun).1 f hf hsees
      exact ⟨hv, .round hborders⟩
  | arm p e ih =>
    have hwithin : ∀ f ∈ (Phrase.arm p e).within, g.leadingAny (g.node f.entry).next = some a →
        v = some a ∧ ∃ x ∈ (Phrase.arm p e).bodies, Phrase.Borders (g.Vanishes pool) true x f := by
      intro f hf hsees
      obtain ⟨hv, hborders⟩ := (ih h.2 (List.nodup_cons.1 hnodup).2 (List.forall_mem_cons.1 hfree).2 hk
        hm nofun).1 f hf hsees
      exact ⟨hv, e, List.mem_singleton_self e, hborders⟩
    refine ⟨fun f hf => hk.borders h hnodup (by simp) hm (fun f hf hsees => ?_) hf, fun _ => hwithin⟩
    obtain ⟨hv, x, hx, hborders⟩ := hwithin f hf hsees
    exact ⟨hv, .body hx hborders⟩
  | alt p e r ihe ihr =>
    obtain ⟨he, hr, _⟩ := List.nodup_append'.1 (List.nodup_cons.1 hnodup).2
    obtain ⟨hfe, hfr⟩ := List.forall_mem_append.1 (List.forall_mem_cons.1 hfree).2
    have hwithin : ∀ f ∈ (Phrase.alt p e r).within, g.leadingAny (g.node f.entry).next = some a →
        v = some a ∧ ∃ x ∈ (Phrase.alt p e r).bodies, Phrase.Borders (g.Vanishes pool) true x f := by
      intro f hf hsees
      rcases List.mem_append.1 hf with hf | hf
      · obtain ⟨hv, hborders⟩ := (ihe h.2.2.1 he hfe hk hm nofun).1 f hf hsees
        exact ⟨hv, e, List.mem_cons_self, hborders⟩
      · obtain ⟨hv, x, hx, hborders⟩ := (ihr h.2.2.2 hr hfr hk hm nofun).2 h.1 f hf hsees
        exact ⟨hv, x, List.mem_cons_of_mem e hx, hborders⟩
    refine ⟨fun f hf => hk.borders h hnodup (by simp) hm (fun f hf hsees => ?_) hf, fun _ => hwithin⟩
    obtain ⟨hv, x, hx, hborders⟩ := hwithin f hf hsees
    exact ⟨hv, .body hx hborders⟩

end Composed

end Grammar

end Ebnf
