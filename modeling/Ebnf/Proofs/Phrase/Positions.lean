import Ebnf.Proofs.Machine.Ending
import Ebnf.Proofs.Phrase.Walk

/-!
# Deletable positions

Whether nothing has to be read is asked at any position of a production: up to the end of
the structure around it, or to the very end, out of all structures.  The two questions are
answered by recursions that differ only in where they stop, and that ask the first question
about the arms of each alternative on the way.  Iterations lead back to themselves, but a
position inside an iteration is left only once.

Main results:

- Theorem `Grammar.Shows.exists_passing`: from every node of a phrase the recursions come to
  an end.
- Theorem `Grammar.deletableChain_of_passing`: a recursion that comes to an end finds what is
  computed on the outline.
- Theorem `Grammar.Assembled.deletable_positions`: however a phrase is put together, deletable
  to the very end are the positions with a walk there that reads nothing, and deletable
  contents are those that are nullable by themselves.
-/

namespace Ebnf

/-- The options, iterations and arms of a phrase: the node of each, and its contents. -/
def Phrase.structures : Phrase → List (NodeId × Phrase)
  | leaf _ => []
  | seq a b => a.structures ++ b.structures
  | arm p e | opt p e | iter p e => (p, e) :: e.structures
  | alt p e r => (p, e) :: (e.structures ++ r.structures)

namespace Grammar

variable {g whole : Grammar} {pool : List Phrase} {e f : Phrase} {k r : Option NodeId} {up out b : Bool}
  {p q : NodeId} {m n fuel : Nat}

/-! ## The recursions -/

/-- Whether a node can be passed, if it is asked by `within` whether the arms of an alternative can. -/
def passingNode (g : Grammar) (within : Option NodeId → Option Bool) (p : NodeId) : Option Bool :=
  match (g.node p).kind with
  | .alt => do
    if ← within (g.node p).sub then some true
    else if (g.node p).down.isSome then within (g.node p).down
    else some false
  | .iter | .opt => some true
  | _ => some (g.leafDeletable p)

/-- Whether a chain can be passed, up to the end of the structure around it or, for `out`, to the very
end.  There is no result if this takes more than `fuel` calls inside each other. -/
def passing (g : Grammar) : Bool → Nat → Option NodeId → Option Bool
  | _, _, none => some true
  | _, 0, some _ => none
  | out, fuel + 1, some p => do
    if ← g.passingNode (fun r => g.passing false fuel r) p then
      if !out && (g.node p).leaves then some true else g.passing out fuel (g.node p).next
    else some false

/-- What is found out behind a node that can be passed. -/
def passingBehind (g : Grammar) (out : Bool) (fuel : Nat) (p : NodeId) : Option Bool :=
  if !out && (g.node p).leaves then some true else g.passing out fuel (g.node p).next

theorem passing_none : g.passing out fuel none = some true := by
  cases fuel <;> rfl

theorem passing_some : g.passing out (fuel + 1) (some p) =
    (g.passingNode (g.passing false fuel) p).bind fun here =>
      if here then g.passingBehind out fuel p else some false :=
  rfl

section Node

variable {within : Option NodeId → Option Bool}

theorem passingNode_leaf (hkind : (g.node p).kind.isLeaf = true) :
    g.passingNode within p = some (g.leafDeletable p) := by
  rw [passingNode]
  cases hk : (g.node p).kind <;> first | rfl | simp [hk, NodeKind.isLeaf] at hkind

theorem passingNode_group (hkind : (g.node p).kind = .opt ∨ (g.node p).kind = .iter) :
    g.passingNode within p = some true := by
  rw [passingNode]
  rcases hkind with hk | hk <;> simp only [hk]

theorem passingNode_alt (hkind : (g.node p).kind = .alt) :
    g.passingNode within p = (within (g.node p).sub).bind fun b =>
      if b then some true
      else if (g.node p).down.isSome then within (g.node p).down else some false := by
  rw [passingNode]
  simp only [hkind]
  rfl

end Node

/-! ## What they find -/

theorem isSome_head?_outlineWithin (fuel : Nat) (p : NodeId) :
    (g.outlineWithin (fuel + 1) (some p)).head?.isSome = true := by
  rcases (g.node p).kind.leaf_or_group_or_alt with hleaf | hgroup | halt
  · rw [outlineWithin_leaf hleaf]
    rfl
  · rw [outlineWithin_group hgroup]
    rfl
  · rw [outlineWithin_alt halt]
    rfl

/-- One more call finds whether the node can be passed, and then what is behind it. -/
theorem exists_passingNode (h : g.passing out (fuel + 1) (some p) = some b) :
    ∃ here, g.passingNode (g.passing false fuel) p = some here ∧
      (here = true ∧ g.passingBehind out fuel p = some b ∨ here = false ∧ b = false) := by
  rw [passing_some] at h
  obtain ⟨here, hnode, hbehind⟩ := Option.bind_eq_some_iff.1 h
  refine ⟨here, hnode, ?_⟩
  cases here with
  | false => exact .inr ⟨rfl, (Option.some.inj hbehind).symm⟩
  | true => exact .inl ⟨rfl, hbehind⟩

/-- A node that begins an arm is found to be passable if its arm is or one of the further arms, which
are only asked if there are any. -/
theorem passingNode_alt_eq_some {within : Option NodeId → Option Bool}
    (hkind : (g.node p).kind = .alt) (h : g.passingNode within p = some b) :
    ∃ first, within (g.node p).sub = some first ∧
      (first = true ∧ b = true ∨ first = false ∧ (g.node p).down = none ∧ b = false ∨
        first = false ∧ ∃ q, (g.node p).down = some q ∧ within (some q) = some b) := by
  rw [passingNode_alt hkind] at h
  obtain ⟨first, hfirst, hmore⟩ := Option.bind_eq_some_iff.1 h
  refine ⟨first, hfirst, ?_⟩
  cases first with
  | true => exact .inl ⟨rfl, (Option.some.inj hmore).symm⟩
  | false =>
    cases hdown : (g.node p).down with
    | none =>
      rw [hdown] at hmore
      exact .inr (.inl ⟨rfl, rfl, (Option.some.inj hmore).symm⟩)
    | some q =>
      rw [hdown] at hmore
      exact .inr (.inr ⟨rfl, q, rfl, hmore⟩)

/-- A recursion that comes to an end inside a structure finds what the outline shows. -/
theorem deletableOutline_of_passing (h : g.passing false fuel r = some b) (hfuel : fuel ≤ n) :
    g.deletableOutline (g.outlineWithin n r) = b := by
  induction fuel generalizing r b n with
  | zero =>
    cases r with
    | none => exact outlineWithin_none ▸ Option.some.inj h
    | some p => cases h
  | succ fuel ih =>
    cases r with
    | none => exact outlineWithin_none ▸ Option.some.inj h
    | some p =>
      obtain ⟨n, rfl⟩ := Nat.exists_eq_add_of_le' (Nat.le_trans (Nat.le_add_left 1 fuel) hfuel)
      have hle : fuel ≤ n := Nat.le_of_succ_le_succ hfuel
      obtain ⟨here, hnode, hbehind⟩ := exists_passingNode h
      have hrest : (here && g.deletableOutline (g.outlineBehind n p)) = b := by
        rcases hbehind with ⟨rfl, hbehind⟩ | ⟨rfl, rfl⟩
        · unfold passingBehind at hbehind
          unfold outlineBehind
          cases hleaves : (g.node p).leaves with
          | true =>
            rw [hleaves] at hbehind
            exact Option.some.inj hbehind
          | false =>
            rw [hleaves] at hbehind
            exact ih hbehind hle
        · rfl
      rw [← hrest]
      rcases (g.node p).kind.leaf_or_group_or_alt with hleaf | hgroup | halt
      · rw [passingNode_leaf hleaf] at hnode
        rw [outlineWithin_leaf hleaf, deletableOutline, Option.some.inj hnode]
      · rw [passingNode_group hgroup] at hnode
        rw [outlineWithin_group hgroup, deletableOutline, ← Option.some.inj hnode, Bool.true_and]
      · rw [outlineWithin_alt halt, deletableOutline]
        obtain ⟨first, hfirst, hmore⟩ := passingNode_alt_eq_some halt hnode
        rw [ih hfirst hle]
        rcases hmore with ⟨rfl, rfl⟩ | ⟨rfl, hdown, rfl⟩ | ⟨rfl, q, hdown, hmore⟩
        · rfl
        · rw [hdown, outlineWithin_none]
          rfl
        · cases fuel with
          | zero => cases hmore
          | succ fuel =>
            obtain ⟨n, rfl⟩ := Nat.exists_eq_add_of_le' (Nat.le_trans (Nat.le_add_left 1 fuel) hle)
            rw [hdown, isSome_head?_outlineWithin, ih hmore hle, Bool.false_or, Bool.true_and]

theorem deletableWithin_of_passing (h : g.passing false fuel r = some b)
    (hfuel : fuel ≤ g.nodes.size) : g.deletableWithin r = b :=
  deletableOutline_of_passing h hfuel

/-- A single node is found to be passable if it is deletable. -/
theorem deletableNode_of_passingNode (h : g.passingNode (g.passing false fuel) p = some b)
    (hfuel : fuel ≤ g.nodes.size) : g.deletableNode p = b := by
  by_cases halt : (g.node p).kind = .alt
  · obtain ⟨first, hfirst, hmore⟩ := passingNode_alt_eq_some halt h
    simp only [deletableNode, halt, deletableWithin_of_passing hfirst hfuel]
    rcases hmore with ⟨rfl, rfl⟩ | ⟨rfl, hdown, rfl⟩ | ⟨rfl, q, hdown, hmore⟩
    · rfl
    · rw [hdown]
      rfl
    · rw [hdown]
      exact deletableWithin_of_passing hmore hfuel
  · unfold passingNode at h
    unfold deletableNode
    cases hkind : (g.node p).kind <;> simp only [hkind] at h ⊢ <;>
      first | exact absurd hkind halt | exact Option.some.inj h

/-- A recursion that comes to an end at the very end finds what is found along the successors. -/
theorem deletableAlong_of_passing (h : g.passing true fuel r = some b) (hfuel : fuel ≤ g.nodes.size)
    (hn : fuel ≤ n) : g.deletableAlong n r = b := by
  induction fuel generalizing r b n with
  | zero =>
    cases r with
    | none => cases n <;> exact Option.some.inj h
    | some p => cases h
  | succ fuel ih =>
    cases r with
    | none => cases n <;> exact Option.some.inj h
    | some p =>
      obtain ⟨n, rfl⟩ := Nat.exists_eq_add_of_le' (Nat.le_trans (Nat.le_add_left 1 fuel) hn)
      obtain ⟨here, hnode, hbehind⟩ := exists_passingNode h
      rw [deletableAlong, deletableNode_of_passingNode hnode (Nat.le_of_succ_le hfuel)]
      rcases hbehind with ⟨rfl, hbehind⟩ | ⟨rfl, rfl⟩
      · exact ih hbehind (Nat.le_of_succ_le hfuel) (Nat.le_of_succ_le_succ hn)
      · rfl

theorem deletableChain_of_passing (h : g.passing true fuel r = some b)
    (hfuel : fuel ≤ g.nodes.size) : g.deletableChain r = b :=
  deletableAlong_of_passing h hfuel hfuel

/-! ## That they come to an end -/

/-- Behind a phrase nothing is asked, or the recursion comes to an end there. -/
def EndsBehind (g : Grammar) (out : Bool) (m : Nat) (k : Option NodeId) (up : Bool) : Prop :=
  out = false ∧ up = true ∨ ∃ b, HaltsWith (fun fuel => g.passing out fuel k) m b

theorem Holds.exists_passingBehind {kind : NodeKind} {sub down : Option NodeId}
    (h : g.Holds p kind sub down k up) (hk : g.EndsBehind out m k up) :
    ∃ b, HaltsWith (fun fuel => g.passingBehind out fuel p) m b := by
  unfold passingBehind
  rw [h.leaves_eq, h.next_eq]
  rcases hk with ⟨rfl, rfl⟩ | ⟨b, hhalts⟩
  · exact ⟨true, fun _ _ => rfl⟩
  · split
    · exact ⟨true, fun _ _ => rfl⟩
    · exact ⟨b, hhalts⟩

/-- From a node the recursion comes to an end if it does so inside the node and behind it. -/
theorem Holds.exists_passing {kind : NodeKind} {sub down : Option NodeId}
    (h : g.Holds p kind sub down k up) (hk : g.EndsBehind out m k up) {here : Bool}
    (hnode : HaltsWith (fun fuel => g.passingNode (g.passing false fuel) p) n here) :
    ∃ b, HaltsWith (fun fuel => g.passing out fuel (some p)) (max m n + 1) b := by
  obtain ⟨b, hbehind⟩ := h.exists_passingBehind hk
  have hrun : HaltsWith (fun fuel => (g.passingNode (g.passing false fuel) p).bind fun here =>
      if here then g.passingBehind out fuel p else some false) (max m n)
      (if here then b else false) := by
    intro fuel hfuel
    simp only [hnode fuel (Nat.le_trans (Nat.le_max_right m n) hfuel), Option.bind_some]
    cases here with
    | false => rfl
    | true => exact hbehind fuel (Nat.le_trans (Nat.le_max_left m n) hfuel)
  exact ⟨_, hrun.succ fun _ => passing_some⟩

/-- Nothing is asked behind contents up to their end. -/
theorem endsBehind_contents : g.EndsBehind false 0 k true :=
  .inl ⟨rfl, rfl⟩

theorem EndsBehind.leave (hk : g.EndsBehind out m k up) : g.EndsBehind out m k true :=
  hk.imp_left fun hleave => ⟨hleave.1, rfl⟩

/-- From the node of an option or iteration the recursion does not go into its contents. -/
theorem Holds.exists_passing_group {kind : NodeKind} {sub down : Option NodeId}
    (h : g.Holds p kind sub down k up) (hkind : kind = .opt ∨ kind = .iter)
    (hk : g.EndsBehind out m k up) :
    ∃ b, HaltsWith (fun fuel => g.passing out fuel (some p)) (m + 1) b := by
  rw [← Nat.max_zero m]
  exact h.exists_passing hk fun _ _ => passingNode_group (by rwa [h.kind_eq])

/-- From every node of a phrase the recursions come to an end, if they do so behind the phrase. -/
theorem Shows.exists_passing (h : g.Shows e k up) (hk : g.EndsBehind out m k up) (hp : p ∈ e.nodes) :
    ∃ n b, n ≤ m + e.nodes.length ∧ HaltsWith (fun fuel => g.passing out fuel (some p)) n b := by
  induction e generalizing k up out m p with
  | leaf q =>
    obtain rfl := List.mem_singleton.1 hp
    obtain ⟨b, hhalts⟩ := h.2.exists_passing hk (n := 0) fun _ _ => passingNode_leaf h.1
    exact ⟨_, b, by simp [Phrase.nodes], hhalts⟩
  | seq a c iha ihc =>
    rw [Phrase.nodes, List.length_append]
    rcases List.mem_append.1 hp with hp | hp
    · obtain ⟨n, b, hn, hbehind⟩ := ihc h.2 hk c.entry_mem_nodes
      obtain ⟨n', b', hn', hhalts⟩ := iha h.1 (.inr ⟨b, hbehind⟩) hp
      exact ⟨n', b', by omega, hhalts⟩
    · obtain ⟨n, b, hn, hhalts⟩ := ihc h.2 hk hp
      exact ⟨n, b, by omega, hhalts⟩
  | arm q f ih =>
    rw [Phrase.nodes, List.length_cons]
    rcases List.mem_cons.1 hp with rfl | hp
    · obtain ⟨n, b, hn, hbody⟩ := ih h.2 endsBehind_contents f.entry_mem_nodes
      have hnode : HaltsWith (fun fuel => g.passingNode (g.passing false fuel) p) n b := by
        intro fuel hfuel
        simp only [passingNode_alt h.1.kind_eq, h.1.sub_eq, h.1.down_eq, hbody fuel hfuel,
          Option.bind_some]
        cases b <;> rfl
      obtain ⟨b', hhalts⟩ := h.1.exists_passing hk hnode
      exact ⟨_, b', by omega, hhalts⟩
    · obtain ⟨n, b, hn, hhalts⟩ := ih h.2 hk.leave hp
      exact ⟨n, b, by omega, hhalts⟩
  | alt q f r ihf ihr =>
    rw [Phrase.nodes, List.length_cons, List.length_append]
    rcases List.mem_cons.1 hp with rfl | hp
    · obtain ⟨n, b, hn, hbody⟩ := ihf h.2.2.1 endsBehind_contents f.entry_mem_nodes
      obtain ⟨n', b', hn', hmore⟩ := ihr h.2.2.2 endsBehind_contents r.entry_mem_nodes
      have hnode : HaltsWith (fun fuel => g.passingNode (g.passing false fuel) p) (n + n')
          (b || b') := by
        intro fuel hfuel
        simp only [passingNode_alt h.2.1.kind_eq, h.2.1.sub_eq, h.2.1.down_eq,
          hbody fuel (by omega), hmore fuel (by omega), Option.bind_some]
        cases b <;> rfl
      obtain ⟨b'', hhalts⟩ := h.2.1.exists_passing hk hnode
      exact ⟨_, b'', by omega, hhalts⟩
    · rcases List.mem_append.1 hp with hp | hp
      · obtain ⟨n, b, hn, hhalts⟩ := ihf h.2.2.1 hk.leave hp
        exact ⟨n, b, by omega, hhalts⟩
      · obtain ⟨n, b, hn, hhalts⟩ := ihr h.2.2.2 hk.leave hp
        exact ⟨n, b, by omega, hhalts⟩
  | opt q f ih =>
    rw [Phrase.nodes, List.length_cons]
    rcases List.mem_cons.1 hp with rfl | hp
    · obtain ⟨b, hhalts⟩ := h.1.exists_passing_group (.inl rfl) hk
      exact ⟨_, b, by omega, hhalts⟩
    · obtain ⟨n, b, hn, hhalts⟩ := ih h.2 hk.leave hp
      exact ⟨n, b, by omega, hhalts⟩
  | iter q f ih =>
    rw [Phrase.nodes, List.length_cons]
    -- what follows the body is the iteration itself, and from there one goes on behind it
    have hround : ∃ b, HaltsWith (fun fuel => g.passing out fuel (some q)) (m + 1) b :=
      h.1.exists_passing_group (.inr rfl) hk
    rcases List.mem_cons.1 hp with rfl | hp
    · obtain ⟨b, hhalts⟩ := hround
      exact ⟨_, b, by omega, hhalts⟩
    · obtain ⟨n, b, hn, hhalts⟩ := ih h.2 (.inr hround) hp
      exact ⟨n, b, by omega, hhalts⟩

/-! ## Contents of structures -/

/-- Every node with contents has a structure. -/
theorem Shows.exists_structure (h : g.Shows e k up) (hp : p ∈ e.nodes)
    (hkind : (g.node p).kind.isLeaf = false) : ∃ body, (p, body) ∈ e.structures := by
  induction e generalizing k up with
  | leaf q =>
    obtain rfl := List.mem_singleton.1 hp
    rw [h.1] at hkind
    cases hkind
  | seq a b iha ihb =>
    rcases List.mem_append.1 hp with hp | hp
    · obtain ⟨body, hbody⟩ := iha h.1 hp
      exact ⟨body, List.mem_append_left _ hbody⟩
    · obtain ⟨body, hbody⟩ := ihb h.2 hp
      exact ⟨body, List.mem_append_right _ hbody⟩
  | arm q f ih | opt q f ih | iter q f ih =>
    rcases List.mem_cons.1 hp with rfl | hp
    · exact ⟨f, List.mem_cons_self⟩
    · obtain ⟨body, hbody⟩ := ih h.2 hp
      exact ⟨body, List.mem_cons_of_mem _ hbody⟩
  | alt q f r ihf ihr =>
    rcases List.mem_cons.1 hp with rfl | hp
    · exact ⟨f, List.mem_cons_self⟩
    · rcases List.mem_append.1 hp with hp | hp
      · obtain ⟨body, hbody⟩ := ihf h.2.2.1 hp
        exact ⟨body, List.mem_cons_of_mem _ (List.mem_append_left _ hbody)⟩
      · obtain ⟨body, hbody⟩ := ihr h.2.2.2 hp
        exact ⟨body, List.mem_cons_of_mem _ (List.mem_append_right _ hbody)⟩

/-- The contents of a structure are a phrase whose ends leave it. -/
theorem Shows.of_mem_structures (h : g.Shows e k up) (hnodup : e.nodes.Nodup)
    (hf : (p, f) ∈ e.structures) :
    (g.node p).sub = some f.entry ∧ f.nodes.Nodup ∧ ∃ k, g.Shows f k true := by
  induction e generalizing k up with
  | leaf q => cases hf
  | seq a b iha ihb =>
    obtain ⟨ha, hb, _⟩ := List.nodup_append'.1 hnodup
    rcases List.mem_append.1 hf with hf | hf
    · exact iha h.1 ha hf
    · exact ihb h.2 hb hf
  | arm q d ih | opt q d ih | iter q d ih =>
    obtain ⟨_, hd⟩ := List.nodup_cons.1 hnodup
    rcases List.mem_cons.1 hf with heq | hf
    · obtain ⟨rfl, rfl⟩ := Prod.mk.inj heq
      exact ⟨h.1.sub_eq, hd, _, h.2⟩
    · exact ih h.2 hd hf
  | alt q d r ihd ihr =>
    obtain ⟨hd, hr, _⟩ := List.nodup_append'.1 (List.nodup_cons.1 hnodup).2
    rcases List.mem_cons.1 hf with heq | hf
    · obtain ⟨rfl, rfl⟩ := Prod.mk.inj heq
      exact ⟨h.2.1.sub_eq, hd, _, h.2.2.1⟩
    · rcases List.mem_append.1 hf with hf | hf
      · exact ihd h.2.2.1 hd hf
      · exact ihr h.2.2.2 hr hf

/-! ## What is deletable -/

/-- The node has no contents and nothing is read there. -/
def ReadsNothing (g : Grammar) (p : NodeId) : Prop :=
  (∃ s, (g.node p).kind = .nonterminal s ∧ (g.sym s).deletable = true) ∨
    (g.node p).kind ∈ [NodeKind.eps, .sync, .action, .resolver]

theorem leafDeletable_iff_readsNothing : g.leafDeletable p = true ↔ g.ReadsNothing p := by
  unfold leafDeletable ReadsNothing
  cases (g.node p).kind <;> simp

/-- However a phrase is put together and closed, and whichever nonterminals are flagged: from each of
its nodes the recursions come to an end, a node is deletable to the very end if some walk there reads
nothing, and the contents of an option, iteration or arm are deletable if they are nullable by
themselves. -/
theorem Assembled.deletable_positions (h : Assembled g (e :: pool))
    (hwhole : whole.nodes = (g.close e.fragment).nodes) :
    (∀ p ∈ e.nodes,
        HaltsWith (fun fuel => whole.passing true fuel (some p)) e.nodes.length
          (whole.deletableChain (some p)) ∧
        HaltsWith (fun fuel => whole.passing false fuel (some p)) e.nodes.length
          (whole.deletableWithin (some p)) ∧
        (whole.deletableChain (some p) = true ↔
          ∃ ps, whole.Walks (some p) ps ∧ ∀ q ∈ ps, whole.ReadsNothing q)) ∧
      (∀ p ∈ e.nodes, (whole.node p).kind.isLeaf = false → ∃ body, (p, body) ∈ e.structures) ∧
      ∀ p body, (p, body) ∈ e.structures →
        (whole.node p).sub = some body.entry ∧
          (whole.deletableWithin (whole.node p).sub = true ↔
            ∃ ps ∈ body.regex.matches', ∀ q ∈ ps, whole.ReadsNothing q) := by
  have hnodup : e.nodes.Nodup := h.toPool.nodup e List.mem_cons_self
  have hshows : whole.Shows e none false :=
    h.shows_close.congr (Nat.le_of_eq (by rw [hwhole])) fun p _ => by rw [node, hwhole, node]
  have hroom : e.nodes.length ≤ whole.nodes.size := hshows.length_nodes_le hnodup
  have hhalts : ∀ out, ∀ p ∈ e.nodes, ∃ n b, n ≤ e.nodes.length ∧
      HaltsWith (fun fuel => whole.passing out fuel (some p)) n b := by
    intro out p hp
    have hend : whole.EndsBehind out 0 none false := .inr ⟨true, fun _ _ => passing_none⟩
    obtain ⟨n, b, hn, hrun⟩ := hshows.exists_passing hend hp
    exact ⟨n, b, by omega, hrun⟩
  refine ⟨fun p hp => ⟨?_, ?_, ?_⟩, fun p hp => hshows.exists_structure hp, fun p body hbody => ?_⟩
  · obtain ⟨n, b, hn, hrun⟩ := hhalts true p hp
    rw [deletableChain_of_passing (hrun n (Nat.le_refl n)) (Nat.le_trans hn hroom)]
    exact fun fuel hfuel => hrun fuel (Nat.le_trans hn hfuel)
  · obtain ⟨n, b, hn, hrun⟩ := hhalts false p hp
    rw [deletableWithin_of_passing (hrun n (Nat.le_refl n)) (Nat.le_trans hn hroom)]
    exact fun fuel hfuel => hrun fuel (Nat.le_trans hn hfuel)
  · rw [deletableChain_iff_skips hshows hnodup hp]
    simp only [Skips, leafDeletable_iff_readsNothing]
  · obtain ⟨hsub, hnodup', k, hbody'⟩ := hshows.of_mem_structures hnodup hbody
    refine ⟨hsub, ?_⟩
    rw [hsub, deletableWithin_entry hbody' hnodup', Phrase.nullable_iff, Phrase.matches'_regex]
    simp only [leafDeletable_iff_readsNothing]

/-- The phrase `{ a | [ B ] }`, closed, with `B` flagged as deletable. -/
def flagged : Grammar :=
  let b : Symbol := { kind := .nonterminal, name := "B", number := 0, line := 1, deletable := true }
  { looped.close loopedPhrase.fragment with symbols := #[default, default, b] }

/-- In `{ a | [ B ] }`, where `B` is flagged, the way out begins at `B` and not at `a`, and what is
inside the iteration can be passed while the first arm cannot. -/
theorem Assembled.deletable_positions_looped :
    Assembled looped [loopedPhrase] ∧
      HaltsWith (fun fuel => flagged.passing true fuel (some 2)) 6 true ∧
      HaltsWith (fun fuel => flagged.passing true fuel (some 0)) 6 false ∧
      (∃ ps, flagged.Walks (some 2) ps ∧ ∀ q ∈ ps, flagged.ReadsNothing q) ∧
      (flagged.node 5).sub = some 1 ∧ (flagged.node 1).sub = some 0 ∧
      ¬ ∃ ps ∈ (Phrase.leaf 0).regex.matches', ∀ q ∈ ps, flagged.ReadsNothing q := by
  have hnodes : flagged.nodes = (looped.close loopedPhrase.fragment).nodes := rfl
  obtain ⟨hends, _, hcontents⟩ := assembled_looped.deletable_positions hnodes
  obtain ⟨houtB, _, hwalks⟩ := hends 2 (by decide)
  obtain ⟨houta, _, _⟩ := hends 0 (by decide)
  obtain ⟨hsub, hbody⟩ := hcontents 1 (.leaf 0) (by decide)
  have hB : flagged.deletableChain (some 2) = true := by decide +kernel
  have ha : flagged.deletableChain (some 0) = false := by decide +kernel
  have harm : ¬ flagged.deletableWithin (flagged.node 1).sub = true := by decide +kernel
  refine ⟨assembled_looped, ?_, ?_, hwalks.1 hB, ?_, hsub, fun hread => harm (hbody.2 hread)⟩
  · rw [← hB]
    exact houtB
  · rw [← ha]
    exact houta
  · exact (hcontents 5 (.alt 1 (.leaf 0) (.arm 4 (.opt 3 (.leaf 2)))) (by decide)).1

end Grammar

end Ebnf
