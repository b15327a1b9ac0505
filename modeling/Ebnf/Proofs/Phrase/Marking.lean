import Ebnf.Proofs.Analysis.Follow
import Ebnf.Proofs.Machine.Ending
import Ebnf.Proofs.Phrase.Context

/-!
# Marking a context is exact

The characters of a context are marked along the nodes that are seen from its first one.
Marking may as well go from node to node and remember nothing: into the contents of a
structure, then on behind it, and back where a node leaves its structure.  Iterations lead
back to themselves, but only from nodes that leave them, so this comes to an end, and
nothing outside the phrase is met.

Main results:

- Theorem `Grammar.markFrom_unfolded`: marking from node to node comes to an end and marks
  what is seen.
- Theorem `Grammar.Shows.mem_nodesWithin_iff`: from the first node of a phrase that nothing
  follows one sees its nodes and no others.
- Theorem `Grammar.Assembled.marks_context`: before and after it is closed, exactly the
  characters of a phrase are marked, and nothing else is changed.
-/

namespace Ebnf

namespace Grammar

variable {g whole : Grammar} {pool : List Phrase} {e : Phrase} {up : Bool}
  {p q : NodeId} {r : Option NodeId} {fuel : Nat} {ps qs : List NodeId}

/-! ## From node to node -/

/-- Marks the characters of a chain and of all its contents up to the end of the structure, without
remembering where it has been.  There is no result if this takes more than `fuel` calls inside each
other. -/
def markFrom : Nat → Option NodeId → Grammar → Option Grammar
  | _, none, g => some g
  | 0, some _, _ => none
  | fuel + 1, some p, g => do
    let n := g.node p
    let g := g.modifyNode p fun n => { n with kind := n.kind.toContext }
    let g ← match n.kind with
      | .alt => do
        let g ← markFrom fuel n.sub g
        markFrom fuel n.down g
      | .iter | .opt => markFrom fuel n.sub g
      | _ => some g
    if (g.node p).leaves then some g else markFrom fuel (g.node p).next g

/-- What is marked behind a node. -/
def markBehind (fuel : Nat) (p : NodeId) (g : Grammar) : Option Grammar :=
  if (g.node p).leaves then some g else markFrom fuel (g.node p).next g

theorem markFrom_none : markFrom fuel none g = some g := by
  cases fuel <;> rfl

theorem markFrom_leaf (hkind : (g.node p).kind.isLeaf = true) :
    markFrom (fuel + 1) (some p) g = markBehind fuel p (g.markAll [p]) := by
  rw [markFrom]
  cases hk : (g.node p).kind <;> first | rfl | simp [hk, NodeKind.isLeaf] at hkind

theorem markFrom_group (hkind : (g.node p).kind = .opt ∨ (g.node p).kind = .iter) :
    markFrom (fuel + 1) (some p) g =
      (markFrom fuel (g.node p).sub (g.markAll [p])).bind (markBehind fuel p) := by
  rw [markFrom]
  rcases hkind with hk | hk <;> simp only [hk] <;> rfl

theorem markFrom_alt (hkind : (g.node p).kind = .alt) :
    markFrom (fuel + 1) (some p) g =
      (markFrom fuel (g.node p).sub (g.markAll [p])).bind fun g' =>
        (markFrom fuel (g.node p).down g').bind (markBehind fuel p) := by
  rw [markFrom]
  simp only [hkind]
  rfl

theorem markAll_append : g.markAll (ps ++ qs) = (g.markAll ps).markAll qs :=
  List.foldl_append

/-- Where all is seen to its end, marking comes to an end too, and all that is seen is marked, whatever
was marked before. -/
theorem markFrom_unfolded (h : g.Unfolded fuel r) (ps : List NodeId) :
    markFrom fuel r (g.markAll ps) = some (g.markAll (ps ++ (g.outlineWithin fuel r).nodes)) := by
  induction fuel generalizing r ps with
  | zero =>
    cases r with
    | none => simp [markFrom_none, outlineWithin_none, Outline.nodes]
    | some p => obtain ⟨n, hn, _⟩ := h.step; cases hn
  | succ fuel ih =>
    cases r with
    | none => simp [markFrom_none, outlineWithin_none, Outline.nodes]
    | some p =>
      obtain ⟨_, heq, hsub, hdown, hnext⟩ := h.step
      cases heq
      have hbehind : ∀ qs, markBehind fuel p (g.markAll qs) =
          some (g.markAll (qs ++ (g.outlineBehind fuel p).nodes)) := by
        intro qs
        unfold markBehind outlineBehind
        rw [leaves_markAll, next_markAll]
        cases hleaves : (g.node p).leaves with
        | true => simp [Outline.nodes]
        | false => exact ih (hnext hleaves) qs
      rcases (g.node p).kind.leaf_or_group_or_alt with hleaf | hgroup | halt
      · rw [markFrom_leaf (isLeaf_markAll.trans hleaf), ← markAll_append, hbehind,
          outlineWithin_leaf hleaf]
        simp [Outline.nodes]
      · have hgroup' : ((g.markAll ps).node p).kind = .opt ∨ ((g.markAll ps).node p).kind = .iter :=
          hgroup.imp (kind_markAll_of_eq · rfl) (kind_markAll_of_eq · rfl)
        rw [markFrom_group hgroup', sub_markAll, ← markAll_append,
          ih (hsub (NodeKind.isLeaf_of_group hgroup)), Option.bind_some, hbehind,
          outlineWithin_group hgroup]
        simp [Outline.nodes]
      · have hfalse : (g.node p).kind.isLeaf = false := by rw [halt]; rfl
        rw [markFrom_alt (kind_markAll_of_eq halt rfl), sub_markAll, down_markAll, ← markAll_append,
          ih (hsub hfalse), Option.bind_some, ih (hdown halt), Option.bind_some, hbehind,
          outlineWithin_alt halt]
        simp [Outline.nodes]

/-! ## What is marked -/

/-- Marking changes nodes only. -/
theorem markAll_eq_nodes : g.markAll ps = { g with nodes := (g.markAll ps).nodes } := by
  unfold markAll
  induction ps generalizing g with
  | nil => rfl
  | cons p ps ih => exact ih

/-- The nodes that are marked change their kind, and nothing else is changed. -/
theorem markAll_eq : g.markAll ps = { g with nodes := g.nodes.mapIdx fun p n =>
    if p ∈ ps then { n with kind := n.kind.toContext } else n } := by
  have hnodes : (g.markAll ps).nodes = g.nodes.mapIdx fun p n =>
      if p ∈ ps then { n with kind := n.kind.toContext } else n := by
    refine Array.ext (by simp [size_markAll]) fun q hq hq' => ?_
    have hlt : q < g.nodes.size := by rwa [size_markAll] at hq
    have hnode := @node_markAll g q ps
    simp only [node, Array.getD_eq_getD_getElem?, Array.getElem?_eq_getElem hq,
      Array.getElem?_eq_getElem hlt, Option.getD_some, hlt, and_true] at hnode
    rw [hnode, Array.getElem_mapIdx]
  rw [markAll_eq_nodes, hnodes]

/-- From the first node of a phrase that nothing follows one sees its nodes and no others. -/
theorem Shows.mem_nodesWithin_iff (h : g.Shows e none up) :
    p ∈ g.nodesWithin (some e.entry) ↔ p ∈ e.nodes := by
  refine ⟨fun hp => ?_, h.mem_nodesWithin p⟩
  exact h.mem_of_reached ((mem_explore.1 hp).mono fun _ _ => mem_edges_of_mem_innerEdges)

theorem Shows.markContext_eq (h : g.Shows e none up) :
    g.markContext (some e.entry) = g.markAll e.nodes := by
  show g.markAll (g.nodesWithin (some e.entry)) = _
  rw [markAll_eq, markAll_eq]
  simp only [h.mem_nodesWithin_iff]

/-- Marking the context from the first node of a phrase, before or after the phrase is closed, comes to
an end without remembering nodes.  The characters and classes of the phrase are required behind the
token then, and nothing else is changed. -/
theorem Assembled.marks_context (h : Assembled g pool) (he : e ∈ pool)
    (hwhole : whole = g ∨ whole = g.close e.fragment) :
    HaltsWith (fun fuel => markFrom fuel (some e.fragment.entry) whole) e.nodes.length
        (whole.markContext (some e.fragment.entry)) ∧
      whole.markContext (some e.fragment.entry) =
        { whole with nodes := whole.nodes.mapIdx fun p n =>
            if p ∈ e.nodes then { n with kind := n.kind.toContext } else n } := by
  have hshows : whole.Shows e none false := by
    rcases hwhole with rfl | rfl
    · exact h.toPool.shows_of_mem e he
    · exact (h.close he).toPool.shows_of_mem e he
  refine ⟨fun fuel hfuel => ?_, hshows.markContext_eq.trans markAll_eq⟩
  have hmarks : markFrom fuel (some e.entry) whole = _ :=
    markFrom_unfolded (unfolded_closed hshows (.inr rfl) hfuel) []
  rw [outlineWithin_closed hshows (.inr rfl) hfuel, Phrase.nodes_outline] at hmarks
  show markFrom fuel (some e.entry) whole = some (whole.markContext (some e.entry))
  rw [hshows.markContext_eq]
  simpa [Outline.nodes] using hmarks

/-- The nodes of `x` and, apart from it, of `{ a | { B } }`, where `B` is a class. -/
def requiring : Grammar :=
  let (_, g) := initial.addLeaf { kind := .char 120 .main, line := 1 }
  let (a, g) := g.addLeaf { kind := .char 97 .main, line := 1 }
  let (arms, g) := g.firstArm a
  let (b, g) := g.addLeaf { kind := .cls 0 .main, line := 1 }
  let (round, g) := g.iteration b
  let (arms, g) := g.addArm arms round
  (g.iteration arms).2

/-- The phrase `{ a | { B } }`. -/
def requiringPhrase : Phrase :=
  .iter 6 (.alt 2 (.leaf 1) (.arm 5 (.iter 4 (.leaf 3))))

theorem assembled_requiring : Assembled requiring [requiringPhrase, .leaf 0] := by
  have hchar : ∀ c, (NodeKind.char c .main).isLeaf = true := fun _ => rfl
  have hcls : (NodeKind.cls 0 .main).isLeaf = true := rfl
  have houtside := (Assembled.start .initial).leaf (hchar 120) 1 none
  have harm := (houtside.leaf (hchar 97) 1 none).firstArm
  have hround := (harm.leaf hcls 1 none).iteration
  exact ((hround.perm (.swap _ _ _)).addArm rfl).iteration

/-- In `{ a | { B } }` the character `a` and the class `B` are marked, and the `x` outside is not. -/
theorem Assembled.marks_context_requiring :
    Assembled requiring [requiringPhrase, .leaf 0] ∧
      HaltsWith (fun fuel => markFrom fuel (some 6) requiring) 6
        (requiring.markContext (some 6)) ∧
      (requiring.markContext (some 6)).nodes.toList.map (·.kind) =
        [.char 120 .main, .char 97 .context, .alt, .cls 0 .context, .iter, .alt, .iter] := by
  obtain ⟨hhalts, heq⟩ := assembled_requiring.marks_context List.mem_cons_self (.inl rfl)
  refine ⟨assembled_requiring, hhalts, ?_⟩
  exact (congrArg (fun g : Grammar => g.nodes.toList.map (·.kind)) heq).trans rfl

end Grammar

end Ebnf
