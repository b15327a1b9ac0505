import Ebnf.Proofs.Phrase.Basic

/-!
# Putting phrases together

Productions and token structures are put together step by step: leaves are
added, and fragments that are ready become parts of larger ones.  At any time
there is a pool of fragments that are not yet part of another one.  Each of them
is a phrase that the grammar shows, and no two share a node.

Main results:

- Theorem `Grammar.Assembled.toPool`: every way of putting fragments together
  gives phrases that the grammar shows.
- Theorem `Grammar.Assembled.shows_close`: a closed phrase is followed by nothing.
-/

namespace Ebnf

namespace Grammar

variable {g g' : Grammar} {pool : List Phrase} {e : Phrase} {k : Option NodeId}

/-- The pools of phrases that arise when nodes are added and fragments are put together, each of
them once. -/
inductive Assembled : Grammar → List Phrase → Prop
  | start (g : Grammar) : Assembled g []
  | leaf {g : Grammar} {pool : List Phrase} (h : Assembled g pool) {kind : NodeKind}
      (hkind : kind.isLeaf = true) (line : Nat) (pos : Option Position) :
      Assembled (g.addLeaf { kind, line, pos }).2 (.leaf g.nodes.size :: pool)
  /-- a text that is not empty -/
  | text {g : Grammar} {pool : List Phrase} (h : Assembled g pool) (quoted : String) (line : Nat)
      {c : Char} {cs : List Char} (htext : (g.readQuoted quoted).1.toList = c :: cs) :
      Assembled (g.addString quoted line).2 (.chain g.nodes.size cs.length :: pool)
  | sequence {g : Grammar} {pool : List Phrase} {a b : Phrase} (h : Assembled g (a :: b :: pool)) :
      Assembled (g.sequence a.fragment b.fragment).2 (.seq a b :: pool)
  | firstArm {g : Grammar} {pool : List Phrase} {e : Phrase} (h : Assembled g (e :: pool)) :
      Assembled (g.firstArm e.fragment).2 (.arm g.nodes.size e :: pool)
  | addArm {g : Grammar} {pool : List Phrase} {a e : Phrase} (h : Assembled g (a :: e :: pool))
      (harms : a.isArms = true) :
      Assembled (g.addArm a.fragment e.fragment).2 (a.snoc g.nodes.size e :: pool)
  | option {g : Grammar} {pool : List Phrase} {e : Phrase} (h : Assembled g (e :: pool)) :
      Assembled (g.option e.fragment).2 (.opt g.nodes.size e :: pool)
  | iteration {g : Grammar} {pool : List Phrase} {e : Phrase} (h : Assembled g (e :: pool)) :
      Assembled (g.iteration e.fragment).2 (.iter g.nodes.size e :: pool)
  /-- the order of the pool does not matter -/
  | perm {g : Grammar} {pool pool' : List Phrase} (h : Assembled g pool)
      (hperm : pool.Perm pool') : Assembled g pool'
  /-- a phrase may be left alone from now on -/
  | drop {g : Grammar} {pool : List Phrase} {e : Phrase} (h : Assembled g (e :: pool)) :
      Assembled g pool
  /-- anything else may be declared in between, as long as it leaves the nodes of the pool alone -/
  | declare {g g' : Grammar} {pool : List Phrase} (h : Assembled g pool)
      (hsize : g.nodes.size ≤ g'.nodes.size)
      (hnodes : ∀ e ∈ pool, ∀ p ∈ e.nodes, (g'.node p).links = (g.node p).links ∧
        (g'.node p).state = (g.node p).state) : Assembled g' pool

/-- The phrases of a pool are shown, their nodes have no states, and no node occurs twice. -/
structure Pool (g : Grammar) (pool : List Phrase) : Prop where
  shows_of_mem : ∀ e ∈ pool, g.Shows e none false
  state_eq : ∀ e ∈ pool, ∀ p ∈ e.nodes, (g.node p).state = none
  nodup : ∀ e ∈ pool, e.nodes.Nodup
  disjoint : pool.Pairwise fun a b => a.nodes.Disjoint b.nodes

namespace Pool

theorem lt_size (h : g.Pool pool) (he : e ∈ pool) {p : NodeId} (hp : p ∈ e.nodes) :
    p < g.nodes.size :=
  (h.shows_of_mem e he).lt_size hp

/-- A pool stays one when its nodes keep their links and states. -/
theorem congr (h : g.Pool pool) (hsize : g.nodes.size ≤ g'.nodes.size)
    (hnodes : ∀ e ∈ pool, ∀ p ∈ e.nodes, (g'.node p).links = (g.node p).links ∧
      (g'.node p).state = (g.node p).state) : g'.Pool pool where
  shows_of_mem e he := (h.shows_of_mem e he).congr hsize fun p hp => (hnodes e he p hp).1
  state_eq e he p hp := (hnodes e he p hp).2.trans (h.state_eq e he p hp)
  nodup := h.nodup
  disjoint := h.disjoint

theorem perm {pool' : List Phrase} (h : g.Pool pool) (hperm : pool.Perm pool') : g.Pool pool' where
  shows_of_mem e he := h.shows_of_mem e (hperm.mem_iff.2 he)
  state_eq e he := h.state_eq e (hperm.mem_iff.2 he)
  nodup e he := h.nodup e (hperm.mem_iff.2 he)
  disjoint := h.disjoint.perm hperm fun {_ _} hab => List.disjoint_symm hab

theorem tail (h : g.Pool (e :: pool)) : g.Pool pool where
  shows_of_mem f hf := h.shows_of_mem f (List.mem_cons_of_mem e hf)
  state_eq f hf := h.state_eq f (List.mem_cons_of_mem e hf)
  nodup f hf := h.nodup f (List.mem_cons_of_mem e hf)
  disjoint := (List.pairwise_cons.1 h.disjoint).2

end Pool

/-! ## Further arms -/

theorem lastArm_entry {up : Bool} {fuel : Nat} (harms : e.isArms = true) (h : g.Shows e k up)
    (hfuel : e.nodes.length ≤ fuel) : g.lastArm fuel e.entry = e.last := by
  induction e generalizing fuel up with
  | leaf | seq | opt | iter => cases harms
  | arm p e =>
    cases fuel with
    | zero => simp [Phrase.nodes] at hfuel
    | succ fuel =>
      rw [lastArm, Phrase.entry, h.1.down_eq]
      rfl
  | alt p e r _ ihr =>
    cases fuel with
    | zero => simp [Phrase.nodes] at hfuel
    | succ fuel =>
      simp only [Phrase.nodes, List.length_cons, List.length_append] at hfuel
      rw [lastArm, Phrase.entry, h.2.1.down_eq]
      exact ihr h.1 h.2.2.2 (by omega)

/-- The last arm of an alternative gets a further one behind it. -/
theorem Shows.snoc {up : Bool} {q : NodeId} {f : Phrase} (harms : e.isArms = true)
    (h : g.Shows e k up) (hnodup : e.nodes.Nodup) (hsize : g.nodes.size ≤ g'.nodes.size)
    (hlast : (g'.node e.last).links = ((g.node e.last).kind, (g.node e.last).sub, some q,
      (g.node e.last).next, (g.node e.last).leaves))
    (hother : ∀ p ∈ e.nodes, p ≠ e.last → (g'.node p).links = (g.node p).links)
    (hnew : g'.Shows (.arm q f) k true) : g'.Shows (e.snoc q f) k up := by
  induction e generalizing up with
  | leaf | seq | opt | iter => cases harms
  | arm p e =>
    obtain ⟨hp, _⟩ := List.nodup_cons.1 hnodup
    refine ⟨rfl, ⟨Nat.lt_of_lt_of_le h.1.1 hsize, ?_⟩, h.2.congr hsize fun x hx => ?_, hnew⟩
    · refine hlast.trans ?_
      simp only [Phrase.last, Phrase.entry, h.1.kind_eq, h.1.sub_eq, h.1.next_eq, h.1.leaves_eq]
    · refine hother x (List.mem_cons_of_mem p hx) fun heq => hp ?_
      rwa [← show x = p from heq]
  | alt p e r _ ihr =>
    obtain ⟨hp, her⟩ := List.nodup_cons.1 hnodup
    obtain ⟨_, hr, hdisjoint⟩ := List.nodup_append'.1 her
    have hmem : r.last ∈ r.nodes := r.last_mem_nodes
    refine ⟨Phrase.isArms_snoc h.1, ⟨Nat.lt_of_lt_of_le h.2.1.1 hsize, ?_⟩,
      h.2.2.1.congr hsize fun x hx => ?_, ?_⟩
    · rw [r.entry_snoc]
      refine (hother p List.mem_cons_self fun heq => hp ?_).trans h.2.1.2
      rw [show p = r.last from heq]
      exact List.mem_append_right _ hmem
    · refine hother x (List.mem_cons_of_mem p (List.mem_append_left _ hx)) fun heq => ?_
      exact hdisjoint hx ((show x = r.last from heq) ▸ hmem)
    · exact ihr h.1 h.2.2.2 hr hlast
        fun x hx => hother x (List.mem_cons_of_mem p (List.mem_append_right _ hx))

/-! ## Steps -/

/-- `g'` is `g` with further nodes; of the old nodes only those in `ps` may be linked otherwise. -/
structure Alters (g : Grammar) (ps : List NodeId) (g' : Grammar) : Prop where
  size_le : g.nodes.size ≤ g'.nodes.size
  links_eq : ∀ p < g.nodes.size, p ∉ ps → (g'.node p).links = (g.node p).links
  state_eq : ∀ p < g.nodes.size, (g'.node p).state = (g.node p).state

namespace Alters

variable {g'' : Grammar} {ps qs : List NodeId}

theorem trans (h : g.Alters ps g') (h' : g'.Alters qs g'') : g.Alters (ps ++ qs) g'' where
  size_le := Nat.le_trans h.size_le h'.size_le
  links_eq p hp hmem := by
    rw [List.mem_append, not_or] at hmem
    rw [h'.links_eq p (Nat.lt_of_lt_of_le hp h.size_le) hmem.2, h.links_eq p hp hmem.1]
  state_eq p hp := by
    rw [h'.state_eq p (Nat.lt_of_lt_of_le hp h.size_le), h.state_eq p hp]

theorem mono (h : g.Alters ps g') (hps : ∀ p ∈ ps, p < g.nodes.size → p ∈ qs) : g.Alters qs g' where
  size_le := h.size_le
  links_eq p hp hmem := h.links_eq p hp fun hin => hmem (hps p hin hp)
  state_eq := h.state_eq

theorem link {k : Option NodeId} : g.Alters ps (g.link ps k) where
  size_le := Nat.le_of_eq size_link.symm
  links_eq p _ hmem := by rw [node_link, if_neg fun hin => hmem hin.1]
  state_eq p _ := by
    rw [node_link]
    split <;> rfl

theorem markLeaving : g.Alters ps (g.markLeaving ps) where
  size_le := Nat.le_of_eq size_markLeaving.symm
  links_eq p _ hmem := by rw [node_markLeaving, if_neg fun hin => hmem hin.1]
  state_eq p _ := by
    rw [node_markLeaving]
    split <;> rfl

theorem addNode {n : Node} : g.Alters [] (g.addNode n).2 where
  size_le := Nat.le_of_lt (Nat.lt_of_lt_of_eq (Nat.lt_succ_self _) size_addNode.symm)
  links_eq p hp _ := by rw [node_addNode, if_neg (Nat.ne_of_lt hp)]
  state_eq p hp := by rw [node_addNode, if_neg (Nat.ne_of_lt hp)]

/-- Phrases without nodes in `ps` are shown as before. -/
theorem shows {up : Bool} (h : g.Alters ps g') (hshows : g.Shows e k up)
    (hps : ∀ p ∈ e.nodes, p ∉ ps) : g'.Shows e k up :=
  hshows.congr h.size_le fun p hp => h.links_eq p (hshows.lt_size hp) (hps p hp)

theorem keeps_pool (h : g.Alters ps g') (hpool : g.Pool pool) (hps : ∀ e ∈ pool, ∀ p ∈ e.nodes, p ∉ ps) :
    g'.Pool pool :=
  hpool.congr h.size_le fun e he p hp =>
    ⟨h.links_eq p (hpool.lt_size he hp) (hps e he p hp), h.state_eq p (hpool.lt_size he hp)⟩

end Alters

/-- A phrase is made the body of a new node, and its ends begin to leave. -/
structure Encloses (g : Grammar) (e : Phrase) (n : Node) (g' : Grammar) : Prop where
  alters : g.Alters e.exits g'
  size_eq : g'.nodes.size = g.nodes.size + 1
  node_eq : g'.node g.nodes.size = n
  body : g'.Shows e none true

namespace Pool

/-- Parts of a pool, with new nodes, become one phrase. -/
theorem combine {ps : List NodeId} (parts : List Phrase) (fresh : List NodeId)
    (h : g.Pool (parts ++ pool))
    (halters : g.Alters ps g') (hps : ∀ p ∈ ps, ∃ a ∈ parts, p ∈ a.nodes)
    (hshows : g'.Shows e none false) (hnodes : e.nodes.Perm (fresh ++ parts.flatMap Phrase.nodes))
    (hfresh : fresh.Nodup) (hnew : ∀ p ∈ fresh, g.nodes.size ≤ p ∧ (g'.node p).state = none) :
    g'.Pool (e :: pool) := by
  have hmem : ∀ {p : NodeId}, p ∈ e.nodes ↔ p ∈ fresh ∨ ∃ a ∈ parts, p ∈ a.nodes := by
    intro p
    rw [hnodes.mem_iff, List.mem_append, List.mem_flatMap]
  have hpart : ∀ a ∈ parts, a ∈ parts ++ pool := fun a ha => List.mem_append_left _ ha
  have hrest : ∀ f ∈ pool, f ∈ parts ++ pool := fun f hf => List.mem_append_right _ hf
  obtain ⟨hparts, hpool, hapart⟩ := List.pairwise_append.1 h.disjoint
  refine ⟨List.forall_mem_cons.2 ⟨hshows, fun f hf => ?_⟩,
    List.forall_mem_cons.2 ⟨fun p hp => ?_, fun f hf p hp => ?_⟩,
    List.forall_mem_cons.2 ⟨?_, fun f hf => h.nodup f (hrest f hf)⟩,
    List.pairwise_cons.2 ⟨fun f hf p hp hpf => ?_, hpool⟩⟩
  · refine halters.shows (h.shows_of_mem f (hrest f hf)) fun p hp hin => ?_
    obtain ⟨a, ha, hpa⟩ := hps p hin
    exact hapart a ha f hf hpa hp
  · rcases hmem.1 hp with hp | ⟨a, ha, hp⟩
    · exact (hnew p hp).2
    · rw [halters.state_eq p (h.lt_size (hpart a ha) hp)]
      exact h.state_eq a (hpart a ha) p hp
  · rw [halters.state_eq p (h.lt_size (hrest f hf) hp)]
    exact h.state_eq f (hrest f hf) p hp
  · rw [hnodes.nodup_iff, List.nodup_append']
    refine ⟨hfresh, List.nodup_flatMap.2 ⟨fun a ha => h.nodup a (hpart a ha), hparts⟩, ?_⟩
    intro p hp hp'
    obtain ⟨a, ha, hpa⟩ := List.mem_flatMap.1 hp'
    exact Nat.not_lt.2 (hnew p hp).1 (h.lt_size (hpart a ha) hpa)
  · rcases hmem.1 hp with hp | ⟨a, ha, hp⟩
    · exact Nat.not_lt.2 (hnew p hp).1 (h.lt_size (hrest f hf) hpf)
    · exact hapart a ha f hf hp hpf

/-- A new node alone joins a pool. -/
theorem leaf {kind : NodeKind} (h : g.Pool pool) (hkind : kind.isLeaf = true) (line : Nat)
    (pos : Option Position) :
    (g.addLeaf { kind, line, pos }).2.Pool (.leaf g.nodes.size :: pool) := by
  have hnode : (g.addLeaf { kind, line, pos }).2.node g.nodes.size = { kind, line, pos } := by
    rw [addLeaf, node_addNode, if_pos rfl]
  have hlt : g.nodes.size < (g.addLeaf { kind, line, pos }).2.nodes.size :=
    Nat.lt_of_lt_of_eq (Nat.lt_succ_self _) size_addNode.symm
  refine combine [] [g.nodes.size] h .addNode (by simp) ⟨?_, hlt, ?_⟩
    (List.Perm.refl _) (List.nodup_singleton _) (by simp [hnode])
  · rw [hnode]
    exact hkind
  · rw [hnode]
    rfl

theorem sequence {a b : Phrase} (h : g.Pool (a :: b :: pool)) :
    (g.sequence a.fragment b.fragment).2.Pool (.seq a b :: pool) := by
  obtain ⟨ha, hb⟩ := List.forall_mem_cons.1 h.shows_of_mem
  obtain ⟨hdisjoint, _⟩ := List.pairwise_cons.1 h.disjoint
  have hlink : g.Alters a.exits (g.sequence a.fragment b.fragment).2 := .link
  refine combine [a, b] [] h hlink (fun p hp => ?_)
    ⟨ha.link (h.nodup a List.mem_cons_self), hlink.shows (hb b List.mem_cons_self) fun p hp hin => ?_⟩
    (by simp [Phrase.nodes]) List.nodup_nil (by simp)
  · exact ⟨a, List.mem_cons_self, Phrase.mem_nodes_of_mem_exits hp⟩
  · exact hdisjoint b List.mem_cons_self (Phrase.mem_nodes_of_mem_exits hin) hp

theorem encloses (h : g.Pool pool) (he : e ∈ pool) (n : Node) :
    g.Encloses e n ((g.addNode n).2.markLeaving e.exits) where
  alters := Alters.addNode.trans .markLeaving
  size_eq := by rw [size_markLeaving, size_addNode]
  node_eq := by
    have hnot : g.nodes.size ∉ e.exits := fun hmem =>
      Nat.lt_irrefl _ (h.lt_size he (Phrase.mem_nodes_of_mem_exits hmem))
    rw [node_markLeaving, if_neg fun hin => hnot hin.1, node_addNode, if_pos rfl]
  body := (Alters.addNode.shows (h.shows_of_mem e he) fun _ _ => List.not_mem_nil).markLeaving
    (h.nodup e he)

/-- The new node and its body form a phrase. -/
theorem enclose {n : Node} {ps : List NodeId} {whole : Phrase} (h : g.Pool (e :: pool))
    (halters : g.Alters ps g') (hps : ∀ p ∈ ps, p ∈ e.exits) (hnode : g'.node g.nodes.size = n)
    (hstate : n.state = none) (hshows : g'.Shows whole none false)
    (hnodes : whole.nodes = g.nodes.size :: e.nodes) : g'.Pool (whole :: pool) := by
  refine combine [e] [g.nodes.size] h halters (fun p hp => ?_) hshows (by simp [hnodes])
    (List.nodup_singleton _) (by simp [hnode, hstate])
  exact ⟨e, List.mem_cons_self, Phrase.mem_nodes_of_mem_exits (hps p hp)⟩

theorem firstArm (h : g.Pool (e :: pool)) :
    (g.firstArm e.fragment).2.Pool (.arm g.nodes.size e :: pool) := by
  have henc := h.encloses List.mem_cons_self
    { kind := .alt, sub := some e.entry, line := (g.node e.entry).line }
  refine h.enclose henc.alters (fun _ hp => hp) henc.node_eq rfl ⟨⟨?_, ?_⟩, henc.body⟩ rfl
  · exact Nat.lt_of_lt_of_eq (Nat.lt_succ_self _) henc.size_eq.symm
  · exact congrArg Node.links henc.node_eq

theorem option (h : g.Pool (e :: pool)) :
    (g.option e.fragment).2.Pool (.opt g.nodes.size e :: pool) := by
  have henc := h.encloses List.mem_cons_self
    { kind := .opt, sub := some e.entry, line := (g.node e.entry).line }
  refine h.enclose henc.alters (fun _ hp => hp) henc.node_eq rfl ⟨⟨?_, ?_⟩, henc.body⟩ rfl
  · exact Nat.lt_of_lt_of_eq (Nat.lt_succ_self _) henc.size_eq.symm
  · exact congrArg Node.links henc.node_eq

theorem iteration (h : g.Pool (e :: pool)) :
    (g.iteration e.fragment).2.Pool (.iter g.nodes.size e :: pool) := by
  have henc := h.encloses List.mem_cons_self
    { kind := .iter, sub := some e.entry, line := (g.node e.entry).line }
  have hnot : g.nodes.size ∉ e.exits := fun hmem =>
    Nat.lt_irrefl _ (h.lt_size List.mem_cons_self (Phrase.mem_nodes_of_mem_exits hmem))
  -- the ends of the body lead back to the new node
  have hnode : (g.iteration e.fragment).2.node g.nodes.size =
      { kind := .iter, sub := some e.entry, line := (g.node e.entry).line } := by
    refine (node_link).trans ?_
    rw [if_neg fun hin => hnot hin.1]
    exact henc.node_eq
  have hsize : (g.iteration e.fragment).2.nodes.size = g.nodes.size + 1 :=
    size_link.trans henc.size_eq
  refine h.enclose (henc.alters.trans .link) (fun p hp => ?_) hnode rfl ⟨⟨?_, ?_⟩, ?_⟩ rfl
  · exact (List.mem_append.1 hp).elim id id
  · exact Nat.lt_of_lt_of_eq (Nat.lt_succ_self _) hsize.symm
  · exact congrArg Node.links hnode
  · exact henc.body.link (h.nodup e List.mem_cons_self)

theorem addArm {a : Phrase} (h : g.Pool (a :: e :: pool)) (harms : a.isArms = true) :
    (g.addArm a.fragment e.fragment).2.Pool (a.snoc g.nodes.size e :: pool) := by
  obtain ⟨n, hn⟩ : ∃ n : Node, n =
    { kind := .alt, sub := some e.entry, leaves := true, line := (g.node e.entry).line } := ⟨_, rfl⟩
  have henc := h.encloses (List.mem_cons_of_mem a List.mem_cons_self) n
  obtain ⟨ha, hb⟩ := List.forall_mem_cons.1 h.shows_of_mem
  obtain ⟨hdisjoint, _⟩ := List.pairwise_cons.1 h.disjoint
  have hae : a.nodes.Disjoint e.nodes := hdisjoint e List.mem_cons_self
  generalize hg₁ : (g.addNode n).2.markLeaving e.exits = g₁ at henc
  have ha₁ : g₁.Shows a none false := henc.alters.shows ha fun p hp hin =>
    hae hp (Phrase.mem_nodes_of_mem_exits hin)
  have hlen : a.nodes.length ≤ g₁.nodes.size := by
    have := ha.length_nodes_le (h.nodup a List.mem_cons_self)
    have := henc.size_eq
    omega
  have hg' : (g.addArm a.fragment e.fragment).2 =
      g₁.modifyNode a.last fun n => { n with down := some g.nodes.size } := by
    rw [← lastArm_entry harms ha₁ hlen, ← hg₁, hn]
    rfl
  have hlast : a.last < g.nodes.size := ha.lt_size a.last_mem_nodes
  have hne : g.nodes.size ≠ a.last := Nat.ne_of_gt hlast
  rw [hg']
  have hnode : (g₁.modifyNode a.last fun n => { n with down := some g.nodes.size }).node
      g.nodes.size = n := (node_modifyNode_of_ne hne).trans henc.node_eq
  have halters : g₁.Alters [a.last] (g₁.modifyNode a.last fun n =>
      { n with down := some g.nodes.size }) := by
    refine ⟨Nat.le_of_eq size_modifyNode.symm, fun p _ hmem => ?_, fun p _ => ?_⟩
    · rw [node_modifyNode_of_ne fun heq => hmem (List.mem_singleton.2 heq)]
    · rw [node_modifyNode]
      split <;> rfl
  have hbody : ∀ p ∈ e.nodes, p ∉ [a.last] := fun p hp hin =>
    hae (List.mem_singleton.1 hin ▸ a.last_mem_nodes) hp
  refine combine [a, e] [g.nodes.size] h (henc.alters.trans halters) (fun p hp => ?_)
    (ha₁.snoc harms (h.nodup a List.mem_cons_self) halters.size_le ?_ (fun p hp hpl => ?_) ⟨⟨?_, ?_⟩, ?_⟩)
    (by simpa using Phrase.nodes_snoc harms) (List.nodup_singleton _) (by simp [hnode, hn])
  · rcases List.mem_append.1 hp with hp | hp
    · exact ⟨e, by simp, Phrase.mem_nodes_of_mem_exits hp⟩
    · exact ⟨a, by simp, List.mem_singleton.1 hp ▸ a.last_mem_nodes⟩
  · rw [node_modifyNode_self (Nat.lt_of_lt_of_le hlast henc.alters.size_le)]
    rfl
  · rw [node_modifyNode_of_ne hpl]
  · rw [size_modifyNode, henc.size_eq]
    exact Nat.lt_succ_self _
  · rw [hnode, hn]
    rfl
  · exact halters.shows henc.body hbody

end Pool

/-! ## Texts -/

/-- What adding a chain of characters behind the node `p` gives. -/
structure Chains (g : Grammar) (p : NodeId) (n : Nat) (g' : Grammar) : Prop where
  shows_chain : g'.Shows (.chain p n) none false
  alters : g.Alters [p] g'
  state_eq : ∀ x ∈ (Phrase.chain p n).nodes, (g'.node x).state = none

/-- One character behind the last node. -/
theorem chains_char {p : Nat} (line : Nat) (c : Char) (hleaf : g.Shows (.leaf p) none false)
    (hlast : p + 1 = g.nodes.size) (hstate : (g.node p).state = none)
    (hg' : g' = (g.addNode { kind := .char c.toNat .main, line }).2.modifyNode p fun n =>
      { n with next := some g.nodes.size, leaves := false }) :
    g.Chains p 1 g' ∧ g'.nodes.size = p + 2 := by
  obtain ⟨hkind, hlt, hlinks⟩ := hleaf
  have hsize : g'.nodes.size = g.nodes.size + 1 := hg' ▸ size_modifyNode.trans size_addNode
  have hnew : g'.node (p + 1) = { kind := .char c.toNat .main, line } := by
    rw [hg', hlast, node_modifyNode_of_ne (Nat.ne_of_gt hlt), node_addNode, if_pos rfl]
  have hold : g'.node p = { g.node p with next := some (p + 1), leaves := false } := by
    rw [hg', hlast, node_modifyNode_self (Nat.lt_of_lt_of_le hlt Alters.addNode.size_le), node_addNode,
      if_neg (Nat.ne_of_lt hlt)]
  have hother : ∀ x < g.nodes.size, x ≠ p → g'.node x = g.node x := fun x hx hxp => by
    rw [hg', node_modifyNode_of_ne hxp, node_addNode, if_neg (Nat.ne_of_lt hx)]
  have hsize' : g'.nodes.size = p + 2 := by omega
  refine ⟨⟨⟨⟨?_, ?_, ?_⟩, ?_, ?_, ?_⟩, ⟨?_, fun x hx hmem => ?_, fun x hx => ?_⟩, fun x hx => ?_⟩, hsize'⟩
  · rw [hold]
    exact hkind
  · rw [hsize']
    exact Nat.lt_add_of_pos_right Nat.two_pos
  · rw [hold]
    simp only [Node.links, Prod.mk.injEq] at hlinks ⊢
    exact ⟨trivial, hlinks.2.1, hlinks.2.2.1, rfl, trivial⟩
  · rw [hnew]
    rfl
  · rw [hsize']
    exact Nat.lt_succ_self _
  · rw [hnew]
    rfl
  · omega
  · rw [hother x hx fun heq => hmem (List.mem_singleton.2 heq)]
  · by_cases hxp : x = p
    · rw [hxp, hold]
    · rw [hother x hx hxp]
  · rcases List.mem_cons.1 hx with rfl | hx
    · rw [hold]
      exact hstate
    · rw [List.mem_singleton.1 hx, hnew]

theorem chains_addChars {p : Nat} (line : Nat) (cs : List Char)
    (hleaf : g.Shows (.leaf p) none false) (hlast : p + 1 = g.nodes.size)
    (hstate : (g.node p).state = none) : g.Chains p cs.length (g.addChars line p cs).2 := by
  induction cs generalizing g p with
  | nil =>
    refine ⟨hleaf, ⟨Nat.le_refl _, fun _ _ _ => rfl, fun _ _ => rfl⟩, fun x hx => ?_⟩
    rwa [List.mem_singleton.1 hx]
  | cons c cs ih =>
    obtain ⟨hfirst, hsize⟩ := chains_char line c hleaf hlast hstate rfl
    obtain ⟨⟨hp, hq⟩, halters, hstates⟩ := hfirst
    have hrest := ih hq hsize.symm (hstates (p + 1) (by simp [Phrase.chain, Phrase.nodes]))
    have heq : (g.addChars line p (c :: cs)).2 = _ := congrArg (fun q => (Grammar.addChars
      ((g.addNode { kind := .char c.toNat .main, line }).2.modifyNode p fun n =>
        { n with next := some g.nodes.size, leaves := false }) line q cs).2) hlast.symm
    rw [heq]
    have hpq : p ∉ [p + 1] := by simp
    refine ⟨⟨?_, hrest.shows_chain⟩, (halters.trans hrest.alters).mono fun x hx hlt => ?_,
      fun x hx => ?_⟩
    · rw [Phrase.entry_chain] at hp ⊢
      exact hrest.alters.shows hp fun y hy => List.mem_singleton.1 hy ▸ hpq
    · rcases List.mem_append.1 hx with hx | hx
      · exact hx
      · rw [List.mem_singleton.1 hx, ← hlast] at hlt
        exact absurd hlt (Nat.lt_irrefl _)
    · rcases List.mem_cons.1 hx with rfl | hx
      · rw [hrest.alters.state_eq x (Nat.lt_of_lt_of_eq (Nat.lt_add_of_pos_right Nat.two_pos) hsize.symm)]
        exact hstates x (by simp [Phrase.chain, Phrase.nodes])
      · exact hrest.state_eq x hx

theorem Pool.text {quoted : String} {line : Nat} {c : Char} {cs : List Char} (h : g.Pool pool)
    (htext : (g.readQuoted quoted).1.toList = c :: cs) :
    (g.addString quoted line).2.Pool (.chain g.nodes.size cs.length :: pool) := by
  -- reading the text only reports, then the first character is a leaf
  have hread : g.Alters [] (g.readQuoted quoted).2 :=
    ⟨Nat.le_refl _, fun _ _ _ => rfl, fun _ _ => rfl⟩
  have hkind : (NodeKind.char c.toNat .main).isLeaf = true := rfl
  have hleaf := (hread.keeps_pool h fun _ _ _ _ => List.not_mem_nil).leaf hkind line none
  have hchain := chains_addChars line cs (hleaf.shows_of_mem _ List.mem_cons_self)
    size_addNode.symm (hleaf.state_eq _ List.mem_cons_self _ (List.mem_singleton.2 rfl))
  have heq : (g.addString quoted line).2 = (((g.readQuoted quoted).2.addNode
      { kind := .char c.toNat .main, line }).2.addChars line g.nodes.size cs).2 := by
    rw [addString]
    simp only [htext]
    rfl
  rw [heq]
  have halters : g.Alters [g.nodes.size] _ := (hread.trans .addNode).trans hchain.alters
  have hnone : g.Alters [] _ := halters.mono fun p hp hlt => by
    rw [List.mem_singleton.1 hp] at hlt
    exact absurd hlt (Nat.lt_irrefl _)
  refine Pool.combine [] (Phrase.chain g.nodes.size cs.length).nodes h hnone (by simp)
    hchain.shows_chain (by simp) ?_ fun p hp => ⟨?_, hchain.state_eq p hp⟩
  · rw [Phrase.nodes_chain]
    exact List.nodup_range'
  · rw [Phrase.nodes_chain] at hp
    exact (List.mem_range'_1.1 hp).1

/-! ## All steps -/

/-- However phrases are put together, the grammar shows them, and they share no nodes. -/
theorem Assembled.toPool (h : Assembled g pool) : g.Pool pool := by
  induction h with
  | start g => exact ⟨by simp, by simp, by simp, .nil⟩
  | leaf _ hkind line pos ih => exact ih.leaf hkind line pos
  | text _ quoted line htext ih => exact ih.text htext
  | sequence _ ih => exact ih.sequence
  | firstArm _ ih => exact ih.firstArm
  | addArm _ harms ih => exact ih.addArm harms
  | option _ ih => exact ih.option
  | iteration _ ih => exact ih.iteration
  | perm _ hperm ih => exact ih.perm hperm
  | drop _ ih => exact ih.tail
  | declare _ hsize hnodes ih => exact ih.congr hsize hnodes

theorem Assembled.declareSymbol (h : Assembled g pool) (kind : SymbolKind) (name : String)
    (line : Nat) : Assembled (g.declareSymbol kind name line).2 pool := by
  have hnodes : (g.declareSymbol kind name line).2.nodes = g.nodes := by
    simp only [Grammar.declareSymbol]
    split <;> rfl
  refine h.declare (Nat.le_of_eq (congrArg Array.size hnodes).symm) fun e _ p _ => ?_
  rw [node, hnodes]
  exact ⟨rfl, rfl⟩

/-- A text without characters is complained about, and stands for a leaf that reads nothing. -/
theorem Assembled.emptyText (h : Assembled g pool) (quoted : String) (line : Nat)
    (htext : (g.readQuoted quoted).1.toList = []) :
    Assembled (g.addString quoted line).2 (.leaf g.nodes.size :: pool) := by
  have hreported : Assembled ((g.readQuoted quoted).2.report (.errorOn line .emptyToken)) pool :=
    h.declare (Nat.le_refl _) fun _ _ _ _ => ⟨rfl, rfl⟩
  rw [addString]
  simp only [htext]
  exact hreported.leaf rfl line none

/-- A closed phrase is followed by nothing. -/
theorem Assembled.shows_close (h : Assembled g (e :: pool)) :
    (g.close e.fragment).Shows e none false :=
  (h.toPool.shows_of_mem e List.mem_cons_self).link (h.toPool.nodup e List.mem_cons_self)

/-- Closing a phrase links its ends as they are. -/
theorem Assembled.close (h : Assembled g pool) (he : e ∈ pool) :
    Assembled (g.close e.fragment) pool := by
  refine h.declare (Nat.le_of_eq size_link.symm) fun _ _ p _ => ?_
  rw [Grammar.close, node_link]
  split
  · next hin =>
    have hnext := (h.toPool.shows_of_mem e he).next_of_mem_exits hin.1
    simp only [Node.links, hnext, and_self]
  · exact ⟨rfl, rfl⟩

end Grammar

end Ebnf
