import Ebnf.Proofs.Grammar.Rules
import Ebnf.Proofs.Phrase.Walk

/-!
# Chains of phrases

Both passes over a token structure go on behind a phrase before they look inside
it, so what they do is said for several phrases one after the other.  The passes
change the states of nodes only; the links stay.

Main results:

- Theorem `Grammar.Alike.agrees`: grammars that differ in states only agree on what is
  deletable.
- Theorem `Grammar.Shows.mem_of_silent`: without reading one does not leave a
  phrase, except to what follows it.
- Theorem `Grammar.Shows.reached_within`: from its first node one gets to all nodes of a
  phrase.
-/

namespace Ebnf

namespace Grammar

variable {g g' g'' : Grammar} {e : Phrase} {es : List Phrase} {k : Option NodeId} {up : Bool}
  {p q : NodeId}

/-! ## Grammars with the same links -/

/-- The two grammars differ in the states of nodes only, as far as token structures are
concerned. -/
structure Alike (g g' : Grammar) : Prop where
  size_eq : g'.nodes.size = g.nodes.size
  links_eq : ∀ p, (g'.node p).links = (g.node p).links
  symbols_eq : g'.symbols = g.symbols
  classes_eq : g'.classes = g.classes

namespace Alike

theorem refl (g : Grammar) : g.Alike g :=
  ⟨rfl, fun _ => rfl, rfl, rfl⟩

theorem trans (h : g.Alike g') (h' : g'.Alike g'') : g.Alike g'' where
  size_eq := h'.size_eq.trans h.size_eq
  links_eq p := (h'.links_eq p).trans (h.links_eq p)
  symbols_eq := h'.symbols_eq.trans h.symbols_eq
  classes_eq := h'.classes_eq.trans h.classes_eq

theorem symm (h : g.Alike g') : g'.Alike g where
  size_eq := h.size_eq.symm
  links_eq p := (h.links_eq p).symm
  symbols_eq := h.symbols_eq.symm
  classes_eq := h.classes_eq.symm

/-- A node gets a state. -/
theorem modifyNode (p : NodeId) (s : Option StateId) :
    g.Alike (g.modifyNode p fun n => { n with state := s }) where
  size_eq := size_modifyNode
  links_eq q := by
    rw [node_modifyNode]
    split <;> rfl
  symbols_eq := rfl
  classes_eq := rfl

variable (h : g.Alike g')
include h

theorem agrees : g.Agrees g' where
  size_eq := h.size_eq
  links_eq := h.links_eq
  deletable_eq s := by rw [Grammar.sym, Grammar.sym, h.symbols_eq]

theorem shows (hshows : g.Shows e k up) : g'.Shows e k up :=
  hshows.congr (Nat.le_of_eq h.size_eq.symm) fun p _ => h.links_eq p

theorem silent_eq (p : NodeId) : (g'.node p).silent = (g.node p).silent := by
  unfold Node.silent
  rw [h.agrees.kind_eq, h.agrees.sub_eq, h.agrees.down_eq, h.agrees.next_eq]

theorem passes (hpass : g.Passes p q) : g'.Passes p q := by
  refine Relation.ReflTransGen.mono (fun x y hxy => ?_) p q hpass
  rwa [h.silent_eq]

theorem readsAll (hreads : e.ReadsAll g) : e.ReadsAll g' := by
  induction e with
  | leaf p =>
    rw [Phrase.ReadsAll, h.agrees.kind_eq]
    exact hreads
  | seq a b iha ihb => exact ⟨iha hreads.1, ihb hreads.2⟩
  | arm p e ih | opt p e ih | iter p e ih => exact ih hreads
  | alt p e r ihe ihr => exact ⟨ihe hreads.1, ihr hreads.2⟩

theorem spells_iff {ps : List NodeId} {w : List Nat} :
    Phrase.Spells g' ps w ↔ Phrase.Spells g ps w := by
  refine Phrase.spells_congr h.agrees.kind_eq ?_
  unfold Grammar.triggers Grammar.charClass
  rw [h.classes_eq]

end Alike

/-! ## Phrases one after the other -/

/-- Where a chain of phrases begins, if `k` follows it. -/
def chainEntry (k : Option NodeId) : List Phrase → Option NodeId
  | [] => k
  | e :: _ => some e.entry

/-- The nodes of a chain of phrases. -/
def chainNodes (es : List Phrase) : List NodeId :=
  es.flatMap Phrase.nodes

/-- The phrases of a chain are shown, each followed by the next one, and the last one by `k`. -/
def ShowsChain (g : Grammar) (k : Option NodeId) : List Phrase → Prop
  | [] => True
  | e :: es => (∃ up, g.Shows e (chainEntry k es) up) ∧ g.ShowsChain k es

@[simp]
theorem chainNodes_cons : chainNodes (e :: es) = e.nodes ++ chainNodes es :=
  rfl

@[simp]
theorem chainNodes_nil : chainNodes [] = [] :=
  rfl

theorem mem_of_chainEntry (h : chainEntry k es = some p) : p ∈ chainNodes es ∨ k = some p := by
  cases es with
  | nil => exact .inr h
  | cons e es => exact .inl (List.mem_append_left _ (Option.some.inj h ▸ e.entry_mem_nodes))

theorem ShowsChain.singleton (h : g.Shows e k up) : g.ShowsChain k [e] :=
  ⟨⟨up, h⟩, trivial⟩

theorem ShowsChain.seq {a b : Phrase} (h : g.ShowsChain k (.seq a b :: es)) :
    g.ShowsChain k (a :: b :: es) :=
  ⟨⟨false, h.1.choose_spec.1⟩, ⟨_, h.1.choose_spec.2⟩, h.2⟩

theorem Alike.showsChain (h : g.Alike g') (hshows : g.ShowsChain k es) : g'.ShowsChain k es := by
  induction es with
  | nil => trivial
  | cons e es ih =>
    obtain ⟨⟨up, he⟩, hes⟩ := hshows
    exact ⟨⟨up, h.shows he⟩, ih hes⟩

/-! ## Staying within a phrase -/

theorem Shows.mem_of_silent (h : g.Shows e k up) (hp : p ∈ e.nodes) (hq : q ∈ (g.node p).silent) :
    q ∈ e.nodes ∨ k = some q := by
  unfold Node.silent at hq
  split at hq
  · rw [List.mem_append, Option.mem_toList, Option.mem_toList] at hq
    exact .inl (h.mem_of_contents hp hq)
  · rw [List.mem_append, Option.mem_toList, Option.mem_toList] at hq
    exact hq.elim (h.mem_of_next hp) fun hq => .inl (h.mem_of_contents hp (.inl hq))
  · rw [List.mem_append, Option.mem_toList, Option.mem_toList] at hq
    exact hq.elim (h.mem_of_next hp) fun hq => .inl (h.mem_of_contents hp (.inl hq))
  · cases hq

/-- One does not get out of a closed phrase. -/
theorem Shows.mem_of_passes (h : g.Shows e none up) (hp : p ∈ e.nodes) (hpass : g.Passes p q) :
    q ∈ e.nodes := by
  induction hpass with
  | refl => exact hp
  | tail _ hstep ih => exact (h.mem_of_silent ih hstep).resolve_right nofun

/-- The arms of an alternative begin with a node of an alternative. -/
theorem Shows.kind_of_isArms (h : g.Shows e k up) (harms : e.isArms = true) :
    (g.node e.entry).kind = .alt := by
  cases e with
  | leaf | seq | opt | iter => cases harms
  | arm p e => exact h.1.kind_eq
  | alt p e r => exact h.2.1.kind_eq

/-! ## Seeing a whole phrase -/

/-- Some node leads to what follows the phrase, and leaves the structure around the phrase only if the
phrase does. -/
theorem Shows.exists_visible_exit (h : g.Shows e k up) :
    ∃ q ∈ e.nodes, (g.node q).next = k ∧ (g.node q).leaves = up := by
  induction e generalizing k up with
  | leaf q => exact ⟨q, List.mem_cons_self, h.2.next_eq, h.2.leaves_eq⟩
  | seq a b _ ihb =>
    obtain ⟨q, hq, hlinks⟩ := ihb h.2
    exact ⟨q, List.mem_append_right _ hq, hlinks⟩
  | arm q e _ | opt q e _ | iter q e _ => exact ⟨q, List.mem_cons_self, h.1.next_eq, h.1.leaves_eq⟩
  | alt q e r _ _ => exact ⟨q, List.mem_cons_self, h.2.1.next_eq, h.2.1.leaves_eq⟩

/-- From the first node of a phrase one gets to all its nodes, without leaving the structure around
it. -/
theorem Shows.reached_within {allowed : Nat → Prop} {pending : List Nat} (h : g.Shows e k up)
    (hallowed : ∀ p ∈ e.nodes, allowed p) (hentry : Reached g.innerEdges allowed pending e.entry) :
    ∀ p ∈ e.nodes, Reached g.innerEdges allowed pending p := by
  induction e generalizing k up with
  | leaf q => exact List.forall_mem_singleton.2 hentry
  | seq a b iha ihb =>
    obtain ⟨ha, hb⟩ := List.forall_mem_append.1 hallowed
    have hfirst := iha h.1 ha hentry
    -- the second part is seen from an end of the first one
    obtain ⟨q, hq, hnext, hleaves⟩ := h.1.exists_visible_exit
    have hedge : b.entry ∈ g.innerEdges q := by simp [innerEdges, hnext, hleaves]
    have hsecond := (hfirst q hq).step hedge (hb _ b.entry_mem_nodes)
    exact List.forall_mem_append.2 ⟨hfirst, ihb h.2 hb hsecond⟩
  | arm q e ih | opt q e ih | iter q e ih =>
    obtain ⟨_, he⟩ := List.forall_mem_cons.1 hallowed
    have hedge : e.entry ∈ g.innerEdges q := by simp [innerEdges, h.1.sub_eq]
    exact List.forall_mem_cons.2 ⟨hentry, ih h.2 he (hentry.step hedge (he _ e.entry_mem_nodes))⟩
  | alt q e r ihe ihr =>
    obtain ⟨_, hq, hshows, hshows'⟩ := h
    obtain ⟨_, her⟩ := List.forall_mem_cons.1 hallowed
    obtain ⟨he, hr⟩ := List.forall_mem_append.1 her
    have hbody : e.entry ∈ g.innerEdges q := by simp [innerEdges, hq.sub_eq]
    have hmore : r.entry ∈ g.innerEdges q := by simp [innerEdges, hq.down_eq]
    exact List.forall_mem_cons.2 ⟨hentry, List.forall_mem_append.2
      ⟨ihe hshows he (hentry.step hbody (he _ e.entry_mem_nodes)),
        ihr hshows' hr (hentry.step hmore (hr _ r.entry_mem_nodes))⟩⟩

end Grammar

end Ebnf
