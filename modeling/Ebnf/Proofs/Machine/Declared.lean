import Ebnf.Machine.Comment
import Ebnf.Proofs.Machine.Edits

/-!
# Machines of declared tokens, literals and comments

A machine grows by token structures, literals and comments, while the grammar
grows by whatever is declared between them.  What all machines have in common
follows from what small changes keep.

Main results:

- Theorem `Draft.Declared.single`: every move leads to one state.
- Theorem `Draft.Declared.endOf_start`: no token ends in the start state, if tokens are
  declared at nodes of complete structures.
- Theorem `Draft.Declared.exists_owned`: if each token has a structure of its own, what
  can be reached from a state other than the start belongs to one token.
- Theorem `Draft.Declared.delimited`: comments have delimiters that are not empty.
-/

namespace Ebnf

/-- A delimiter is not empty, and only complaints are added to the grammar. -/
theorem Grammar.delimiter_spec {g g' : Grammar} {p : NodeId} {line : Nat} {text : String}
    (h : g.delimiter p line = (text, g')) :
    text ≠ "" ∧ g'.classes = g.classes ∧ g'.nodes = g.nodes := by
  unfold delimiter at h
  dsimp only at h
  split at h
  · cases h
    exact ⟨by decide, rfl, rfl⟩
  next hlen =>
    cases h
    rw [not_or] at hlen
    refine ⟨fun hempty => hlen.1 ?_, rfl, rfl⟩
    exact congrArg List.length (String.ofList_eq_empty_iff.1 hempty)

/-- Neither delimiter is empty. -/
def Comment.Delimited (k : Comment) : Prop :=
  k.start ≠ "" ∧ k.stop ≠ ""

namespace Draft

variable {d d' : Draft} {tok : SymbolId} {ends : StateId → Prop} {edge : StateId → StateId → Prop}
  {ok : Grammar → NodeId → Prop} {s t : StateId}

/-- The drafts that arise from the machine without tokens by declaring tokens, literals and comments,
while the grammar grows in any way that fits.  Tokens are declared at nodes as `ok` says. -/
inductive Declared (ok : Grammar → NodeId → Prop) : Draft → Prop
  | initial {g : Grammar} (hfit : g.Fit 1) : Declared ok ⟨.initial, g⟩
  | token {d : Draft} (h : Declared ok d) {p : NodeId} (hp : ok d.grammar p) (tok : SymbolId) :
      Declared ok (d.addToken p tok)
  | literal {d : Draft} (h : Declared ok d) (quoted : String) (tok : SymbolId) :
      Declared ok (d.addLiteral quoted tok)
  | comment {d : Draft} (h : Declared ok d) (start stop : NodeId) (nested : Bool) :
      Declared ok (d.addComment start stop nested)
  /-- other declarations in between: classes are only added, and nodes refer to what there is -/
  | revise {d : Draft} (h : Declared ok d) {g : Grammar} (hfit : g.Fit d.machine.states.size)
      (hclasses : d.grammar.classes.size ≤ g.classes.size) : Declared ok { d with grammar := g }

theorem Declared.mono {ok' : Grammar → NodeId → Prop} (h : d.Declared ok)
    (hok : ∀ g p, ok g p → ok' g p) : d.Declared ok' := by
  induction h with
  | initial hfit => exact .initial hfit
  | token _ hp tok ih => exact ih.token (hok _ _ hp) tok
  | literal _ quoted tok ih => exact ih.literal quoted tok
  | comment _ start stop nested ih => exact ih.comment start stop nested
  | revise _ hfit hclasses ih => exact ih.revise hfit hclasses

/-- A comment is added, and nothing else that the machine depends on changes. -/
theorem addComment_eq (d : Draft) (start stop : NodeId) (nested : Bool) :
    ∃ k g, d.addComment start stop nested =
        ⟨{ d.machine with comments := d.machine.comments ++ [k] }, g⟩ ∧ k.Delimited ∧
      g.classes = d.grammar.classes ∧ g.nodes = d.grammar.nodes := by
  unfold addComment
  dsimp only
  rcases hstart : d.grammar.delimiter start (d.grammar.node start).line with ⟨startText, g₁⟩
  dsimp only
  rcases hstop : g₁.delimiter stop (d.grammar.node start).line with ⟨stopText, g₂⟩
  obtain ⟨hstart, hclasses, hnodes⟩ := Grammar.delimiter_spec hstart
  obtain ⟨hstop, hclasses', hnodes'⟩ := Grammar.delimiter_spec hstop
  exact ⟨_, _, rfl, ⟨hstart, hstop⟩, hclasses'.trans hclasses, hnodes'.trans hnodes⟩

theorem Sound.addComment (h : d.Sound) (start stop : NodeId) (nested : Bool) :
    (d.addComment start stop nested).Sound := by
  obtain ⟨k, g, heq, _, hclasses, hnodes⟩ := d.addComment_eq start stop nested
  rw [heq]
  obtain ⟨⟨hcanonical, hknows, htarget, hsize⟩, hfit⟩ := (h.withGrammar hclasses hnodes).sound
  exact ⟨⟨hcanonical, hknows, htarget, hsize⟩, hfit⟩

theorem state_addComment {start stop : NodeId} {nested : Bool} :
    (d.addComment start stop nested).machine.state s = d.machine.state s := by
  obtain ⟨k, g, heq, _⟩ := d.addComment_eq start stop nested
  rw [heq]
  rfl

theorem Declared.sound (h : d.Declared ok) : d.Sound := by
  induction h with
  | initial hfit => exact .initial hfit
  | token _ _ tok ih => exact (ih.addToken _ tok).sound
  | literal _ quoted tok ih => exact (ih.addLiteral quoted tok).sound
  | comment _ start stop nested ih => exact ih.addComment start stop nested
  | revise _ hfit hclasses ih => exact ih.revise hfit hclasses

/-! ## Moves to single states -/

/-- Every move leads to one state. -/
def Single (d : Draft) : Prop :=
  ∀ s, ∀ m ∈ (d.machine.state s).moves, ∃ t, m.targets = .singleton t

/-- A move after a change is an old one or the one that was added. -/
theorem Edit.moves_cases {m : Move} (h : Edit tok ends edge d d')
    (hm : m ∈ (d'.machine.state s).moves) :
    m ∈ (d.machine.state s).moves ∨ ∃ t, edge s t ∧ m.targets = .singleton t := by
  cases h with
  | grammar => exact .inl hm
  | state =>
    dsimp only at hm
    rw [Machine.state_addState] at hm
    split at hm
    · cases hm
    · exact .inl hm
  | final =>
    dsimp only at hm
    rw [Machine.state_modifyState] at hm
    split at hm <;> exact .inl hm
  | @move source target on part hedge =>
    rw [state_connect] at hm
    split at hm
    next hs =>
      rcases Grammar.mem_addMove.1 hm with rfl | hm
      · exact .inr ⟨target, hs.1 ▸ hedge, rfl⟩
      · exact .inl hm
    next => exact .inl hm

/-- A token recognised after a change was recognised before, or it is the one that is declared. -/
theorem Edit.endOf_cases {a : SymbolId} (h : Edit tok ends edge d d')
    (hend : (d'.machine.state s).endOf = some a) :
    (d.machine.state s).endOf = some a ∨ a = tok ∧ (ends s ∨ d.machine.states.size ≤ s) := by
  cases h with
  | grammar => exact .inl hend
  | state h =>
    dsimp only at hend
    rw [Machine.state_addState] at hend
    split at hend
    next hs => exact .inr ⟨h a hend, .inr (Nat.le_of_eq hs.symm)⟩
    next => exact .inl hend
  | final hs =>
    dsimp only at hend
    rw [Machine.state_modifyState] at hend
    split at hend
    next heq => exact .inr ⟨(Option.some.inj hend).symm, .inl (heq.1 ▸ hs)⟩
    next => exact .inl hend
  | move => exact .inl (endOf_connect.symm.trans hend)

theorem Edit.single (h : Edit tok ends edge d d') (hd : d.Single) : d'.Single := by
  intro s m hm
  rcases h.moves_cases hm with hm | ⟨t, _, ht⟩
  · exact hd s m hm
  · exact ⟨t, ht⟩

theorem Declared.single (h : d.Declared ok) : d.Single := by
  induction h with
  | initial =>
    intro s m hm
    cases s <;> cases hm
  | token _ _ tok ih => exact (edits_addToken _ _ tok).keeps (fun _ => Edit.single) ih
  | literal _ quoted tok ih => exact (edits_addLiteral _ quoted tok).keeps (fun _ => Edit.single) ih
  | comment _ _ _ _ ih =>
    simp only [Single, state_addComment]
    exact ih
  | revise _ _ _ ih => exact ih

/-! ## The start state -/

theorem Edit.endOf_start (h : Edit tok ends edge d d') (hpos : 0 < d.machine.states.size)
    (hends : ∀ s, ends s → 0 < s) (hd : (d.machine.state Machine.start).endOf = none) :
    (d'.machine.state Machine.start).endOf = none := by
  refine Option.eq_none_iff_forall_ne_some.2 fun a hend => ?_
  rcases h.endOf_cases hend with hend | ⟨_, hs | hs⟩
  · rw [hd] at hend
    cases hend
  · exact Nat.lt_irrefl 0 (hends _ hs)
  · exact Nat.lt_irrefl 0 (Nat.lt_of_lt_of_le hpos hs)

/-- No token ends in the start state, if tokens are declared at nodes of complete structures. -/
theorem Declared.endOf_start (h : d.Declared Grammar.InStructure) :
    (d.machine.state Machine.start).endOf = none := by
  have hkeeps : ∀ {d d' : Draft} {tok : SymbolId} {edge : StateId → StateId → Prop}, d.Sound →
      Edits tok (d.machine.states.size ≤ ·) edge d d' →
      (d.machine.state Machine.start).endOf = none → (d'.machine.state Machine.start).endOf = none := by
    intro d d' tok edge hsound hedits
    have hpos := hsound.wellFormed.size_pos
    exact hedits.keeps (P := fun d => (d.machine.state Machine.start).endOf = none)
      fun hle hedit => hedit.endOf_start (Nat.lt_of_lt_of_le hpos hle)
        fun s hs => Nat.lt_of_lt_of_le hpos hs
  induction h with
  | initial => rfl
  | token h hp tok ih => exact hkeeps h.sound (edits_addToken_structure hp tok) ih
  | literal h quoted tok ih => exact hkeeps h.sound (edits_addLiteral _ quoted tok) ih
  | comment _ _ _ _ ih =>
    rw [state_addComment]
    exact ih
  | revise _ _ _ ih => exact ih

/-! ## States that belong to a token -/

/-- Apart from the start state, every state belongs to a token: no other token ends there, and its
moves lead to states of the same token. -/
structure Owned (d : Draft) (owner : StateId → SymbolId) : Prop where
  endOf_eq : ∀ s ≠ Machine.start, ∀ a, (d.machine.state s).endOf = some a → a = owner s
  target_eq : ∀ s ≠ Machine.start, ∀ m ∈ (d.machine.state s).moves, ∀ t ∈ m.targets,
    t ≠ Machine.start ∧ owner t = owner s

theorem Edit.owned {owner : StateId → SymbolId} {n : Nat} (h : Edit tok (n ≤ ·) (Forward n) d d')
    (hpos : 0 < n) (hn : n ≤ d.machine.states.size) (hnew : ∀ s, n ≤ s → owner s = tok)
    (hd : d.Owned owner) : d'.Owned owner where
  endOf_eq s hs a hend := by
    rcases h.endOf_cases hend with hend | ⟨rfl, hs⟩
    · exact hd.endOf_eq s hs a hend
    · exact (hnew s (hs.elim id (Nat.le_trans hn))).symm
  target_eq s hs m hm t ht := by
    rcases h.moves_cases hm with hm | ⟨u, ⟨hsource, hu⟩, htargets⟩
    · exact hd.target_eq s hs m hm t ht
    · rw [htargets] at ht
      obtain rfl := BitSet.mem_singleton.1 ht
      rw [hnew t hu, hnew s (hsource.resolve_left hs)]
      exact ⟨Nat.ne_of_gt (Nat.lt_of_lt_of_le hpos hu), rfl⟩

/-- The states that are added while a token is declared belong to it. -/
theorem Edits.exists_owned (hd : d.WellFormed)
    (h : Edits tok (d.machine.states.size ≤ ·) (Forward d.machine.states.size) d d')
    (howned : ∃ owner, d.Owned owner) : ∃ owner, d'.Owned owner := by
  obtain ⟨owner, howned⟩ := howned
  -- the new owner of the states that are not there yet
  let owner' : StateId → SymbolId := fun s => if d.machine.states.size ≤ s then tok else owner s
  have hold : ∀ s < d.machine.states.size, owner' s = owner s := fun s hs =>
    if_neg (Nat.not_le.2 hs)
  have hdefault : ∀ s, d.machine.states.size ≤ s → d.machine.state s = default := fun s hs => by
    simp [Machine.state, hs]
  have howned' : d.Owned owner' := by
    refine ⟨fun s hs a hend => ?_, fun s hs m hm t ht => ?_⟩
    · by_cases hlt : s < d.machine.states.size
      · rw [hold s hlt]
        exact howned.endOf_eq s hs a hend
      · rw [hdefault s (Nat.not_lt.1 hlt)] at hend
        cases hend
    · by_cases hlt : s < d.machine.states.size
      · rw [hold s hlt, hold t (hd.target_lt s m hm t ht)]
        exact howned.target_eq s hs m hm t ht
      · rw [hdefault s (Nat.not_lt.1 hlt)] at hm
        cases hm
  refine ⟨owner', h.keeps (P := fun d => d.Owned owner') (fun hle hedit => ?_) howned'⟩
  exact hedit.owned hd.size_pos hle fun s hs => if_pos hs

theorem Declared.exists_owned (h : d.Declared Grammar.BeginsStructure) : ∃ owner, d.Owned owner := by
  induction h with
  | initial =>
    refine ⟨fun _ => 0, fun s _ a hend => ?_, fun s _ m hm => ?_⟩
    · cases s <;> cases hend
    · cases s <;> cases hm
  | token h hp tok ih => exact (edits_addToken_whole hp tok).exists_owned h.sound.wellFormed ih
  | literal h quoted tok ih =>
    exact (edits_addLiteral _ quoted tok).exists_owned h.sound.wellFormed ih
  | comment _ _ _ _ ih =>
    obtain ⟨owner, hend, htarget⟩ := ih
    refine ⟨owner, ?_, ?_⟩
    · simpa only [state_addComment] using hend
    · simpa only [state_addComment] using htarget
  | revise _ _ _ ih =>
    obtain ⟨owner, hend, htarget⟩ := ih
    exact ⟨owner, hend, htarget⟩

/-! ## Comments -/

theorem Declared.delimited (h : d.Declared ok) : ∀ k ∈ d.machine.comments, k.Delimited := by
  have hkeeps : ∀ {d d' : Draft} {tok : SymbolId} {ends : StateId → Prop}
      {edge : StateId → StateId → Prop}, Edits tok ends edge d d' →
      (∀ k ∈ d.machine.comments, k.Delimited) → ∀ k ∈ d'.machine.comments, k.Delimited := by
    intro d d' tok ends edge hedits
    refine hedits.keeps (P := fun d => ∀ k ∈ d.machine.comments, k.Delimited) fun _ hedit hd => ?_
    rw [hedit.comments_eq]
    exact hd
  induction h with
  | initial => exact nofun
  | token _ _ tok ih => exact hkeeps (edits_addToken _ _ tok) ih
  | literal _ quoted tok ih => exact hkeeps (edits_addLiteral _ quoted tok) ih
  | comment _ start stop nested ih =>
    obtain ⟨k, g, heq, hk, _⟩ := Draft.addComment_eq _ start stop nested
    rw [heq]
    exact List.forall_mem_append.2 ⟨ih, List.forall_mem_singleton.2 hk⟩
  | revise _ _ _ ih => exact ih

end Draft

end Ebnf
