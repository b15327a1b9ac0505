import Mathlib.Computability.RegularExpressions
import Ebnf.Proofs.Machine.Silent
import Ebnf.Proofs.Phrase.Assembly
import Ebnf.Proofs.Phrase.Deletable

/-!
# Walks through structures

A structure is a regular expression over its leaves.  Its leaf sequences are what
one meets on the walks through the nodes, from the first one to the end, and the
words of a token structure are spelled by them.

Main results:

- Theorem `Phrase.mem_language`: the words of a phrase are spelled by its leaf
  sequences.
- Theorem `Grammar.walks_entry`: the walks from the first node of a phrase go along
  a leaf sequence of the phrase and then through what follows it.
- Theorem `Grammar.Assembled.walks_close`: however a structure is put together, the
  walks through it are the leaf sequences of its regular expression.
- Theorem `Grammar.deletableChain_iff_skips`: a chain is deletable to the very end if there
  is a walk that reads nothing.
-/

namespace Ebnf

namespace Phrase

/-- The leaf sequences of a phrase. -/
def walks : Phrase → Language NodeId
  | leaf p => {[p]}
  | seq a b => a.walks * b.walks
  | arm _ e => e.walks
  | alt _ e r => e.walks + r.walks
  | opt _ e => 1 + e.walks
  | iter _ e => KStar.kstar e.walks

/-- The regular expression over leaves that a phrase was put together as. -/
def regex : Phrase → RegularExpression NodeId
  | leaf p => .char p
  | seq a b => a.regex * b.regex
  | arm _ e => e.regex
  | alt _ e r => e.regex + r.regex
  | opt _ e => 1 + e.regex
  | iter _ e => e.regex.star

/-- The leaf sequences of a phrase are those of its regular expression. -/
theorem matches'_regex (e : Phrase) : e.regex.matches' = e.walks := by
  induction e with
  | leaf p => rfl
  | seq a b iha ihb => rw [regex, RegularExpression.matches'_mul, iha, ihb, walks]
  | arm p e ih => exact ih
  | alt p e r ihe ihr => rw [regex, RegularExpression.matches'_add, ihe, ihr, walks]
  | opt p e ih =>
    rw [regex, RegularExpression.matches'_add, RegularExpression.matches'_epsilon, ih, walks]
  | iter p e ih => rw [regex, RegularExpression.matches'_star, ih, walks]

/-- A leaf reads a character. -/
def Reads (g : Grammar) (p : NodeId) (c : Nat) : Prop :=
  ∃ on part, (g.node p).kind.reads? = some (on, part) ∧ g.triggers on c = true

/-- The regular language of a phrase. -/
def language (g : Grammar) : Phrase → Language Nat
  | leaf p => { w | ∃ c, Reads g p c ∧ w = [c] }
  | seq a b => a.language g * b.language g
  | arm _ e => e.language g
  | alt _ e r => e.language g + r.language g
  | opt _ e => 1 + e.language g
  | iter _ e => KStar.kstar (e.language g)

/-- A word is spelled by a sequence of leaves. -/
def Spells (g : Grammar) (ps : List NodeId) (w : List Nat) : Prop :=
  List.Forall₂ (Reads g) ps w

variable {g : Grammar} {e : Phrase} {w : List Nat}

theorem Reads.isSome {p : NodeId} {c : Nat} (h : Reads g p c) :
    (g.node p).kind.reads?.isSome = true := by
  obtain ⟨on, part, hreads, _⟩ := h
  rw [hreads]
  rfl

theorem spells_append {ps qs : List NodeId} :
    Spells g (ps ++ qs) w ↔ ∃ u v, w = u ++ v ∧ Spells g ps u ∧ Spells g qs v := by
  induction ps generalizing w with
  | nil => simp [Spells]
  | cons p ps ih =>
    constructor
    · intro h
      cases h with
      | cons hread hrest =>
        obtain ⟨u, v, rfl, hu, hv⟩ := ih.1 hrest
        exact ⟨_ :: u, v, rfl, .cons hread hu, hv⟩
    · rintro ⟨u, v, rfl, hu, hv⟩
      cases hu with
      | cons hread hrest => exact .cons hread (ih.2 ⟨_, v, rfl, hrest, hv⟩)

/-- The words of a star are spelled by the sequences of the star. -/
theorem mem_kstar_of_spells {l : Language NodeId} {l' : Language Nat}
    (hl : ∀ w, w ∈ l' ↔ ∃ ps ∈ l, Spells g ps w) :
    w ∈ KStar.kstar l' ↔ ∃ ps ∈ KStar.kstar l, Spells g ps w := by
  constructor
  · rintro ⟨ws, rfl, hws⟩
    induction ws with
    | nil => exact ⟨[], Language.nil_mem_kstar l, .nil⟩
    | cons u ws ih =>
      obtain ⟨hu, hws⟩ := List.forall_mem_cons.1 hws
      obtain ⟨ps, hps, hspell⟩ := (hl u).1 hu
      obtain ⟨qs, ⟨qss, rfl, hqss⟩, hspells⟩ := ih hws
      refine ⟨ps ++ qss.flatten, ⟨ps :: qss, rfl, List.forall_mem_cons.2 ⟨hps, hqss⟩⟩, ?_⟩
      exact spells_append.2 ⟨u, ws.flatten, rfl, hspell, hspells⟩
  · rintro ⟨_, ⟨pss, rfl, hpss⟩, hspells⟩
    induction pss generalizing w with
    | nil =>
      cases hspells
      exact Language.nil_mem_kstar l'
    | cons ps pss ih =>
      obtain ⟨hps, hpss⟩ := List.forall_mem_cons.1 hpss
      obtain ⟨u, v, rfl, hu, hv⟩ := spells_append.1 hspells
      obtain ⟨ws, rfl, hws⟩ := ih hpss hv
      exact ⟨u :: ws, rfl, List.forall_mem_cons.2 ⟨(hl u).2 ⟨ps, hps, hu⟩, hws⟩⟩

/-- The words of a phrase are spelled by its leaf sequences. -/
theorem mem_language : w ∈ e.language g ↔ ∃ ps ∈ e.walks, Spells g ps w := by
  induction e generalizing w with
  | leaf p =>
    constructor
    · rintro ⟨c, hread, rfl⟩
      exact ⟨[p], rfl, .cons hread .nil⟩
    · rintro ⟨_, rfl, hspell⟩
      cases hspell with
      | cons hread hrest =>
        cases hrest
        exact ⟨_, hread, rfl⟩
  | seq a b iha ihb =>
    constructor
    · rintro ⟨u, hu, v, hv, rfl⟩
      obtain ⟨ps, hps, hspell⟩ := iha.1 hu
      obtain ⟨qs, hqs, hspell'⟩ := ihb.1 hv
      exact ⟨ps ++ qs, Language.append_mem_mul hps hqs, spells_append.2 ⟨u, v, rfl, hspell, hspell'⟩⟩
    · rintro ⟨_, ⟨ps, hps, qs, hqs, rfl⟩, hspells⟩
      obtain ⟨u, v, rfl, hu, hv⟩ := spells_append.1 hspells
      exact Language.append_mem_mul (iha.2 ⟨ps, hps, hu⟩) (ihb.2 ⟨qs, hqs, hv⟩)
  | arm p e ih => exact ih
  | alt p e r ihe ihr =>
    simp only [language, walks, Language.mem_add, ihe, ihr, or_and_right, exists_or]
  | opt p e ih =>
    simp only [language, walks, Language.mem_add, ih, or_and_right, exists_or, Language.mem_one,
      exists_eq_left]
    refine or_congr_left ⟨?_, fun h => ?_⟩
    · rintro rfl
      exact .nil
    · cases h
      rfl
  | iter p e ih => exact mem_kstar_of_spells fun w => ih

/-- What a word is spelled by depends on the kinds of the nodes and on the classes. -/
theorem spells_congr {g' : Grammar} {ps : List NodeId}
    (hkind : ∀ p, (g'.node p).kind = (g.node p).kind) (htriggers : g'.triggers = g.triggers) :
    Spells g' ps w ↔ Spells g ps w := by
  have hreads : Reads g' = Reads g := by
    funext p c
    rw [Reads, Reads, hkind, htriggers]
  rw [Spells, Spells, hreads]

/-- The leaves read. -/
def ReadsAll (g : Grammar) : Phrase → Prop
  | leaf p => (g.node p).kind.reads?.isSome = true
  | seq a b => a.ReadsAll g ∧ b.ReadsAll g
  | arm _ e | opt _ e | iter _ e => e.ReadsAll g
  | alt _ e r => e.ReadsAll g ∧ r.ReadsAll g

/-- A phrase is nullable if it has a leaf sequence that can be passed. -/
theorem nullable_iff {del : NodeId → Bool} :
    e.nullable del = true ↔ ∃ ps ∈ e.walks, ∀ p ∈ ps, del p = true := by
  induction e with
  | leaf p =>
    constructor
    · exact fun h => ⟨[p], rfl, by simpa [nullable] using h⟩
    · rintro ⟨_, rfl, h⟩
      exact h p List.mem_cons_self
  | seq a b iha ihb =>
    rw [nullable, Bool.and_eq_true, iha, ihb]
    constructor
    · rintro ⟨⟨ps, hps, hp⟩, qs, hqs, hq⟩
      exact ⟨ps ++ qs, Language.append_mem_mul hps hqs, List.forall_mem_append.2 ⟨hp, hq⟩⟩
    · rintro ⟨_, ⟨ps, hps, qs, hqs, rfl⟩, h⟩
      obtain ⟨hp, hq⟩ := List.forall_mem_append.1 h
      exact ⟨⟨ps, hps, hp⟩, qs, hqs, hq⟩
  | arm p e ih => exact ih
  | alt p e r ihe ihr =>
    simp only [nullable, Bool.or_eq_true, ihe, ihr, walks, Language.mem_add, or_and_right, exists_or]
  | opt p e ih =>
    rw [nullable]
    exact iff_of_true rfl ⟨[], .inl rfl, by simp⟩
  | iter p e ih =>
    rw [nullable]
    exact iff_of_true rfl ⟨[], Language.nil_mem_kstar _, by simp⟩

/-- A phrase whose leaves read is nullable if it has the sequence without leaves. -/
theorem nil_mem_walks : [] ∈ e.walks ↔ e.nullable (fun _ => false) = true := by
  rw [nullable_iff]
  constructor
  · exact fun h => ⟨[], h, by simp⟩
  · rintro ⟨ps, hps, h⟩
    rwa [List.eq_nil_iff_forall_not_mem.2 fun p hp => Bool.false_ne_true (h p hp)] at hps

/-- A phrase is nullable if the empty word is one of its words. -/
theorem nil_mem_language : [] ∈ e.language g ↔ e.nullable (fun _ => false) = true := by
  rw [mem_language, ← nil_mem_walks]
  simp only [Spells, List.forall₂_nil_right_iff, exists_eq_right]

end Phrase

namespace Grammar

variable {g : Grammar} {e : Phrase} {k : Option NodeId} {up : Bool} {p q : NodeId}
  {ps : List NodeId} {n : Nat}

/-- A walk of `n` steps from a node to the end, with the leaves on it. -/
inductive Walk (g : Grammar) : Nat → Option NodeId → List NodeId → Prop
  | done : Walk g 0 none []
  | leaf {n : Nat} {p : NodeId} {ps : List NodeId}
      (hkind : (g.node p).kind.isLeaf = true) (h : Walk g n (g.node p).next ps) :
      Walk g (n + 1) (some p) (p :: ps)
  | behind {n : Nat} {p : NodeId} {ps : List NodeId}
      (hkind : (g.node p).kind = .opt ∨ (g.node p).kind = .iter) (h : Walk g n (g.node p).next ps) :
      Walk g (n + 1) (some p) ps
  | inside {n : Nat} {p q : NodeId} {ps : List NodeId} (hkind : (g.node p).kind.isLeaf = false)
      (hsub : (g.node p).sub = some q) (h : Walk g n (some q) ps) : Walk g (n + 1) (some p) ps
  | other {n : Nat} {p q : NodeId} {ps : List NodeId} (hkind : (g.node p).kind = .alt)
      (hdown : (g.node p).down = some q) (h : Walk g n (some q) ps) : Walk g (n + 1) (some p) ps

/-- There is a walk from a node to the end with these leaves. -/
def Walks (g : Grammar) (p : Option NodeId) (ps : List NodeId) : Prop :=
  ∃ n, g.Walk n p ps

theorem reads?_of_isLeaf {kind : NodeKind} (h : kind.reads?.isSome = true) : kind.isLeaf = true := by
  cases kind <;> first | rfl | cases h

theorem leafDeletable_of_reads (h : (g.node p).kind.reads?.isSome = true) :
    g.leafDeletable p = false := by
  unfold leafDeletable
  cases hk : (g.node p).kind <;> first | rfl | simp [hk, NodeKind.reads?] at h

/-! ## One step -/

theorem walk_leaf (hkind : (g.node p).kind.isLeaf = true) :
    g.Walk n (some p) ps ↔ ∃ m qs, n = m + 1 ∧ ps = p :: qs ∧ g.Walk m (g.node p).next qs := by
  constructor
  · intro h
    cases h with
    | leaf _ h => exact ⟨_, _, rfl, rfl, h⟩
    | behind hk _ => rcases hk with hk | hk <;> simp [hk, NodeKind.isLeaf] at hkind
    | inside hk _ _ => simp [hk] at hkind
    | other hk _ _ => simp [hk, NodeKind.isLeaf] at hkind
  · rintro ⟨m, qs, rfl, rfl, h⟩
    exact .leaf hkind h

theorem walk_group {q : NodeId} (hkind : (g.node p).kind = .opt ∨ (g.node p).kind = .iter)
    (hsub : (g.node p).sub = some q) :
    g.Walk n (some p) ps ↔
      ∃ m, n = m + 1 ∧ (g.Walk m (g.node p).next ps ∨ g.Walk m (some q) ps) := by
  constructor
  · intro h
    cases h with
    | leaf hk _ => rcases hkind with hkind | hkind <;> simp [hkind, NodeKind.isLeaf] at hk
    | behind _ h => exact ⟨_, rfl, .inl h⟩
    | inside _ hsub' h =>
      rw [hsub] at hsub'
      exact ⟨_, rfl, .inr (Option.some.inj hsub' ▸ h)⟩
    | other hk _ _ => rcases hkind with hkind | hkind <;> simp [hkind] at hk
  · rintro ⟨m, rfl, h | h⟩
    · exact .behind hkind h
    · exact .inside (by rcases hkind with hkind | hkind <;> rw [hkind] <;> rfl) hsub h

theorem walk_alt {q : NodeId} (hkind : (g.node p).kind = .alt) (hsub : (g.node p).sub = some q) :
    g.Walk n (some p) ps ↔ ∃ m, n = m + 1 ∧
      (g.Walk m (some q) ps ∨ ∃ r, (g.node p).down = some r ∧ g.Walk m (some r) ps) := by
  constructor
  · intro h
    cases h with
    | leaf hk _ => simp [hkind, NodeKind.isLeaf] at hk
    | behind hk _ => rcases hk with hk | hk <;> simp [hkind] at hk
    | inside _ hsub' h =>
      rw [hsub] at hsub'
      exact ⟨_, rfl, .inl (Option.some.inj hsub' ▸ h)⟩
    | other _ hdown h => exact ⟨_, rfl, .inr ⟨_, hdown, h⟩⟩
  · rintro ⟨m, rfl, h | ⟨r, hdown, h⟩⟩
    · exact .inside (by rw [hkind]; rfl) hsub h
    · exact .other hkind hdown h

/-! ## Walks through a phrase -/

/-- The leaves of a leaf sequence are leaves. -/
theorem Shows.leaf_of_mem_walks (h : g.Shows e k up) (hps : ps ∈ e.walks) (hp : p ∈ ps) :
    p ∈ e.nodes ∧ (g.node p).kind.isLeaf = true := by
  induction e generalizing k up ps with
  | leaf q =>
    obtain rfl : ps = [q] := hps
    exact ⟨hp, List.mem_singleton.1 hp ▸ h.1⟩
  | seq a b iha ihb =>
    obtain ⟨qs, hqs, rs, hrs, rfl⟩ := hps
    rcases List.mem_append.1 hp with hp | hp
    · exact (iha h.1 hqs hp).imp_left (List.mem_append_left _)
    · exact (ihb h.2 hrs hp).imp_left (List.mem_append_right _)
  | arm q e ih => exact (ih h.2 hps hp).imp_left (List.mem_cons_of_mem q)
  | alt q e r ihe ihr =>
    rcases hps with hps | hps
    · exact (ihe h.2.2.1 hps hp).imp_left fun hp =>
        List.mem_cons_of_mem q (List.mem_append_left _ hp)
    · exact (ihr h.2.2.2 hps hp).imp_left fun hp =>
        List.mem_cons_of_mem q (List.mem_append_right _ hp)
  | opt q e ih =>
    rcases hps with hps | hps
    · obtain rfl : ps = [] := hps
      cases hp
    · exact (ih h.2 hps hp).imp_left (List.mem_cons_of_mem q)
  | iter q e ih =>
    obtain ⟨rounds, rfl, hrounds⟩ := hps
    obtain ⟨qs, hqs, hp⟩ := List.mem_flatten.1 hp
    exact (ih h.2 (hrounds qs hqs) hp).imp_left (List.mem_cons_of_mem q)

/-- A walk from the first node goes along a leaf sequence, and then through what follows. -/
theorem exists_of_walk (h : g.Shows e k up) (hwalk : g.Walk n (some e.entry) ps) :
    ∃ qs rs m, ps = qs ++ rs ∧ qs ∈ e.walks ∧ m < n ∧ g.Walk m k rs := by
  induction e generalizing k up n ps with
  | leaf p =>
    obtain ⟨m, qs, rfl, rfl, hrest⟩ := (walk_leaf h.1).1 hwalk
    rw [h.2.next_eq] at hrest
    exact ⟨[p], qs, m, rfl, rfl, Nat.lt_succ_self m, hrest⟩
  | seq a b iha ihb =>
    obtain ⟨qs, rs, m, rfl, hqs, hm, hrest⟩ := iha h.1 hwalk
    obtain ⟨qs', rs', m', rfl, hqs', hm', hrest'⟩ := ihb h.2 hrest
    exact ⟨qs ++ qs', rs', m', by simp, Language.append_mem_mul hqs hqs', Nat.lt_trans hm' hm, hrest'⟩
  | arm p e ih =>
    obtain ⟨m, rfl, hbody | ⟨r, hdown, _⟩⟩ := (walk_alt h.1.kind_eq h.1.sub_eq).1 hwalk
    · obtain ⟨qs, rs, m', rfl, hqs, hm, hrest⟩ := ih h.2 hbody
      exact ⟨qs, rs, m', rfl, hqs, Nat.lt_succ_of_lt hm, hrest⟩
    · rw [h.1.down_eq] at hdown
      cases hdown
  | alt p e r ihe ihr =>
    obtain ⟨m, rfl, hbody | ⟨q, hdown, hmore⟩⟩ := (walk_alt h.2.1.kind_eq h.2.1.sub_eq).1 hwalk
    · obtain ⟨qs, rs, m', rfl, hqs, hm, hrest⟩ := ihe h.2.2.1 hbody
      exact ⟨qs, rs, m', rfl, .inl hqs, Nat.lt_succ_of_lt hm, hrest⟩
    · rw [h.2.1.down_eq] at hdown
      obtain rfl := Option.some.inj hdown
      obtain ⟨qs, rs, m', rfl, hqs, hm, hrest⟩ := ihr h.2.2.2 hmore
      exact ⟨qs, rs, m', rfl, .inr hqs, Nat.lt_succ_of_lt hm, hrest⟩
  | opt p e ih =>
    obtain ⟨m, rfl, hbehind | hbody⟩ := (walk_group (.inl h.1.kind_eq) h.1.sub_eq).1 hwalk
    · rw [h.1.next_eq] at hbehind
      exact ⟨[], ps, m, rfl, .inl rfl, Nat.lt_succ_self m, hbehind⟩
    · obtain ⟨qs, rs, m', rfl, hqs, hm, hrest⟩ := ih h.2 hbody
      exact ⟨qs, rs, m', rfl, .inr hqs, Nat.lt_succ_of_lt hm, hrest⟩
  | iter p e ih =>
    -- each round takes a step, so the rounds can be counted by the length of the walk
    induction n using Nat.strongRecOn generalizing ps with
    | ind n ihn =>
      obtain ⟨m, rfl, hbehind | hbody⟩ := (walk_group (.inr h.1.kind_eq) h.1.sub_eq).1 hwalk
      · rw [h.1.next_eq] at hbehind
        exact ⟨[], ps, m, rfl, Language.nil_mem_kstar _, Nat.lt_succ_self m, hbehind⟩
      · obtain ⟨qs, rs, m', rfl, hqs, hm, hround⟩ := ih h.2 hbody
        obtain ⟨qs', rs', m'', rfl, ⟨rounds, rfl, hrounds⟩, hm'', hrest⟩ :=
          ihn m' (Nat.lt_succ_of_lt hm) hround
        refine ⟨qs ++ rounds.flatten, rs', m'', by simp,
          ⟨qs :: rounds, rfl, List.forall_mem_cons.2 ⟨hqs, hrounds⟩⟩, ?_, hrest⟩
        exact Nat.lt_trans hm'' (Nat.lt_succ_of_lt hm)

/-- Along every leaf sequence there is a walk, if there is one through what follows. -/
theorem walks_of_mem {rs : List NodeId} (h : g.Shows e k up) (hps : ps ∈ e.walks)
    (hrest : g.Walks k rs) : g.Walks (some e.entry) (ps ++ rs) := by
  induction e generalizing k up ps rs with
  | leaf p =>
    obtain rfl : ps = [p] := hps
    obtain ⟨n, hrest⟩ := hrest
    exact ⟨n + 1, .leaf h.1 (h.2.next_eq ▸ hrest)⟩
  | seq a b iha ihb =>
    obtain ⟨qs, hqs, qs', hqs', rfl⟩ := hps
    rw [List.append_assoc]
    exact iha h.1 hqs (ihb h.2 hqs' hrest)
  | arm p e ih =>
    obtain ⟨n, hbody⟩ := ih h.2 hps hrest
    exact ⟨n + 1, (walk_alt h.1.kind_eq h.1.sub_eq).2 ⟨n, rfl, .inl hbody⟩⟩
  | alt p e r ihe ihr =>
    rcases hps with hps | hps
    · obtain ⟨n, hbody⟩ := ihe h.2.2.1 hps hrest
      exact ⟨n + 1, (walk_alt h.2.1.kind_eq h.2.1.sub_eq).2 ⟨n, rfl, .inl hbody⟩⟩
    · obtain ⟨n, hmore⟩ := ihr h.2.2.2 hps hrest
      exact ⟨n + 1, (walk_alt h.2.1.kind_eq h.2.1.sub_eq).2
        ⟨n, rfl, .inr ⟨r.entry, h.2.1.down_eq, hmore⟩⟩⟩
  | opt p e ih =>
    rcases hps with hps | hps
    · obtain rfl : ps = [] := hps
      obtain ⟨n, hrest⟩ := hrest
      exact ⟨n + 1, .behind (.inl h.1.kind_eq) (h.1.next_eq ▸ hrest)⟩
    · obtain ⟨n, hbody⟩ := ih h.2 hps hrest
      exact ⟨n + 1, (walk_group (.inl h.1.kind_eq) h.1.sub_eq).2 ⟨n, rfl, .inr hbody⟩⟩
  | iter p e ih =>
    obtain ⟨rounds, rfl, hrounds⟩ := hps
    induction rounds with
    | nil =>
      obtain ⟨n, hrest⟩ := hrest
      exact ⟨n + 1, .behind (.inr h.1.kind_eq) (h.1.next_eq ▸ hrest)⟩
    | cons qs rounds ih' =>
      obtain ⟨hqs, hrounds⟩ := List.forall_mem_cons.1 hrounds
      obtain ⟨n, hbody⟩ := ih h.2 hqs (ih' hrounds)
      rw [List.flatten_cons, List.append_assoc]
      exact ⟨n + 1, (walk_group (.inr h.1.kind_eq) h.1.sub_eq).2 ⟨n, rfl, .inr hbody⟩⟩

/-- The walks from the first node of a phrase. -/
theorem walks_entry (h : g.Shows e k up) :
    g.Walks (some e.entry) ps ↔ ∃ qs rs, ps = qs ++ rs ∧ qs ∈ e.walks ∧ g.Walks k rs := by
  constructor
  · rintro ⟨n, hwalk⟩
    obtain ⟨qs, rs, m, heq, hqs, _, hrest⟩ := exists_of_walk h hwalk
    exact ⟨qs, rs, heq, hqs, m, hrest⟩
  · rintro ⟨qs, rs, rfl, hqs, hrest⟩
    exact walks_of_mem h hqs hrest

@[simp]
theorem walks_none : g.Walks none ps ↔ ps = [] := by
  constructor
  · rintro ⟨n, hwalk⟩
    cases hwalk
    rfl
  · rintro rfl
    exact ⟨0, .done⟩

/-- The walks from the first node of a closed phrase are its leaf sequences. -/
theorem walks_closed (h : g.Shows e none up) :
    g.Walks (some e.entry) ps ↔ ps ∈ e.walks := by
  rw [walks_entry h]
  constructor
  · rintro ⟨qs, rs, rfl, hqs, hrest⟩
    rw [walks_none.1 hrest, List.append_nil]
    exact hqs
  · exact fun hps => ⟨ps, [], (List.append_nil ps).symm, hps, walks_none.2 rfl⟩

/-! ## Walks through assembled structures -/

/-- However fragments are put together, the walks from the first node of a closed one are the leaf
sequences of its regular expression. -/
theorem Assembled.walks_close {pool : List Phrase} (h : Assembled g (e :: pool)) (ps : List NodeId) :
    (g.close e.fragment).Walks (some e.fragment.entry) ps ↔ ps ∈ e.regex.matches' := by
  rw [Phrase.matches'_regex]
  exact walks_closed h.shows_close

/-- The fragments of `{ a | [ B ] }`, put together. -/
def looped : Grammar :=
  let (a, g) := initial.addLeaf { kind := .terminal 1, line := 1 }
  let (arms, g) := g.firstArm a
  let (b, g) := g.addLeaf { kind := .nonterminal 2, line := 1 }
  let (maybe, g) := g.option b
  let (arms, g) := g.addArm arms maybe
  (g.iteration arms).2

/-- The phrase `{ a | [ B ] }`. -/
def loopedPhrase : Phrase :=
  .iter 5 (.alt 1 (.leaf 0) (.arm 4 (.opt 3 (.leaf 2))))

theorem assembled_looped : Assembled looped [loopedPhrase] := by
  have hterminal : (NodeKind.terminal 1).isLeaf = true := rfl
  have hnonterminal : (NodeKind.nonterminal 2).isLeaf = true := rfl
  have harm := ((Assembled.start .initial).leaf hterminal 1 none).firstArm
  have hmaybe := (harm.leaf hnonterminal 1 none).option
  exact ((hmaybe.perm (.swap _ _ _)).addArm rfl).iteration

/-- Rounds through both arms of `{ a | [ B ] }`. -/
theorem Assembled.walks_close_looped :
    Assembled looped [loopedPhrase] ∧
      (looped.close loopedPhrase.fragment).Walks (some 5) [2, 0, 2] := by
  refine ⟨assembled_looped, (assembled_looped.walks_close [2, 0, 2]).2 ?_⟩
  rw [Phrase.matches'_regex]
  have ha : [0] ∈ (Phrase.alt 1 (.leaf 0) (.arm 4 (.opt 3 (.leaf 2)))).walks := .inl rfl
  have hb : [2] ∈ (Phrase.alt 1 (.leaf 0) (.arm 4 (.opt 3 (.leaf 2)))).walks := .inr (.inr rfl)
  exact ⟨[[2], [0], [2]], rfl, by simp [ha, hb]⟩

/-! ## Walks and silent steps -/

theorem walks_of_mem_silent (hq : q ∈ (g.node p).silent) (h : g.Walks (some q) ps) :
    g.Walks (some p) ps := by
  obtain ⟨n, hwalk⟩ := h
  cases hkind : (g.node p).kind with
  | alt =>
    rcases (Node.mem_silent_alt hkind).1 hq with hsub | hdown
    · exact ⟨n + 1, .inside (by rw [hkind]; rfl) hsub hwalk⟩
    · exact ⟨n + 1, .other hkind hdown hwalk⟩
  | opt =>
    rcases (Node.mem_silent_group (.inl hkind)).1 hq with hnext | hsub
    · exact ⟨n + 1, .behind (.inl hkind) (hnext ▸ hwalk)⟩
    · exact ⟨n + 1, .inside (by rw [hkind]; rfl) hsub hwalk⟩
  | iter =>
    rcases (Node.mem_silent_group (.inr hkind)).1 hq with hnext | hsub
    · exact ⟨n + 1, .behind (.inr hkind) (hnext ▸ hwalk)⟩
    · exact ⟨n + 1, .inside (by rw [hkind]; rfl) hsub hwalk⟩
  | _ => simp [Node.silent, hkind] at hq

theorem walks_of_passes (hpass : g.Passes p q) (h : g.Walks (some q) ps) : g.Walks (some p) ps := by
  induction hpass using Relation.ReflTransGen.head_induction_on with
  | refl => exact h
  | head hstep _ ih => exact walks_of_mem_silent hstep ih

/-- A walk with leaves gets silently to the first of them. -/
theorem walks_cons : g.Walks (some p) (q :: ps) ↔
    g.Passes p q ∧ (g.node q).kind.isLeaf = true ∧ g.Walks (g.node q).next ps := by
  constructor
  · rintro ⟨n, hwalk⟩
    induction n generalizing p with
    | zero => cases hwalk
    | succ n ih =>
      cases hwalk with
      | leaf hkind h => exact ⟨.refl _, hkind, n, h⟩
      | behind hkind h =>
        cases hnext : (g.node p).next with
        | none =>
          rw [hnext] at h
          cases h
        | some r =>
          rw [hnext] at h
          obtain ⟨hpass, hrest⟩ := ih h
          exact ⟨.cons ((Node.mem_silent_group hkind).2 (.inl hnext)) hpass, hrest⟩
      | @inside _ _ r _ hkind hsub h =>
        obtain ⟨hpass, hrest⟩ := ih h
        refine ⟨.cons ?_ hpass, hrest⟩
        cases hk : (g.node p).kind with
        | alt => exact (Node.mem_silent_alt hk).2 (.inl hsub)
        | opt => exact (Node.mem_silent_group (.inl hk)).2 (.inr hsub)
        | iter => exact (Node.mem_silent_group (.inr hk)).2 (.inr hsub)
        | _ => simp [hk, NodeKind.isLeaf] at hkind
      | other hkind hdown h =>
        obtain ⟨hpass, hrest⟩ := ih h
        exact ⟨.cons ((Node.mem_silent_alt hkind).2 (.inr hdown)) hpass, hrest⟩
  · rintro ⟨hpass, hkind, n, hwalk⟩
    exact walks_of_passes hpass ⟨n + 1, .leaf hkind hwalk⟩

/-! ## Walks that read nothing -/

/-- There is a walk to the very end along leaves that all can be passed. -/
def Skips (g : Grammar) (r : Option NodeId) : Prop :=
  ∃ ps, g.Walks r ps ∧ ∀ q ∈ ps, g.leafDeletable q = true

theorem skips_none : g.Skips none :=
  ⟨[], walks_none.2 rfl, by simp⟩

/-- A walk through a phrase that reads nothing is one along a leaf sequence and one behind it. -/
theorem skips_entry (h : g.Shows e k up) :
    g.Skips (some e.entry) ↔ e.nullable g.leafDeletable = true ∧ g.Skips k := by
  rw [Phrase.nullable_iff]
  constructor
  · rintro ⟨ps, hwalks, hps⟩
    obtain ⟨qs, rs, rfl, hqs, hrest⟩ := (walks_entry h).1 hwalks
    obtain ⟨hfirst, hbehind⟩ := List.forall_mem_append.1 hps
    exact ⟨⟨qs, hqs, hfirst⟩, rs, hrest, hbehind⟩
  · rintro ⟨⟨qs, hqs, hfirst⟩, rs, hrest, hbehind⟩
    exact ⟨qs ++ rs, (walks_entry h).2 ⟨qs, rs, rfl, hqs, hrest⟩,
      List.forall_mem_append.2 ⟨hfirst, hbehind⟩⟩

theorem deletableChain_entry_iff (h : g.Shows e k up) (hnodup : e.nodes.Nodup)
    (hfinite : g.Finite e k) (hk : g.deletableChain k = true ↔ g.Skips k) :
    g.deletableChain (some e.entry) = true ↔ g.Skips (some e.entry) := by
  rw [deletableChain_entry h hnodup hfinite, Bool.and_eq_true, hk, skips_entry h]

/-- From every node of a phrase, deletability finds the walks that read nothing, if it does so behind
the phrase. -/
theorem deletableChain_mem_iff (h : g.Shows e k up) (hnodup : e.nodes.Nodup)
    (hfinite : g.Finite e k) (hk : g.deletableChain k = true ↔ g.Skips k) (hp : p ∈ e.nodes) :
    g.deletableChain (some p) = true ↔ g.Skips (some p) := by
  induction e generalizing k up with
  | leaf q =>
    rw [List.mem_singleton.1 hp]
    exact deletableChain_entry_iff (e := .leaf q) h hnodup hfinite hk
  | seq a b iha ihb =>
    obtain ⟨ha, hb, _⟩ := List.nodup_append'.1 hnodup
    have hbehind : g.Finite b k := hfinite.part (by simp [Phrase.nodes])
    rcases List.mem_append.1 hp with hp | hp
    · exact iha h.1 ha (hfinite.first h) (deletableChain_entry_iff h.2 hb hbehind hk) hp
    · exact ihb h.2 hb hbehind hk hp
  | arm q e ih =>
    rcases List.mem_cons.1 hp with rfl | hp
    · exact deletableChain_entry_iff (e := .arm p e) h hnodup hfinite hk
    · exact ih h.2 (List.nodup_cons.1 hnodup).2 (hfinite.part (by simp [Phrase.nodes])) hk hp
  | alt q e r ihe ihr =>
    obtain ⟨he, hr, _⟩ := List.nodup_append'.1 (List.nodup_cons.1 hnodup).2
    rcases List.mem_cons.1 hp with rfl | hp
    · exact deletableChain_entry_iff (e := .alt p e r) h hnodup hfinite hk
    · rcases List.mem_append.1 hp with hp | hp
      · exact ihe h.2.2.1 he (hfinite.part (by simp [Phrase.nodes]; omega)) hk hp
      · exact ihr h.2.2.2 hr (hfinite.part (by simp [Phrase.nodes]; omega)) hk hp
  | opt q e ih =>
    rcases List.mem_cons.1 hp with rfl | hp
    · exact deletableChain_entry_iff (e := .opt p e) h hnodup hfinite hk
    · exact ih h.2 (List.nodup_cons.1 hnodup).2 (hfinite.part (by simp [Phrase.nodes])) hk hp
  | iter q e ih =>
    have hloop := deletableChain_entry_iff (e := .iter q e) h hnodup hfinite hk
    rcases List.mem_cons.1 hp with rfl | hp
    · exact hloop
    · -- what follows the body is the iteration itself
      exact ih h.2 (List.nodup_cons.1 hnodup).2 (hfinite.round h) hloop hp

/-- In a closed phrase, a node is deletable to the very end if there is a walk that reads nothing. -/
theorem deletableChain_iff_skips (h : g.Shows e none up) (hnodup : e.nodes.Nodup)
    (hp : p ∈ e.nodes) : g.deletableChain (some p) = true ↔ g.Skips (some p) :=
  deletableChain_mem_iff h hnodup (h.finite hnodup) (iff_of_true deletableChain_none skips_none) hp

/-! ## Walks without leaves -/

theorem nullable_leafDeletable (hreads : e.ReadsAll g) :
    e.nullable g.leafDeletable = e.nullable fun _ => false := by
  induction e with
  | leaf p => exact leafDeletable_of_reads hreads
  | seq a b iha ihb => rw [Phrase.nullable, Phrase.nullable, iha hreads.1, ihb hreads.2]
  | arm p e ih => exact ih hreads
  | alt p e r ihe ihr => rw [Phrase.nullable, Phrase.nullable, ihe hreads.1, ihr hreads.2]
  | opt | iter => rfl

theorem walks_entry_nil (h : g.Shows e k up) :
    g.Walks (some e.entry) [] ↔ e.nullable (fun _ => false) = true ∧ g.Walks k [] := by
  rw [walks_entry h, ← Phrase.nil_mem_walks]
  constructor
  · rintro ⟨qs, rs, heq, hqs, hrest⟩
    obtain ⟨rfl, rfl⟩ := List.append_eq_nil_iff.1 heq.symm
    exact ⟨hqs, hrest⟩
  · rintro ⟨hnil, hrest⟩
    exact ⟨[], [], rfl, hnil, hrest⟩

/-- The leaves on a walk from a node of a closed phrase belong to the phrase. -/
theorem Shows.leaf_of_mem_walk {r : Option NodeId} (h : g.Shows e none up)
    (hwalk : g.Walk n r ps) (hr : ∀ p ∈ r, p ∈ e.nodes) :
    ∀ q ∈ ps, q ∈ e.nodes ∧ (g.node q).kind.isLeaf = true := by
  have hnext : ∀ {p}, p ∈ e.nodes → ∀ q ∈ (g.node p).next, q ∈ e.nodes := fun hp q hq =>
    (h.mem_of_next hp hq).resolve_right nofun
  induction hwalk with
  | done => exact nofun
  | leaf hkind _ ih =>
    exact List.forall_mem_cons.2 ⟨⟨hr _ rfl, hkind⟩, ih (hnext (hr _ rfl))⟩
  | behind _ _ ih => exact ih (hnext (hr _ rfl))
  | inside _ hsub _ ih =>
    exact ih fun _ hq => Option.some.inj hq ▸ h.mem_of_contents (hr _ rfl) (.inl hsub)
  | other _ hdown _ ih =>
    exact ih fun _ hq => Option.some.inj hq ▸ h.mem_of_contents (hr _ rfl) (.inr hdown)

theorem Shows.reads_of_mem (h : g.Shows e k up) (hreads : e.ReadsAll g) (hp : p ∈ e.nodes)
    (hleaf : (g.node p).kind.isLeaf = true) : (g.node p).kind.reads?.isSome = true := by
  induction e generalizing k up with
  | leaf q => exact List.mem_singleton.1 hp ▸ hreads
  | seq a b iha ihb =>
    rcases List.mem_append.1 hp with hp | hp
    · exact iha h.1 hreads.1 hp
    · exact ihb h.2 hreads.2 hp
  | arm q e ih | opt q e ih | iter q e ih =>
    rcases List.mem_cons.1 hp with rfl | hp
    · simp [h.1.kind_eq, NodeKind.isLeaf] at hleaf
    · exact ih h.2 hreads hp
  | alt q e r ihe ihr =>
    rcases List.mem_cons.1 hp with rfl | hp
    · simp [h.2.1.kind_eq, NodeKind.isLeaf] at hleaf
    · rcases List.mem_append.1 hp with hp | hp
      · exact ihe h.2.2.1 hreads.1 hp
      · exact ihr h.2.2.2 hreads.2 hp

/-- Where all leaves read, a walk that reads nothing is one without leaves. -/
theorem Shows.skips_iff (h : g.Shows e none up) (hreads : e.ReadsAll g) (hp : p ∈ e.nodes) :
    g.Skips (some p) ↔ g.Walks (some p) [] := by
  constructor
  · rintro ⟨ps, ⟨n, hwalk⟩, hps⟩
    have hleaf := h.leaf_of_mem_walk hwalk fun q hq => Option.some.inj hq ▸ hp
    have hnil : ps = [] := by
      refine List.eq_nil_iff_forall_not_mem.2 fun q hq => ?_
      have hread := leafDeletable_of_reads (h.reads_of_mem hreads (hleaf q hq).1 (hleaf q hq).2)
      rw [hps q hq] at hread
      cases hread
    exact ⟨n, hnil ▸ hwalk⟩
  · exact fun hwalks => ⟨[], hwalks, by simp⟩

/-- In a closed phrase whose leaves all read, a node is deletable to the very end if there is a walk
without leaves. -/
theorem deletableChain_iff (h : g.Shows e none up) (hnodup : e.nodes.Nodup) (hreads : e.ReadsAll g)
    (hp : p ∈ e.nodes) : g.deletableChain (some p) = true ↔ g.Walks (some p) [] := by
  rw [deletableChain_iff_skips h hnodup hp, h.skips_iff hreads hp]

end Grammar

end Ebnf
