import Ebnf.Proofs.Analysis.Sets
import Ebnf.Proofs.Check.Lookahead

/-!
# Grammars without conflicts are unambiguous

A derivation is a tree of choices: which arm of an alternative is taken, whether
an option is entered, how often an iteration is repeated.  Two derivations of one
text agree up to a choice that they make differently.  There the next terminal
would begin both ways to go on, which is a conflict.

The text may end within the production of a nonterminal, so the argument is about
a derivation and a rest of the text that can come behind it.

Main results:

- Theorem `Grammar.Analysed.comes_append`: what a part derives, and what can come behind it,
  can come where the part begins.
- Theorem `Grammar.Analysed.tree_eq`: where the next terminal decides, a part derives a text
  in one way only.
- Theorem `Grammar.Orderly.derivation_unique`: if the checks find no conflict, every text
  has at most one derivation.
-/

namespace Ebnf

/-- The choices made in a derivation. -/
inductive Tree
  /-- a leaf that is no reference -/
  | leaf
  /-- a reference, and the choices made in the production -/
  | call (t : Tree)
  | seq (a b : Tree)
  /-- the first arm is taken -/
  | this (t : Tree)
  /-- one of the further arms is taken -/
  | other (t : Tree)
  | skip
  | enter (t : Tree)
  | leave
  | again (t rest : Tree)
  deriving DecidableEq, Repr

/-- Whether nodes of this kind stand for terminals, nonterminals, structures or nothing, and are
decided by look-ahead alone. -/
def NodeKind.isPlain : NodeKind → Bool
  | .terminal _ | .weak _ | .nonterminal _ | .eps | .action | .sync | .alt | .opt | .iter => true
  | _ => false

namespace Grammar

variable {g g' : Grammar} {pool : List Phrase} {a b e r f : Phrase} {k : Option NodeId} {up : Bool}
  {s cur : SymbolId} {p q : NodeId} {n : Nat} {t t' : Tree} {w w' v v' : List Nat}

/-- A phrase derives a text, given by the numbers of its terminals, with the choices of a tree. -/
inductive Parses (g : Grammar) (pool : List Phrase) : Phrase → Tree → List Nat → Prop
  | silent {p : NodeId} (h : g.letters p = []) : Parses g pool (.leaf p) .leaf []
  | read {p : NodeId} {n : Nat} (h : g.letters p = [.terminal n]) :
      Parses g pool (.leaf p) .leaf [n]
  | call {p : NodeId} {s : SymbolId} {e : Phrase} {t : Tree} {w : List Nat}
      (h : g.letters p = [.nonterminal s]) (he : e ∈ pool)
      (hprod : (g.sym s).production = some e.entry) (hbody : Parses g pool e t w) :
      Parses g pool (.leaf p) (.call t) w
  | seq {a b : Phrase} {ta tb : Tree} {wa wb : List Nat} (ha : Parses g pool a ta wa)
      (hb : Parses g pool b tb wb) : Parses g pool (.seq a b) (.seq ta tb) (wa ++ wb)
  | last {p : NodeId} {e : Phrase} {t : Tree} {w : List Nat} (he : Parses g pool e t w) :
      Parses g pool (.arm p e) (.this t) w
  | this {p : NodeId} {e r : Phrase} {t : Tree} {w : List Nat} (he : Parses g pool e t w) :
      Parses g pool (.alt p e r) (.this t) w
  | other {p : NodeId} {e r : Phrase} {t : Tree} {w : List Nat} (hr : Parses g pool r t w) :
      Parses g pool (.alt p e r) (.other t) w
  | skip {p : NodeId} {e : Phrase} : Parses g pool (.opt p e) .skip []
  | enter {p : NodeId} {e : Phrase} {t : Tree} {w : List Nat} (he : Parses g pool e t w) :
      Parses g pool (.opt p e) (.enter t) w
  | leave {p : NodeId} {e : Phrase} : Parses g pool (.iter p e) .leave []
  | again {p : NodeId} {e : Phrase} {t rest : Tree} {w wr : List Nat} (he : Parses g pool e t w)
      (hrest : Parses g pool (.iter p e) rest wr) : Parses g pool (.iter p e) (.again t rest) (w ++ wr)

/-- A nonterminal derives a text with the choices of a tree. -/
def Yields (g : Grammar) (pool : List Phrase) (s : SymbolId) (t : Tree) (w : List Nat) : Prop :=
  ∃ e ∈ pool, (g.sym s).production = some e.entry ∧ g.Parses pool e t w

theorem SameRules.parses (h : g.SameRules g') (hparse : g.Parses pool e t w) :
    g'.Parses pool e t w := by
  induction hparse with
  | silent hp => exact .silent (h.letters_eq ▸ hp)
  | read hp => exact .read (h.letters_eq ▸ hp)
  | call hp he hprod _ ih => exact .call (h.letters_eq ▸ hp) he ((h.production_eq _).trans hprod) ih
  | seq _ _ iha ihb => exact .seq iha ihb
  | last _ ih => exact .last ih
  | this _ ih => exact .this ih
  | other _ ih => exact .other ih
  | skip => exact .skip
  | enter _ ih => exact .enter ih
  | leave => exact .leave
  | again _ _ ih ihrest => exact .again ih ihrest

theorem SameRules.yields (h : g.SameRules g') (hyields : g.Yields pool s t w) :
    g'.Yields pool s t w := by
  obtain ⟨e, he, hprod, hparse⟩ := hyields
  exact ⟨e, he, (h.production_eq s).trans hprod, h.parses hparse⟩

/-! ## Leaves -/

theorem kind_of_letters (h : g.letters p = [.nonterminal s]) :
    (g.node p).kind = .nonterminal s := by
  unfold letters at h
  split at h <;> simp_all

theorem mem_ownTerminals_of_letters (h : g.letters p = [.terminal n]) : n ∈ g.ownTerminals p := by
  unfold letters at h
  unfold ownTerminals
  split at h <;> simp_all

theorem leafDeletable_of_letters (h : g.letters p = []) : g.leafDeletable p = true :=
  leafDeletable_iff.2 (by simp [h])

/-! ## Parts of productions -/

/-- A phrase that is a part of the production of `cur`; what follows it is `k`. -/
structure PartOf (g : Grammar) (pool : List Phrase) (cur : SymbolId) (e : Phrase)
    (k : Option NodeId) (up : Bool) : Prop where
  shows : g.Shows e k up
  nodup : e.nodes.Nodup
  finite : g.Finite e k
  mem : ∀ p ∈ e.nodes, g.InProduction pool cur p
  behind : ∀ p ∈ k, g.InProduction pool cur p

theorem Composed.partOf (h : g.Composed pool) (he : e ∈ pool)
    (hprod : (g.sym s).production = some e.entry) : g.PartOf pool s e none false where
  shows := h.shows_of_mem he
  nodup := h.nodup he
  finite := (h.shows_of_mem he).finite (h.nodup he)
  mem _ hp := ⟨e, he, hprod, hp⟩
  behind := nofun

namespace PartOf

theorem first (h : g.PartOf pool cur (.seq a b) k up) : g.PartOf pool cur a (some b.entry) false where
  shows := h.shows.1
  nodup := (List.nodup_append'.1 h.nodup).1
  finite := h.finite.first h.shows
  mem p hp := h.mem p (List.mem_append_left _ hp)
  behind p hp := by
    obtain rfl := Option.some.inj hp
    exact h.mem _ (List.mem_append_right _ b.entry_mem_nodes)

/-- A part that is followed by what follows the whole. -/
theorem part {up' : Bool} (h : g.PartOf pool cur e k up) (hshows : g.Shows a k up')
    (hsub : a.nodes.Sublist e.nodes) : g.PartOf pool cur a k up' where
  shows := hshows
  nodup := h.nodup.sublist hsub
  finite := h.finite.part hsub.length_le
  mem p hp := h.mem p (hsub.subset hp)
  behind := h.behind

theorem second (h : g.PartOf pool cur (.seq a b) k up) : g.PartOf pool cur b k up :=
  h.part h.shows.2 (List.sublist_append_right _ _)

theorem last (h : g.PartOf pool cur (.arm p e) k up) : g.PartOf pool cur e k true :=
  h.part h.shows.2 (List.sublist_cons_self _ _)

theorem this (h : g.PartOf pool cur (.alt p e r) k up) : g.PartOf pool cur e k true :=
  h.part h.shows.2.2.1 ((List.sublist_append_left _ _).cons _)

theorem other (h : g.PartOf pool cur (.alt p e r) k up) : g.PartOf pool cur r k true :=
  h.part h.shows.2.2.2 ((List.sublist_append_right _ _).cons _)

theorem inner (h : g.PartOf pool cur (.opt p e) k up) : g.PartOf pool cur e k true :=
  h.part h.shows.2 (List.sublist_cons_self _ _)

theorem round (h : g.PartOf pool cur (.iter p e) k up) : g.PartOf pool cur e (some p) true where
  shows := h.shows.2
  nodup := (List.nodup_cons.1 h.nodup).2
  finite := h.finite.round h.shows
  mem p hp := h.mem p (List.mem_cons_of_mem _ hp)
  behind q hq := by
    obtain rfl := Option.some.inj hq
    exact h.mem _ List.mem_cons_self

/-- A derivation of an alternative is one of the contents of an arm. -/
theorem exists_body (h : g.PartOf pool cur r k up) (harms : r.isArms = true)
    (hparse : g.Parses pool r t w) :
    ∃ f ∈ r.bodies, g.PartOf pool cur f k true ∧ ∃ t', g.Parses pool f t' w := by
  induction r generalizing up t with
  | leaf | seq | opt | iter => cases harms
  | arm p e _ =>
    cases hparse with
    | last he => exact ⟨e, List.mem_singleton.2 rfl, h.last, _, he⟩
  | alt p e r _ ihr =>
    cases hparse with
    | this he => exact ⟨e, List.mem_cons_self, h.this, _, he⟩
    | other hr =>
      obtain ⟨f, hf, hpart⟩ := ihr h.other harms hr
      exact ⟨f, List.mem_cons_of_mem e hf, hpart⟩

end PartOf

/-! ## What can come next -/

theorem mem_expected : n ∈ g.expected k cur ↔
    n ∈ g.first k ∨ g.deletableChain k = true ∧ n ∈ (g.sym cur).follow := by
  unfold expected
  by_cases hdel : g.deletableChain k = true <;> simp [hdel]

/-- In the production of `cur` the text can come at a place, as its first terminal shows. -/
def Comes (g : Grammar) (cur : SymbolId) (k : Option NodeId) (v : List Nat) : Prop :=
  ∃ n ∈ v.head?, n ∈ g.expected k cur

theorem Apart.not_comes (h : g.Apart cur e k) (hin : g.Comes cur (some e.entry) v)
    (hout : g.Comes cur k v) : False := by
  obtain ⟨n, hn, hin⟩ := hin
  obtain ⟨n', hn', hout⟩ := hout
  obtain rfl := Option.some.inj (hn.symm.trans hn')
  exact h n hin hout

namespace Analysed

variable (h : g.Analysed pool)
include h

theorem mem_first_iff_of_inProduction (hp : g.InProduction pool cur p) :
    n ∈ g.first (some p) ↔ g.CanBegin n p := by
  obtain ⟨e, he, _, hp⟩ := hp
  exact h.toComposed.mem_first_iff h.exact he hp

/-- A part that derives the empty text is nullable. -/
theorem nullable_of_parses (hpart : g.PartOf pool cur e k up) (hparse : g.Parses pool e t w)
    (hw : w = []) : e.nullable g.leafDeletable = true := by
  induction hparse generalizing cur k up with
  | silent hp => exact leafDeletable_of_letters hp
  | read => cases hw
  | @call p s e t w hp he hprod _ ih =>
    obtain ⟨f, hf, _, hpf⟩ := hpart.mem p List.mem_cons_self
    have hkind := kind_of_letters hp
    have hdue : g.Due s := by
      rw [Due, hprod, h.deletableChain_entry he]
      exact ⟨rfl, ih (h.partOf he hprod) hw⟩
    rw [Phrase.nullable, leafDeletable, hkind]
    exact h.closed s (h.mem_of_kind hf hpf hkind) hdue
  | seq _ _ iha ihb =>
    obtain ⟨hwa, hwb⟩ := List.append_eq_nil_iff.1 hw
    rw [Phrase.nullable, iha hpart.first hwa, ihb hpart.second hwb, Bool.and_self]
  | last _ ih => exact ih hpart.last hw
  | this _ ih => rw [Phrase.nullable, ih hpart.this hw, Bool.true_or]
  | other _ ih => rw [Phrase.nullable, ih hpart.other hw, Bool.or_true]
  | skip | enter | leave | again => rfl

/-- From the first node of a part one gets to the first terminal that it derives. -/
theorem canBegin_of_parses (hpart : g.PartOf pool cur e k up) (hparse : g.Parses pool e t w)
    (hw : n ∈ w.head?) : g.CanBegin n e.entry := by
  induction hparse generalizing cur k up with
  | silent | skip | leave => cases hw
  | read hp =>
    obtain rfl := Option.some.inj hw
    exact ⟨0, .own (mem_ownTerminals_of_letters hp)⟩
  | call hp he hprod _ ih =>
    refine .inside ?_ (ih (h.partOf he hprod) hw)
    rw [Phrase.entry, within, kind_of_letters hp]
    exact Option.mem_toList.2 hprod
  | @seq a b ta tb wa wb ha hb iha ihb =>
    cases wa with
    | nil =>
      -- the first part is passed, and the terminal comes from the second one
      have hnull := h.nullable_of_parses hpart.first ha rfl
      have hbehind := ihb hpart.second hw
      exact @canBegin_of_nullable g a _ _ n hpart.first.shows hpart.first.nodup hnull hbehind
    | cons => exact iha hpart.first hw
  | last _ ih =>
    exact .inside ((mem_within_alt hpart.shows.1.kind_eq).2 (.inl hpart.shows.1.sub_eq))
      (ih hpart.last hw)
  | this _ ih =>
    exact .inside ((mem_within_alt hpart.shows.2.1.kind_eq).2 (.inl hpart.shows.2.1.sub_eq))
      (ih hpart.this hw)
  | other _ ih =>
    exact .inside ((mem_within_alt hpart.shows.2.1.kind_eq).2 (.inr hpart.shows.2.1.down_eq))
      (ih hpart.other hw)
  | enter _ ih =>
    exact .inside ((mem_within_group (.inl hpart.shows.1.kind_eq)).2 hpart.shows.1.sub_eq)
      (ih hpart.inner hw)
  | @again p e t rest w wr _ _ ih ihrest =>
    cases w with
    | nil => exact ihrest hpart hw
    | cons =>
      exact .inside ((mem_within_group (.inr hpart.shows.1.kind_eq)).2 hpart.shows.1.sub_eq)
        (ih hpart.round hw)

/-- What a part derives, and what can come behind it, can come where the part begins. -/
theorem comes_append (hpart : g.PartOf pool cur e k up) (hparse : g.Parses pool e t w)
    (hv : g.Comes cur k v) : g.Comes cur (some e.entry) (w ++ v) := by
  have hentry := hpart.mem _ e.entry_mem_nodes
  cases w with
  | cons n w =>
    refine ⟨n, rfl, mem_expected.2 (.inl ?_)⟩
    exact (h.mem_first_iff_of_inProduction hentry).2 (h.canBegin_of_parses hpart hparse rfl)
  | nil =>
    have hnull := h.nullable_of_parses hpart hparse rfl
    obtain ⟨n, hn, hexp⟩ := hv
    refine ⟨n, hn, mem_expected.2 ?_⟩
    rcases mem_expected.1 hexp with hfirst | ⟨hdel, hfollow⟩
    · left
      cases k with
      | none => exact absurd hfirst not_mem_first_none
      | some q =>
        have hq := (h.mem_first_iff_of_inProduction (hpart.behind q rfl)).1 hfirst
        refine (h.mem_first_iff_of_inProduction hentry).2 ?_
        exact canBegin_of_nullable hpart.shows hpart.nodup hnull hq
    · right
      rw [deletableChain_entry hpart.shows hpart.nodup hpart.finite, hnull, hdel]
      exact ⟨rfl, hfollow⟩

/-- What can come behind a reference can come behind the production. -/
theorem comes_of_reference (hcur : cur ∈ g.nonterminals) (hpart : g.PartOf pool cur (.leaf p) k up)
    (hkind : (g.node p).kind = .nonterminal s) (hv : g.Comes cur k v) : g.Comes s none v := by
  obtain ⟨n, hn, hexp⟩ := hv
  have href : g.ReferenceIn pool cur p s := ⟨hcur, hpart.mem p List.mem_cons_self, hkind⟩
  have hnext : (g.node p).next = k := hpart.shows.2.next_eq
  refine ⟨n, hn, mem_expected.2 (.inr ⟨deletableChain_none, ?_⟩)⟩
  rcases mem_expected.1 hexp with hfirst | ⟨hdel, hfollow⟩
  · exact h.solution.first cur p s href n (hnext ▸ hfirst)
  · exact h.solution.inherit cur p s href (hnext ▸ hdel) n hfollow

/-! ## Two derivations -/

/-- The next terminal tells an arm of an alternative from the further ones. -/
theorem not_this_and_other (hpart : g.PartOf pool cur (.alt p e r) k up)
    (hchoices : g.Decided cur (.alt p e r) k) (he : g.Parses pool e t w)
    (hr : g.Parses pool r t' w') (hv : g.Comes cur k v) (hv' : g.Comes cur k v')
    (heq : w ++ v = w' ++ v') : False := by
  obtain ⟨f, hf, hpartf, _, hf'⟩ := hpart.other.exists_body hpart.shows.1 hr
  have hin := h.comes_append hpart.this he hv
  rw [heq] at hin
  exact (hchoices.1 f hf).not_comes hin (h.comes_append hpartf hf' hv')

/-- It tells the contents of an option from what follows. -/
theorem not_enter_and_skip (hpart : g.PartOf pool cur (.opt p e) k up)
    (hchoices : g.Decided cur (.opt p e) k) (he : g.Parses pool e t w) (hv : g.Comes cur k v)
    (hv' : g.Comes cur k v') (heq : w ++ v = v') : False := by
  have hin := h.comes_append hpart.inner he hv
  rw [heq] at hin
  exact hchoices.1.not_comes hin hv'

/-- It tells the contents of an iteration from what follows. -/
theorem not_again_and_leave (hpart : g.PartOf pool cur (.iter p e) k up)
    (hchoices : g.Decided cur (.iter p e) k) (he : g.Parses pool e t w)
    (hrest : g.Parses pool (.iter p e) t' w') (hv : g.Comes cur k v) (hv' : g.Comes cur k v')
    (heq : w ++ w' ++ v = v') : False := by
  have hin := h.comes_append hpart.round he (h.comes_append hpart hrest hv)
  rw [← List.append_assoc, heq] at hin
  exact hchoices.1.not_comes hin hv'

variable (hdecided : ∀ s ∈ g.nonterminals, ∀ e ∈ pool, (g.sym s).production = some e.entry →
  g.Decided s e none)
include hdecided

/-- Where the next terminal decides, a part derives the front of a text in one way only. -/
theorem tree_eq (hcur : cur ∈ g.nonterminals) (hpart : g.PartOf pool cur e k up)
    (hchoices : g.Decided cur e k) (hparse : g.Parses pool e t w) (hparse' : g.Parses pool e t' w')
    (hv : g.Comes cur k v) (hv' : g.Comes cur k v') (heq : w ++ v = w' ++ v') : t = t' ∧ w = w' := by
  induction hparse generalizing cur k up t' w' v v' with
  | silent hp =>
    cases hparse' with
    | silent => exact ⟨rfl, rfl⟩
    | read hp' | call hp' => simp [hp] at hp'
  | read hp =>
    cases hparse' with
    | read hp' =>
      obtain rfl : _ = _ := by simpa [hp] using hp'
      exact ⟨rfl, rfl⟩
    | silent hp' | call hp' => simp [hp] at hp'
  | @call p s e t w hp he hprod _ ih =>
    cases hparse' with
    | @call _ s' e' t' _ hp' he' hprod' hbody' =>
      obtain rfl : s = s' := by simpa [hp] using hp'
      obtain hentry := Option.some.inj (hprod.symm.trans hprod')
      obtain rfl := h.eq_of_mem he he' e.entry_mem_nodes (hentry ▸ e'.entry_mem_nodes)
      have hkind := kind_of_letters hp
      obtain ⟨f, hf, _, hpf⟩ := hpart.mem p List.mem_cons_self
      have hs := h.mem_of_kind hf hpf hkind
      obtain ⟨rfl, rfl⟩ := ih hs (h.partOf he hprod) (hdecided s hs e he hprod) hbody'
        (h.comes_of_reference hcur hpart hkind hv) (h.comes_of_reference hcur hpart hkind hv') heq
      exact ⟨rfl, rfl⟩
    | silent hp' | read hp' => simp [hp] at hp'
  | seq ha hb iha ihb =>
    cases hparse' with
    | seq ha' hb' =>
      have hbehind := h.comes_append hpart.second hb hv
      have hbehind' := h.comes_append hpart.second hb' hv'
      simp only [List.append_assoc] at heq
      obtain ⟨rfl, rfl⟩ := iha hcur hpart.first hchoices.1 ha' hbehind hbehind' heq
      obtain ⟨rfl, rfl⟩ := ihb hcur hpart.second hchoices.2 hb' hv hv' (List.append_cancel_left heq)
      exact ⟨rfl, rfl⟩
  | last _ ih =>
    cases hparse' with
    | last he' =>
      obtain ⟨rfl, rfl⟩ := ih hcur hpart.last hchoices he' hv hv' heq
      exact ⟨rfl, rfl⟩
  | this he ih =>
    cases hparse' with
    | this he' =>
      obtain ⟨rfl, rfl⟩ := ih hcur hpart.this hchoices.2.1 he' hv hv' heq
      exact ⟨rfl, rfl⟩
    | other hr' =>
      exact (h.not_this_and_other hpart hchoices he hr' hv hv' heq).elim
  | other hr ih =>
    cases hparse' with
    | this he' =>
      exact (h.not_this_and_other hpart hchoices he' hr hv' hv heq.symm).elim
    | other hr' =>
      obtain ⟨rfl, rfl⟩ := ih hcur hpart.other hchoices.2.2 hr' hv hv' heq
      exact ⟨rfl, rfl⟩
  | skip =>
    cases hparse' with
    | skip => exact ⟨rfl, rfl⟩
    | enter he' => exact (h.not_enter_and_skip hpart hchoices he' hv' hv heq.symm).elim
  | enter he ih =>
    cases hparse' with
    | skip => exact (h.not_enter_and_skip hpart hchoices he hv hv' heq).elim
    | enter he' =>
      obtain ⟨rfl, rfl⟩ := ih hcur hpart.inner hchoices.2 he' hv hv' heq
      exact ⟨rfl, rfl⟩
  | leave =>
    cases hparse' with
    | leave => exact ⟨rfl, rfl⟩
    | again he' hrest' =>
      exact (h.not_again_and_leave hpart hchoices he' hrest' hv' hv heq.symm).elim
  | again he hrest ih ihrest =>
    cases hparse' with
    | leave => exact (h.not_again_and_leave hpart hchoices he hrest hv hv' heq).elim
    | again he' hrest' =>
      have hbehind := h.comes_append hpart hrest hv
      have hbehind' := h.comes_append hpart hrest' hv'
      simp only [List.append_assoc] at heq
      obtain ⟨rfl, rfl⟩ := ih hcur hpart.round hchoices.2 he' hbehind hbehind' heq
      obtain ⟨rfl, rfl⟩ := ihrest hcur hpart hchoices hrest' hv hv' (List.append_cancel_left heq)
      exact ⟨rfl, rfl⟩

theorem eq_of_yields (hstart : g.start = some s) (hyields : g.Yields pool s t w)
    (hyields' : g.Yields pool s t' w) : t = t' := by
  have hs := h.start s hstart
  -- the text is followed by the end of the input
  have hend : g.Comes s none [(g.sym g.eof).number] :=
    ⟨_, rfl, mem_expected.2 (.inr ⟨deletableChain_none, h.solution.eof s hstart⟩)⟩
  obtain ⟨e, he, hprod, hparse⟩ := hyields
  obtain ⟨e', he', hprod', hparse'⟩ := hyields'
  obtain hentry := Option.some.inj (hprod.symm.trans hprod')
  obtain rfl := h.eq_of_mem he he' e.entry_mem_nodes (hentry ▸ e'.entry_mem_nodes)
  exact (h.tree_eq hdecided hs (h.partOf he hprod) (hdecided s hs e he hprod) hparse hparse' hend
    hend rfl).1

end Analysed

/-! ## Checked grammars -/

/-- All productions are made of plain nodes. -/
def Plain (g : Grammar) (pool : List Phrase) : Prop :=
  ∀ s ∈ g.nonterminals, ∀ p, g.InProduction pool s p → (g.node p).kind.isPlain = true

theorem Plain.withoutAny (h : g.Plain pool) : g.WithoutAny pool := by
  intro s hs p hp hkind
  have hplain := h s hs p hp
  rw [hkind] at hplain
  cases hplain

/-- In a production without conflicts the next terminal decides. -/
theorem Composed.decided (h : g.Composed pool) (hplain : g.Plain pool)
    (hquiet : g.lookaheadConflicts = []) (hs : s ∈ g.nonterminals) (he : e ∈ pool)
    (hprod : (g.sym s).production = some e.entry) : g.Decided s e none := by
  have hres : ∀ p ∈ e.nodes, (g.node p).kind ≠ .resolver := by
    intro p hp hkind
    have hp := hplain s hs p ⟨e, he, hprod, hp⟩
    rw [hkind] at hp
    cases hp
  have hshows := h.shows_of_mem he
  have hout := List.flatMap_eq_nil_iff.1 hquiet s hs
  rw [hprod, outline_entry hshows (h.nodup he) (.inr rfl)] at hout
  exact ((decided_of_conflicts hshows hres).1 hout).1

theorem Analysed.reportAll (h : g.Analysed pool) (ds : List Diagnostic) :
    (g.reportAll ds).Analysed pool := by
  have hsame : g.SameFirsts (g.reportAll ds) := ⟨.reportAll ds, fun _ => rfl⟩
  exact ⟨h.congr hsame.toSameRules, h.closed.congr hsame.toSameRules hsame.deletable_eq,
    hsame.knownExact h.exact, hsame.followSolution h.solution⟩

/-- If the checks find no conflict, every text has at most one derivation. -/
theorem Orderly.derivation_unique (h : g.Orderly pool) (hplain : g.Plain pool)
    (hok : g.computeSets.checkAll.1 = true)
    (hquiet : g.computeSets.checkAll.2.diags.countP Diagnostic.isConflict =
      g.computeSets.diags.countP Diagnostic.isConflict)
    (hstart : g.start = some s) (hyields : g.Yields pool s t w) (hyields' : g.Yields pool s t' w) :
    t = t' := by
  obtain ⟨ds, hnone⟩ := lookaheadConflicts_eq_nil hok hquiet
  have hrules := (h.computeSets_sameRules hplain.withoutAny).trans (.reportAll ds)
  have hanalysed := (h.analysed_computeSets hplain.withoutAny).reportAll ds
  generalize g.computeSets.reportAll ds = g' at hnone hrules hanalysed
  have hplain' : g'.Plain pool := by
    unfold Plain InProduction
    simp only [hrules.nonterminals_eq, hrules.production_eq, hrules.kind_eq]
    exact hplain
  exact hanalysed.eq_of_yields (fun s hs e he => hanalysed.decided hplain' hnone hs he)
    (hrules.start_eq.trans hstart) (hrules.yields hyields) (hrules.yields hyields')

/-- The derivation of the text `a b a` in the productions `A = a B` and `B = [ b A ]`. -/
def alternatingTree : Tree :=
  .seq .leaf (.call (.enter (.seq .leaf (.call (.seq .leaf (.call .skip))))))

theorem alternating_yields : alternating.Yields alternatingPhrases 3 alternatingTree [1, 2, 1] := by
  have hB : alternating.Parses alternatingPhrases (.opt 4 (.seq (.leaf 2) (.leaf 3))) .skip [] := .skip
  have hinner : alternating.Parses alternatingPhrases (.seq (.leaf 0) (.leaf 1))
      (.seq .leaf (.call .skip)) [1] :=
    .seq (.read (by decide)) (.call (s := 2) (by decide) (by decide) (by decide) hB)
  have hopt : alternating.Parses alternatingPhrases (.opt 4 (.seq (.leaf 2) (.leaf 3)))
      (.enter (.seq .leaf (.call (.seq .leaf (.call .skip))))) [2, 1] :=
    .enter (.seq (.read (by decide)) (.call (s := 3) (by decide) (by decide) (by decide) hinner))
  exact ⟨.seq (.leaf 0) (.leaf 1), by decide, by decide,
    .seq (.read (by decide)) (.call (s := 2) (by decide) (by decide) (by decide) hopt)⟩

theorem alternating_plain : alternating.Plain alternatingPhrases := by
  have hnodes : ∀ e ∈ alternatingPhrases, ∀ p ∈ e.nodes, (alternating.node p).kind.isPlain = true := by
    decide
  rintro s _ p ⟨e, he, _, hp⟩
  exact hnodes e he p hp

theorem Orderly.derivation_unique_alternating :
    alternating.Orderly alternatingPhrases ∧ alternating.Plain alternatingPhrases ∧
      alternating.computeSets.checkAll.1 = true ∧
      alternating.Yields alternatingPhrases 3 alternatingTree [1, 2, 1] ∧
      ∀ t, alternating.Yields alternatingPhrases 3 t [1, 2, 1] → alternatingTree = t :=
  have hok : alternating.computeSets.checkAll.1 = true := by decide
  ⟨alternating_orderly, alternating_plain, hok, alternating_yields, fun _ ht =>
    alternating_orderly.derivation_unique alternating_plain hok (by decide) (by decide)
      alternating_yields ht⟩

end Grammar

end Ebnf
