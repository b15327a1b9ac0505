import Ebnf.Proofs.Grammar.Rules
import Ebnf.Selection

/-!
# Registered sets

While a parser is written, the indices of sets and tests for the next terminal are asked
for.  Sets are only ever appended, so what an index stands for does not change once it is
handed out.  A set is registered only if no registered set is equal to it, so that equal
sets share their index; the set with index 0, which is not searched, may be equal to
another one.  For a few terminals a test compares with each of them, and the set is not
registered for it.

Main results:

- Theorem `TestSets.register_spec`: the index of a set, while all others keep theirs.
- Theorems `TestSets.extends_serve` and `TestSets.extends_serveAll`: what requests leave alone.
- Theorem `TestSets.holds_test`: a test holds for the members of its set.
- Theorem `TestSets.serveAll_exact`: whatever is asked for, indices and tests stay valid.
-/

namespace Ebnf

variable {g : Grammar} {ts ts' ts'' : TestSets} {s s' : BitSet} {n i j : Nat}

/-- Terminals with different numbers are different. -/
theorem Grammar.terminal_inj {m n : Nat} (hm : m < g.terminals.length) (hn : n < g.terminals.length) :
    g.terminal m = g.terminal n ↔ m = n := by
  have hnodup : g.terminals.Nodup := List.nodup_range.filter _
  simp [terminal, List.getD_eq_getElem?_getD, hm, hn, hnodup.getElem_inj_iff]

/-! ## Requests -/

/-- What is asked for. -/
inductive Request
  /-- the index of a set -/
  | index (s : BitSet)
  /-- a test for the members of a set -/
  | test (s : BitSet)
  deriving DecidableEq, Repr

/-- A request and what it was answered. -/
inductive Reply
  | index (s : BitSet) (i : Nat)
  | test (s : BitSet) (t : Test)
  deriving DecidableEq, Repr

namespace Reply

/-- What was asked for. -/
def request : Reply → Request
  | index s _ => .index s
  | test s _ => .test s

/-- The index of a set is handed out, by itself or within a test. -/
inductive HandsOut : Reply → BitSet → Nat → Prop
  | index (s : BitSet) (i : Nat) : HandsOut (.index s i) s i
  | test (s : BitSet) (i : Nat) : HandsOut (.test s (.inSet i)) s i

end Reply

/-- The test holds if the next terminal is the one with the number `n`. -/
def Test.Holds (g : Grammar) (ts : TestSets) (n : Nat) : Test → Prop
  | .never => False
  | .oneOf ss => g.terminal n ∈ ss
  | .inSet i => ∃ s, ts.toList[i]? = some s ∧ n ∈ s

namespace TestSets

/-- Answers a request. -/
def serve (g : Grammar) (ts : TestSets) : Request → Reply × TestSets
  | .index s =>
    let (i, ts) := ts.register s
    (.index s i, ts)
  | .test s =>
    let (t, ts) := ts.test g s
    (.test s t, ts)

/-- Answers requests one after the other. -/
def serveAll (g : Grammar) (ts : TestSets) : List Request → List Reply × TestSets
  | [] => ([], ts)
  | q :: qs =>
    let (r, ts) := ts.serve g q
    let (rs, ts) := ts.serveAll g qs
    (r :: rs, ts)

/-- The first set stays, and sets may be appended. -/
structure Extends (ts ts' : TestSets) : Prop where
  sync_eq : ts'.sync = ts.sync
  registered : ts.registered <+: ts'.registered
  /-- no set is appended that is registered already -/
  nodup : ts.registered.Nodup → ts'.registered.Nodup

namespace Extends

theorem refl (ts : TestSets) : ts.Extends ts :=
  ⟨rfl, List.prefix_rfl, id⟩

theorem trans (h : ts.Extends ts') (h' : ts'.Extends ts'') : ts.Extends ts'' :=
  ⟨h'.sync_eq.trans h.sync_eq, h.registered.trans h'.registered, h'.nodup ∘ h.nodup⟩

/-- An index goes on standing for its set. -/
theorem getElem?_eq (h : ts.Extends ts') (hs : ts.toList[i]? = some s) :
    ts'.toList[i]? = some s := by
  obtain ⟨more, hmore⟩ := h.registered
  have hlist : ts'.toList = ts.toList ++ more := by simp [toList, h.sync_eq, ← hmore]
  obtain ⟨hlt, _⟩ := List.getElem?_eq_some_iff.1 hs
  rw [hlist, List.getElem?_append_left hlt, hs]

end Extends

/-- Behind the first set, different indices stand for different sets. -/
theorem index_eq_iff (hnodup : ts.registered.Nodup) (hi : ts.toList[i]? = some s)
    (hj : ts.toList[j]? = some s') (hposi : 1 ≤ i) (hposj : 1 ≤ j) : i = j ↔ s = s' := by
  obtain ⟨i, rfl⟩ := Nat.exists_eq_add_of_le' hposi
  obtain ⟨j, rfl⟩ := Nat.exists_eq_add_of_le' hposj
  simp only [toList, List.getElem?_cons_succ] at hi hj
  constructor
  · rintro heq
    rw [Nat.add_right_cancel heq, hj] at hi
    exact (Option.some.inj hi).symm
  · rintro rfl
    obtain ⟨hlti, _⟩ := List.getElem?_eq_some_iff.1 hi
    rw [(List.getElem?_inj hlti hnodup).1 (hi.trans hj.symm)]

/-! ## One request -/

/-- The index of a set is that of the registered set equal to it, or else it comes behind all
others. -/
theorem register_spec (ts : TestSets) (s : BitSet) : ts.Extends (ts.register s).2 ∧
    1 ≤ (ts.register s).1 ∧ (ts.register s).2.toList[(ts.register s).1]? = some s := by
  unfold register
  split
  next i hfound =>
    obtain ⟨hlt, heq, _⟩ := List.findIdx?_eq_some_iff_getElem.1 hfound
    refine ⟨.refl ts, Nat.le_add_left 1 i, ?_⟩
    simpa [toList, hlt] using heq
  next hnone =>
    have hnew : s ∉ ts.registered := fun hmem => by simpa using List.findIdx?_eq_none_iff.1 hnone s hmem
    refine ⟨⟨rfl, List.prefix_append _ _, fun hnodup => ?_⟩, Nat.le_add_left 1 _, by simp [toList]⟩
    exact hnodup.append (List.nodup_singleton s) (by simpa using hnew)

/-- A set is either compared with, and nothing is registered, or it is registered. -/
theorem test_cases (g : Grammar) (ts : TestSets) (s : BitSet) :
    (s.size = 0 ∧ ts.test g s = (.never, ts)) ∨ ts.test g s = (.oneOf (s.toList.map g.terminal), ts) ∨
      ts.test g s = (.inSet (ts.register s).1, (ts.register s).2) := by
  unfold test
  split
  next hempty => exact .inl ⟨hempty, rfl⟩
  next =>
    split
    next => exact .inr (.inl rfl)
    next => exact .inr (.inr rfl)

theorem extends_serve (q : Request) : ts.Extends (ts.serve g q).2 := by
  have hregister := fun s => (ts.register_spec s).1
  cases q with
  | index s => exact hregister s
  | test s =>
    rcases test_cases g ts s with ⟨_, heq⟩ | heq | heq <;> simp only [serve, heq]
    · exact .refl ts
    · exact .refl ts
    · exact hregister s

theorem request_serve (q : Request) : (ts.serve g q).1.request = q := by
  cases q <;> rfl

/-- An index that is handed out stands for the set. -/
theorem stands_serve {q : Request} (h : (ts.serve g q).1.HandsOut s i) :
    1 ≤ i ∧ (ts.serve g q).2.toList[i]? = some s := by
  have hregister := fun s => (ts.register_spec s).2
  cases q with
  | index s' =>
    cases h
    exact hregister s
  | test s' =>
    rcases test_cases g ts s' with ⟨_, heq⟩ | heq | heq <;> simp only [serve, heq] at h ⊢ <;> cases h
    exact hregister s

/-- A test holds for the members of its set, also when further sets are registered. -/
theorem holds_test (hs : ∀ m ∈ s, m < g.terminals.length) (hn : n < g.terminals.length)
    (h : (ts.test g s).2.Extends ts') : (ts.test g s).1.Holds g ts' n ↔ n ∈ s := by
  rcases test_cases g ts s with ⟨hempty, heq⟩ | heq | heq <;> rw [heq] at h ⊢ <;>
    simp only [Test.Holds]
  · have hnil : s.toList = [] := List.eq_nil_of_length_eq_zero hempty
    simp [← BitSet.mem_toList, hnil]
  · simp only [List.mem_map, BitSet.mem_toList]
    constructor
    · rintro ⟨m, hm, hterminal⟩
      rwa [← (Grammar.terminal_inj (hs m hm) hn).1 hterminal]
    · exact fun hmem => ⟨n, hmem, rfl⟩
  · simp [h.getElem?_eq (ts.register_spec s).2.2]

/-! ## Any requests -/

theorem extends_serveAll (qs : List Request) : ts.Extends (ts.serveAll g qs).2 := by
  induction qs generalizing ts with
  | nil => exact .refl ts
  | cons q qs ih => exact (extends_serve q).trans ih

theorem map_request_serveAll (qs : List Request) : (ts.serveAll g qs).1.map Reply.request = qs := by
  induction qs generalizing ts with
  | nil => rfl
  | cons q qs ih => exact congrArg₂ List.cons (request_serve q) ih

/-- Each reply was given at some time, before the remaining requests. -/
theorem exists_of_mem_serveAll {qs : List Request} {r : Reply} (h : r ∈ (ts.serveAll g qs).1) :
    ∃ ts' q, ts.Extends ts' ∧ r = (ts'.serve g q).1 ∧
      (ts'.serve g q).2.Extends (ts.serveAll g qs).2 := by
  induction qs generalizing ts with
  | nil => cases h
  | cons q qs ih =>
    rcases List.mem_cons.1 h with rfl | h
    · exact ⟨ts, q, .refl ts, rfl, extends_serveAll qs⟩
    · obtain ⟨ts', q', hbefore, heq, hafter⟩ := ih h
      exact ⟨ts', q', (extends_serve q).trans hbefore, heq, hafter⟩

/-- What replies handed out is valid for the registered sets. -/
structure Honours (g : Grammar) (ts : TestSets) (rs : List Reply) : Prop where
  /-- the first set is the union of all synchronisation sets -/
  first : ts.toList[0]? = some g.syncUnion
  /-- an index is never 0, and stands for the set that it was handed out for -/
  stands : ∀ r ∈ rs, ∀ s i, r.HandsOut s i → 1 ≤ i ∧ ts.toList[i]? = some s
  /-- the same index is handed out for equal sets, and for these only -/
  shared : ∀ r ∈ rs, ∀ r' ∈ rs, ∀ s i s' i', r.HandsOut s i → r'.HandsOut s' i' → (i = i' ↔ s = s')
  /-- a test for terminals holds for a terminal if and only if its number is in the set -/
  decides : ∀ s t, .test s t ∈ rs → (∀ m ∈ s, m < g.terminals.length) →
    ∀ n < g.terminals.length, t.Holds g ts n ↔ n ∈ s

/-- Whatever is asked for, each request is answered, and what is handed out is valid then and stays
valid while more is asked for. -/
theorem serveAll_exact (g : Grammar) (qs later : List Request) :
    ((ofGrammar g).serveAll g qs).1.map Reply.request = qs ∧
      Honours g (((ofGrammar g).serveAll g qs).2.serveAll g later).2 ((ofGrammar g).serveAll g qs).1 := by
  have hafter : ((ofGrammar g).serveAll g qs).2.Extends
      (((ofGrammar g).serveAll g qs).2.serveAll g later).2 := extends_serveAll later
  have hall : (ofGrammar g).Extends (((ofGrammar g).serveAll g qs).2.serveAll g later).2 :=
    (extends_serveAll qs).trans hafter
  have hstands : ∀ r ∈ ((ofGrammar g).serveAll g qs).1, ∀ s i, r.HandsOut s i →
      1 ≤ i ∧ (((ofGrammar g).serveAll g qs).2.serveAll g later).2.toList[i]? = some s := by
    intro r hr s i hout
    obtain ⟨ts, q, -, rfl, hrest⟩ := exists_of_mem_serveAll hr
    obtain ⟨hpos, hs⟩ := stands_serve hout
    exact ⟨hpos, (hrest.trans hafter).getElem?_eq hs⟩
  refine ⟨map_request_serveAll qs, ?_, hstands, ?_, ?_⟩
  · exact congrArg some hall.sync_eq
  · intro r hr r' hr' s i s' i' hout hout'
    obtain ⟨hposi, hi⟩ := hstands r hr s i hout
    obtain ⟨hposj, hj⟩ := hstands r' hr' s' i' hout'
    exact index_eq_iff (hall.nodup List.nodup_nil) hi hj hposi hposj
  · intro s t hr hs n hn
    obtain ⟨ts, q, -, heq, hrest⟩ := exists_of_mem_serveAll hr
    cases q with
    | index => cases heq
    | test s' =>
      obtain ⟨rfl, rfl⟩ := Reply.test.inj heq
      exact holds_test hs hn (hrest.trans hafter)

/-- Small sets are not registered for a test, and the first set is registered a second time. -/
example :
    let token : Symbol := { kind := .terminal, name := "a", number := 0, line := 0 }
    let g : Grammar := { symbols := .replicate 5 token }
    let large := BitSet.ofList [1, 2, 3, 4]
    let small := BitSet.ofList [1, 2]
    ((ofGrammar g).serveAll g [.test ∅, .test small, .test large, .index small, .test large,
      .index g.syncUnion]).1 =
      [.test ∅ .never, .test small (.oneOf [1, 2]), .test large (.inSet 1), .index small 2,
        .test large (.inSet 1), .index ∅ 3] := by
  decide

end TestSets

end Ebnf
