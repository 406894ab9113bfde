/-
Branching-time sentences, their meaning over the transitions of a model, and when a checker decides them: if it leaves
the text of a set as it is and computes, at each label of an operator, the text of the set where the operator holds,
then a formula is solved to the text of the set where its sentence holds.
-/
import Arena.Proofs.Checker.Loops
import Arena.Proofs.Checker.Paths
import Arena.Proofs.Data.SetText

namespace Arena.Checker

open Branching Names

variable {X : Set String} {l : String} {t : Tree} {f : Formula} {m : Model}

/-! ## Sets of states and their texts -/

theorem toSet_stateSet (m : Model) : toSet m.stateSet = {q | q ∈ m.states} := toSet_ofList m.states

theorem nodup_stateSet (m : Model) : List.Nodup m.stateSet := nodup_ofList m.states

theorem length_stateSet (m : Model) : List.length m.stateSet ≤ m.states.length :=
  length_le (nodup_stateSet m) fun _ hq => mem_ofList.1 hq

/-- A set of states, listed without repetition. -/
def Within (m : Model) (S : Names) : Prop := S.Nodup ∧ ∀ q ∈ S, q ∈ m.states

section Within

variable {S T : Names} (hS : Within m S)

theorem within_stateSet : Within m m.stateSet := ⟨nodup_stateSet m, fun _ hq => mem_ofList.1 hq⟩

include hS

theorem Within.toSet_subset : S.toSet ⊆ toSet m.stateSet := by
  rw [toSet_stateSet]
  exact hS.2

theorem Within.sorted : Within m (Text.sorted S) :=
  ⟨Text.nodup_sorted hS.1, fun q hq => hS.2 q (Text.mem_sorted.1 hq)⟩

theorem Within.union (hT : Within m T) : Within m (S.union T) :=
  ⟨nodup_union hS.1 hT.1, fun q hq => (mem_union.1 hq).elim (hS.2 q) (hT.2 q)⟩

theorem Within.inter (T : Names) : Within m (S.inter T) :=
  ⟨nodup_inter hS.1, fun q hq => hS.2 q (mem_inter.1 hq).1⟩

theorem Within.diff (T : Names) : Within m (S.diff T) :=
  ⟨nodup_diff hS.1, fun q hq => hS.2 q (mem_diff.1 hq).1⟩

end Within

theorem Yields.compl {T : Names} {P Q : String → Prop} (h : Yields (.ok T) {q | P q})
    (hPQ : ∀ q ∈ m.states, ¬ P q ↔ Q q) : Yields (.ok (m.stateSet.diff T)) {q | q ∈ m.states ∧ Q q} := by
  refine yields_ok.2 ⟨nodup_diff (nodup_stateSet m), ?_⟩
  rw [toSet_diff, (yields_ok.1 h).2, toSet_stateSet]
  ext q
  exact and_congr_right (hPQ q)

theorem inside_eq {P : String → Prop} (hP : ∀ q, P q → q ∈ m.states) :
    {q | q ∈ m.states ∧ P q} = {q | P q} := Set.ext fun q => and_iff_right_of_imp (hP q)

/-- A computation gives the text of a set. -/
def Shows (x : Outcome String) (X : Set String) : Prop :=
  ∃ T : Names, x = .ok T.print ∧ T.Nodup ∧ T.toSet = X

theorem Yields.shows {x : Outcome Names} (h : Yields x X) : Shows (do return (← x).print) X := by
  obtain ⟨T, rfl, hT⟩ := h
  exact ⟨T, rfl, hT⟩

theorem Shows.unique {x y : Outcome String} (hx : Shows x X) (hy : Shows y X) : x = y := by
  obtain ⟨S, rfl, hS, rfl⟩ := hx
  obtain ⟨T, rfl, hT, h⟩ := hy
  rw [print_congr hS hT fun q => (Set.ext_iff.1 h q).symm]

theorem Shows.set_unique {x : Outcome String} {Y : Set String} (hX : Shows x X) (hY : Shows x Y) : X = Y := by
  obtain ⟨S, rfl, hS, rfl⟩ := hX
  obtain ⟨T, hprint, hT, rfl⟩ := hY
  have hread := read_print hS
  rw [Except.ok.inj hprint, read_print hT, Except.ok.injEq] at hread
  ext q
  rw [mem_toSet, mem_toSet, ← Text.mem_sorted, ← hread, Text.mem_sorted]

/-! ## Sentences -/

inductive Sentence where
  | atom (p : String)
  | unary (op : Unary) (a : Sentence)
  | binary (op : Binary) (a b : Sentence)

namespace Sentence

def meaning (m : Model) : Sentence → Set String
  | atom p => {q | m.Labelled p q}
  | unary op a => {q | q ∈ m.states ∧ op.Holds m.Edge (· ∈ a.meaning m) q}
  | binary op a b => {q | q ∈ m.states ∧ op.Holds m.Edge (· ∈ a.meaning m) (· ∈ b.meaning m) q}

/-- A sentence in which no `until` is asked of every path. -/
def WithoutEveryUntil : Sentence → Prop
  | atom _ => True
  | unary _ a => a.WithoutEveryUntil
  | binary op a b => op ≠ .everyUntil ∧ a.WithoutEveryUntil ∧ b.WithoutEveryUntil

/-- A formula spells a sentence: its atoms are propositions of the model, and each label is one of those
given for the operator. -/
inductive Spelled (m : Model) (unaries : Unary → List String) (binaries : Binary → List String) :
    Sentence → Formula → Prop
  | atom {p : String} (hp : p ∈ m.props) : Spelled m unaries binaries (.atom p) (.atom p)
  | unary {op : Unary} {l : String} {a : Sentence} {f : Formula} (hl : l ∈ unaries op)
      (ha : Spelled m unaries binaries a f) : Spelled m unaries binaries (.unary op a) (.unary l f)
  | binary {op : Binary} {l : String} {a b : Sentence} {f g : Formula} (hl : l ∈ binaries op)
      (ha : Spelled m unaries binaries a f) (hb : Spelled m unaries binaries b g) :
      Spelled m unaries binaries (.binary op a b) (.binary l f g)

theorem meaning_subset (m : Model) (s : Sentence) {q : String} (h : q ∈ s.meaning m) : q ∈ m.states := by
  cases s with
  | atom p =>
    obtain ⟨i, -, hq, -⟩ := h
    exact List.mem_of_getElem? hq
  | unary op a => exact h.1
  | binary op a b => exact h.1

end Sentence

/-! ## Checkers -/

/-- A checker, given by what it makes of a node with one or two subformulas, computes each operator at
its labels; the `until` over every path may be left out. -/
structure Decides (m : Model) (unaries : Unary → List String) (binaries : Binary → List String)
    (one : String → Option String → Outcome String) (two : String → String → String → Outcome String) : Prop where
  leaf : ∀ S : Names, (∀ q ∈ S, q ∈ m.states) → one S.print none = .ok S.print
  unary : ∀ op, ∀ l ∈ unaries op, ∀ S : Names, S.Nodup → (∀ q ∈ S, q ∈ m.states) →
    Shows (one l (some S.print)) {q | q ∈ m.states ∧ op.Holds m.Edge (· ∈ S.toSet) q}
  binary : ∀ op, op ≠ .everyUntil → ∀ l ∈ binaries op, ∀ S T : Names, S.Nodup → (∀ q ∈ S, q ∈ m.states) →
    T.Nodup → (∀ q ∈ T, q ∈ m.states) →
    Shows (two l S.print T.print) {q | q ∈ m.states ∧ op.Holds m.Edge (· ∈ S.toSet) (· ∈ T.toSet) q}

variable {unaries : Unary → List String} {binaries : Binary → List String}
  {one : String → Option String → Outcome String} {two : String → String → String → Outcome String}

namespace Tree

theorem solve_unary {x : String} (h : t.solve one two = .ok x) : (unary l t).solve one two = one l (some x) := by
  simp only [solve, h]
  rfl

theorem solve_binary {x y : String} {u : Tree} (hx : t.solve one two = .ok x) (hy : u.solve one two = .ok y) :
    (binary l t u).solve one two = two l x y := by
  simp only [solve, hx, hy]
  rfl

theorem solve_unary_leaf {s : String} (hs : one s none = .ok s) :
    (unary l (.leaf s)).solve one two = one l (some s) := solve_unary hs

theorem solve_binary_leaf {s t : String} (hs : one s none = .ok s) (ht : one t none = .ok t) :
    (binary l (.leaf s) (.leaf t)).solve one two = two l s t := solve_binary hs ht

variable {atom : String → Outcome (Option String)}

theorem ground_unary (h : ground atom f = .ok (some t)) : ground atom (.unary l f) = .ok (some (unary l t)) := by
  simp only [ground, h]
  rfl

theorem ground_binary {f g : Formula} {u : Tree} (hf : ground atom f = .ok (some t))
    (hg : ground atom g = .ok (some u)) : ground atom (.binary l f g) = .ok (some (binary l t u)) := by
  simp only [ground, hf, hg]
  rfl

end Tree

theorem atomText_spec (h : m.LabelsFit) {p : String} (hp : p ∈ m.props) :
    ∃ T : Names, atomText m p = .ok (some T.print) ∧ T.Nodup ∧ T.toSet = {q | m.Labelled p q} := by
  obtain ⟨T, hT, hn, hmem⟩ := h.statesOf hp
  refine ⟨T, ?_, hn, Set.ext hmem⟩
  simp only [atomText, hT]
  rfl

/-- Grounding and solving a formula gives the text of the set of states where the sentence holds. -/
theorem Decides.solve (hd : Decides m unaries binaries one two) (hm : m.LabelsFit) {s : Sentence}
    (hs : s.Spelled m unaries binaries f) (hu : s.WithoutEveryUntil) :
    ∃ t, Tree.ground (atomText m) f = .ok (some t) ∧ Shows (t.solve one two) (s.meaning m) := by
  -- the texts that reach a node are those of the sets of its subsentences, which hold only states
  induction hs with
  | @atom p hp =>
    obtain ⟨T, hT, hn, hset⟩ := atomText_spec hm hp
    refine ⟨.leaf T.print, by simp only [Tree.ground, hT]; rfl, T, hd.leaf T fun q hq => ?_, hn, hset⟩
    exact Sentence.meaning_subset m (.atom p) (hset.le hq)
  | @unary op l a f hl _ ih =>
    obtain ⟨t, ht, S, hS, hn, hset⟩ := ih hu
    have hin : ∀ q ∈ S, q ∈ m.states := fun q hq => a.meaning_subset m (hset.le hq)
    refine ⟨.unary l t, Tree.ground_unary ht, ?_⟩
    rw [Tree.solve_unary hS]
    have hshow := hd.unary op l hl S hn hin
    rwa [hset] at hshow
  | @binary op l a b f g hl _ _ iha ihb =>
    obtain ⟨hop, hua, hub⟩ := hu
    obtain ⟨t, ht, S, hS, hnS, hsetS⟩ := iha hua
    obtain ⟨u, hgu, T, hT, hnT, hsetT⟩ := ihb hub
    have hinS : ∀ q ∈ S, q ∈ m.states := fun q hq => a.meaning_subset m (hsetS.le hq)
    have hinT : ∀ q ∈ T, q ∈ m.states := fun q hq => b.meaning_subset m (hsetT.le hq)
    refine ⟨.binary l t u, Tree.ground_binary ht hgu, ?_⟩
    rw [Tree.solve_binary hS hT]
    have hshow := hd.binary op hop l hl S T hnS hinS hnT hinT
    rwa [hsetS, hsetT] at hshow

end Arena.Checker
