/-
The checker for a demon decides the game of obstruction. At each state a demon of strength `n` removes transitions of
total cost at most `n`, but never all of them. Each temporal operator gives the states from which the demon has a choice
of transitions to remove, one per state, such that every infinite path along the others satisfies it: fixpoints of what
the demon forces in one step.
-/
import Arena.Checker.Obstruction
import Arena.Proofs.Checker.Coalition
import Arena.Proofs.Checker.Game
import Arena.Proofs.Checker.Plain
import Arena.Proofs.Checker.Sentence
import Mathlib.Algebra.Order.BigOperators.Group.Finset

namespace Arena

open Checker.Obstruction Text Names List

variable {i : Nat} {q : String} {s : Names} {X : Set String} {j : Nat} {letter : String} {r : String}

/-! ## The game -/

namespace Model

/-- A transition leads from a state to a state; here the cell `*` stands for one as any other cell does. -/
def Passage (m : Model) (q r : String) : Prop :=
  ∃ i j c, m.states[i]? = some q ∧ m.states[j]? = some r ∧ cellAt? m.graph i j = some c ∧ c.isZero = false

def priceAt (m : Model) (i j : Nat) : Int := ((cellAt? m.graph i j).bind fun c => (cellCost c).toOption).getD 0

/-- What it costs to remove the transition from a state to a state. -/
def toll (m : Model) (q r : String) : Int := m.priceAt (m.states.idxOf q) (m.states.idxOf r)

/-- The demon chooses the states to which there is no way any more. -/
def obstruction (m : Model) (n : Int) : Checker.Game String (Finset String) where
  states := {q | q ∈ m.states}
  step q removed r := m.Passage q r ∧ r ∉ removed ∧ (∀ d ∈ removed, m.Passage q d) ∧ ∑ d ∈ removed, m.toll q d ≤ n

/-- The first positions of the names in a set. -/
def firsts (m : Model) (X : Set String) : Set Nat := {j | ∃ r ∈ X, m.states.idxOf? r = some j}

open Classical in
/-- The states at a position from which a transition leads to one of the first positions of a set, while those to all
other positions cost at most `n` together. Where names are distinct, the demon forces the set from them. -/
def barring (m : Model) (n : Int) (X : Set String) : Set String :=
  {q | ∃ i, m.states[i]? = some q ∧ (∃ j ∈ m.firsts X, ∃ c, cellAt? m.graph i j = some c ∧ c.isZero = false) ∧
    ∑ j ∈ Finset.range m.states.length with j ∉ m.firsts X, m.priceAt i j ≤ n}

/-- A cell of a matrix of costs: no transition, a free one, or one that costs something. -/
def IsPriced (c : Cell) : Prop :=
  c = .zero ∨ c = .text "*" ∨ ∃ w k, c = .text w ∧ readInt? w = some k ∧ 0 < k

/-- A square matrix of costs over distinct states, in which each row has a transition. -/
structure Weighted (m : Model) : Prop where
  nodup : m.states.Nodup
  rows : m.graph.length = m.states.length
  square : ∀ row ∈ m.graph, row.length = m.states.length
  nonzero : ∀ row ∈ m.graph, ∃ c ∈ row, c.isZero = false
  priced : ∀ row ∈ m.graph, ∀ c ∈ row, IsPriced c

/-- A square matrix in which nothing costs less than nothing. -/
structure Tolled (m : Model) : Prop where
  rows : m.graph.length = m.states.length
  square : ∀ row ∈ m.graph, row.length = m.states.length
  costs : ∀ row ∈ m.graph, ∀ c ∈ row, ∃ k, cellCost c = .ok k ∧ 0 ≤ k

variable {m : Model} {n : Int}

theorem IsPriced.cost {c : Cell} (h : IsPriced c) : ∃ k, cellCost c = .ok k ∧ 0 ≤ k := by
  rcases h with rfl | rfl | ⟨w, k, rfl, hw, hk⟩
  · exact ⟨0, rfl, le_rfl⟩
  · exact ⟨0, rfl, le_rfl⟩
  · by_cases hstar : w = "*"
    · exact ⟨0, if_pos hstar, le_rfl⟩
    · refine ⟨k, ?_, hk.le⟩
      simp only [cellCost, if_neg hstar, hw, orFault]

theorem Weighted.tolled (h : m.Weighted) : m.Tolled :=
  ⟨h.rows, h.square, fun row hrow c hc => (h.priced row hrow c hc).cost⟩

namespace Tolled

variable (h : m.Tolled)

include h

theorem exists_cell (hi : i < m.states.length) (hj : j < m.states.length) :
    ∃ row c, m.graph[i]? = some row ∧ row[j]? = some c ∧ ∃ k, cellCost c = .ok k ∧ 0 ≤ k := by
  have hlt : i < m.graph.length := h.rows ▸ hi
  have hmem := getElem_mem hlt
  have hjlt : j < m.graph[i].length := h.square _ hmem ▸ hj
  exact ⟨m.graph[i], m.graph[i][j], getElem?_eq_getElem hlt, getElem?_eq_getElem hjlt,
    h.costs _ hmem _ (getElem_mem hjlt)⟩

theorem cellCost_eq (hi : i < m.states.length) (hj : j < m.states.length) :
    (do cellCost (← nth (← nth m.graph (i : Int)) (j : Int)) : Outcome Int) = .ok (m.priceAt i j) := by
  obtain ⟨row, c, hrow, hc, k, hk, -⟩ := h.exists_cell hi hj
  have hcell := (cellAt?_eq hrow j).trans hc
  simp only [nth_eq_ok.2 hrow, nth_eq_ok.2 hc, bind, Except.bind, priceAt, hcell, hk, Option.bind_some]
  rfl

theorem priceAt_nonneg (i j : Nat) : 0 ≤ m.priceAt i j := by
  unfold priceAt
  cases hc : cellAt? m.graph i j with
  | none => exact le_rfl
  | some c =>
    obtain ⟨row, hrow, hj⟩ := Option.bind_eq_some_iff.1 hc
    obtain ⟨k, hk, hnonneg⟩ := h.costs row (mem_of_getElem? hrow) c (mem_of_getElem? hj)
    rw [Option.bind_some, hk]
    exact hnonneg

theorem barring_mono {k : Int} (hnk : n ≤ k) {X Y : Set String} (hXY : X ⊆ Y) : m.barring n X ⊆ m.barring k Y := by
  classical
  have hfirsts : m.firsts X ⊆ m.firsts Y := fun j ⟨r, hr, hj⟩ => ⟨r, hXY hr, hj⟩
  rintro q ⟨i, hi, ⟨j, hj, hc⟩, hcost⟩
  refine ⟨i, hi, ⟨j, hfirsts hj, hc⟩, le_trans ?_ (hcost.trans hnk)⟩
  refine Finset.sum_le_sum_of_subset_of_nonneg ?_ fun j _ _ => h.priceAt_nonneg i j
  exact Finset.monotone_filter_right _ fun j _ hj hX => hj (hfirsts hX)

variable (hn : m.states.Nodup)

include hn

omit h in
theorem idxOf_eq (hi : m.states[i]? = some q) : m.states.idxOf q = i := by
  obtain ⟨hlt, rfl⟩ := List.getElem?_eq_some_iff.1 hi
  exact hn.idxOf_getElem i hlt

theorem toll_of_not_passage (hq : q ∈ m.states) (hr : r ∈ m.states) (hno : ¬ m.Passage q r) : m.toll q r = 0 := by
  obtain ⟨i, hi⟩ := mem_iff_getElem?.1 hq
  obtain ⟨j, hj⟩ := mem_iff_getElem?.1 hr
  obtain ⟨row, c, hrow, hc, -⟩ := h.exists_cell (lt_of_getElem? hi) (lt_of_getElem? hj)
  have hcell := (cellAt?_eq hrow j).trans hc
  have hz : c.isZero = true := by
    by_contra hz
    exact hno ⟨i, j, c, hi, hj, hcell, by simpa using hz⟩
  obtain rfl : c = .zero := by simpa [Cell.isZero] using hz
  rw [toll, idxOf_eq hn hi, idxOf_eq hn hj, priceAt, hcell]
  rfl

open Classical in
/-- The demon forces the next state into a set where a transition leads into it and it can afford to remove
those that do not. -/
theorem mem_force_iff (X : Set String) : q ∈ (m.obstruction n).force X ↔
    q ∈ m.states ∧ (∃ r ∈ X, m.Passage q r) ∧ ∑ r ∈ m.states.toFinset with r ∉ X, m.toll q r ≤ n := by
  have hmem : ∀ {q r}, m.Passage q r → r ∈ m.states := by
    rintro q r ⟨i, j, c, -, hr, -⟩
    exact mem_of_getElem? hr
  constructor
  · rintro ⟨hq, removed, ⟨r, hstep⟩, hall⟩
    obtain ⟨hpass, hkept, hedges, hcost⟩ := id hstep
    refine ⟨hq, ⟨r, hall r hstep, hpass⟩, le_trans ?_ hcost⟩
    -- a transition out of the set is removed; where there is none nothing is paid
    rw [← Finset.sum_filter_add_sum_filter_not _ (· ∈ removed)]
    have hfree : ∑ d ∈ (m.states.toFinset.filter (· ∉ X)).filter (· ∉ removed), m.toll q d = 0 := by
      refine Finset.sum_eq_zero fun d hd => ?_
      simp only [Finset.mem_filter, mem_toFinset] at hd
      refine h.toll_of_not_passage hn hq hd.1.1 fun hp => hd.1.2 (hall d ⟨hp, hd.2, hedges, hcost⟩)
    rw [hfree, add_zero]
    refine Finset.sum_le_sum_of_subset_of_nonneg (fun d hd => (Finset.mem_filter.1 hd).2) fun d _ _ => ?_
    exact h.priceAt_nonneg _ _
  · rintro ⟨hq, ⟨r, hrs, hpass⟩, hcost⟩
    refine ⟨hq, (m.states.toFinset.filter (· ∉ X)).filter (m.Passage q ·), ⟨r, hpass, ?_, ?_, ?_⟩, ?_⟩
    · simp [hrs]
    · exact fun d hd => (Finset.mem_filter.1 hd).2
    · refine le_trans (Finset.sum_le_sum_of_subset_of_nonneg (Finset.filter_subset _ _) fun d _ _ => ?_) hcost
      exact h.priceAt_nonneg _ _
    · rintro r' ⟨hp, hkept, -⟩
      by_contra hout
      refine hkept (Finset.mem_filter.2 ⟨Finset.mem_filter.2 ⟨mem_toFinset.2 (hmem hp), hout⟩, hp⟩)

theorem force_eq (X : Set String) : (m.obstruction n).force X = m.barring n X := by
  have hfirst : ∀ {j r}, m.states.idxOf? r = some j ↔ m.states[j]? = some r := idxOf?_eq_some hn
  have hplace : ∀ {j}, j < m.states.length → m.states[j]? = some (m.states.getD j "") := fun hj => by
    simp [getElem?_eq_getElem hj]
  classical
  have hsum : ∀ {i q}, m.states[i]? = some q → ∑ r ∈ m.states.toFinset with r ∉ X, m.toll q r =
      ∑ j ∈ Finset.range m.states.length with j ∉ m.firsts X, m.priceAt i j := by
    intro i q hi
    refine Finset.sum_nbij' m.states.idxOf (fun j => m.states.getD j "") ?_ ?_ ?_ ?_ fun r _ => by
      rw [toll, idxOf_eq hn hi]
    · intro r hr
      simp only [Finset.mem_filter, mem_toFinset, Finset.mem_range] at hr ⊢
      refine ⟨idxOf_lt_length_iff.2 hr.1, ?_⟩
      rintro ⟨r', hr', hj⟩
      cases (getElem?_idxOf hr.1).symm.trans (hfirst.1 hj)
      exact hr.2 hr'
    · intro j hj
      simp only [Finset.mem_filter, mem_toFinset, Finset.mem_range] at hj ⊢
      exact ⟨mem_of_getElem? (hplace hj.1), fun hX => hj.2 ⟨_, hX, hfirst.2 (hplace hj.1)⟩⟩
    · intro r hr
      rw [getD_eq_getElem?_getD, getElem?_idxOf (mem_toFinset.1 (Finset.mem_filter.1 hr).1), Option.getD_some]
    · exact fun j hj => idxOf_eq hn (hplace (Finset.mem_range.1 (Finset.mem_filter.1 hj).1))
  ext q
  rw [h.mem_force_iff hn]
  constructor
  · rintro ⟨-, ⟨r, hr, i, j, c, hi, hj, hc⟩, hcost⟩
    exact ⟨i, hi, ⟨j, ⟨r, hr, hfirst.2 hj⟩, c, hc⟩, hsum hi ▸ hcost⟩
  · rintro ⟨i, hi, ⟨j, ⟨r, hr, hj⟩, c, hc⟩, hcost⟩
    exact ⟨mem_of_getElem? hi, ⟨r, hr, i, j, c, hi, hfirst.1 hj, hc⟩, hsum hi ▸ hcost⟩

end Tolled

theorem Weighted.exists_passage (h : m.Weighted) (hq : q ∈ m.states) : ∃ r, m.Passage q r := by
  obtain ⟨i, hi⟩ := mem_iff_getElem?.1 hq
  have hlt : i < m.graph.length := h.rows ▸ (lt_of_getElem? hi)
  obtain ⟨c, hc, hz⟩ := h.nonzero _ (getElem_mem hlt)
  obtain ⟨j, hj⟩ := mem_iff_getElem?.1 hc
  have hjlt : j < m.states.length := h.square _ (getElem_mem hlt) ▸ lt_of_getElem? hj
  exact ⟨_, i, j, c, hi, getElem?_eq_getElem hjlt, (cellAt?_eq (getElem?_eq_getElem hlt) j).trans hj, hz⟩

theorem Weighted.proper (h : m.Weighted) (hn : 0 ≤ n) : (m.obstruction n).Proper where
  finite := m.states.finite_toSet
  stays := by
    rintro q - removed r ⟨⟨i, j, c, -, hr, -⟩, -⟩
    exact mem_of_getElem? hr
  moves := by
    intro q hq
    obtain ⟨r, hr⟩ := h.exists_passage hq
    exact ⟨∅, r, hr, by simp, by simp, by simpa using hn⟩

end Model

namespace Checker.Obstruction

open Formula (Lexicon Logic literal anyRun)

variable {m : Model} {n : Nat} {is : List Nat} {t : Names}

/-! ## Predecessors -/

theorem hasTransition_spec {row : List Cell} : ∀ {columns : List Nat}, (∀ j ∈ columns, j < row.length) →
    ∃ b, hasTransition row columns = .ok b ∧
      (b = true ↔ ∃ j ∈ columns, ∃ c, row[j]? = some c ∧ c.isZero = false)
  | [], _ => ⟨false, rfl, by simp⟩
  | j :: columns, h => by
    obtain ⟨hj, hrest⟩ := forall_mem_cons.1 h
    obtain ⟨c, hc⟩ := exists_nth hj
    obtain ⟨b, hb, hiff⟩ := hasTransition_spec hrest
    have hget := nth_eq_ok.1 hc
    by_cases hz : c.isZero = true
    · refine ⟨b, ?_, ?_⟩
      · simp only [hasTransition, hc, bind, Except.bind, if_pos hz, hb]
      · rw [hiff, exists_mem_cons_iff, or_iff_right]
        rintro ⟨c', hc', hz'⟩
        cases hget.symm.trans hc'
        rw [hz] at hz'
        cases hz'
    · refine ⟨true, ?_, ?_⟩
      · simp only [hasTransition, hc, bind, Except.bind, if_neg hz]
        rfl
      · simp only [true_iff]
        exact ⟨j, mem_cons_self, c, hget, by simpa using hz⟩

theorem preFrom_spec {columns : List Nat} {g : Matrix} (h : ∀ row ∈ g, ∀ j ∈ columns, j < row.length) :
    ∃ is, preFrom columns 0 g = .ok is ∧ ∀ i, i ∈ is ↔ ∃ k row, g[k]? = some row ∧ i = k ∧
      ∃ j ∈ columns, ∃ c, row[j]? = some c ∧ c.isZero = false := by
  refine exists_walk (fun _ => rfl) fun k row rest others hk ho => ?_
  obtain ⟨b, hb, hiff⟩ := hasTransition_spec (h row (mem_of_getElem? hk))
  refine ⟨if b then [k] else [], ?_, fun i => ?_⟩
  · cases b <;> simp only [preFrom, hb, ho] <;> rfl
  · rw [← hiff]
    cases b <;> simp

section Predecessors

variable (h : m.Tolled) (hn : is.Nodup) (hpos : ∀ i, i ∈ is ↔ i ∈ m.firsts s.toSet)

include h hpos

omit h in
theorem lt_of_mem_positions (hi : i ∈ is) : i < m.states.length := by
  obtain ⟨q, -, hq⟩ := (hpos i).1 hi
  exact (idxOf?_eq_some_iff.1 hq).1

theorem pre_spec : ∃ rows, pre m is = .ok rows ∧ ∀ i, i ∈ rows ↔ i < m.states.length ∧
    ∃ j ∈ m.firsts s.toSet, ∃ c, Model.cellAt? m.graph i j = some c ∧ c.isZero = false := by
  have hcols : ∀ row ∈ m.graph, ∀ j ∈ is.mergeSort (· ≤ ·), j < row.length := by
    intro row hrow j hj
    rw [h.square row hrow]
    exact lt_of_mem_positions hpos (mem_mergeSort.1 hj)
  obtain ⟨rows, hrows, hmem⟩ := preFrom_spec hcols
  refine ⟨rows, hrows, fun i => ?_⟩
  simp only [hmem, mem_mergeSort, hpos]
  constructor
  · rintro ⟨_, row, hrow, rfl, j, hj, c, hc⟩
    exact ⟨h.rows ▸ lt_of_getElem? hrow, j, hj, c, by rwa [Model.cellAt?_eq hrow]⟩
  · rintro ⟨-, j, hj, c, hc, hz⟩
    obtain ⟨row, hrow, hc⟩ := Option.bind_eq_some_iff.1 hc
    exact ⟨_, row, hrow, rfl, j, hj, c, hc, hz⟩

include hn

theorem complement_eq : complement m is = (range m.states.length).filter (!is.contains ·) := by
  unfold complement
  rw [h.rows]
  split
  · have hin : is ⊆ range m.states.length := fun i hi => mem_range.2 (lt_of_mem_positions hpos hi)
    have hall := (hn.subperm hin).perm_of_length_le (by rwa [length_range])
    symm
    rw [filter_eq_nil_iff]
    intro i hi
    simpa using hall.mem_iff.2 hi
  · rfl

open Classical in
theorem blockable_eq (k : Int) (hi : i < m.states.length) : blockable m i k (complement m is) =
    .ok (decide (∑ j ∈ Finset.range m.states.length with j ∉ m.firsts s.toSet, m.priceAt i j ≤ k)) := by
  have heq := complement_eq h hn hpos
  have hcosts : (complement m is).mapM (fun (j : Nat) => (do cellCost (← nth (← nth m.graph i) j) : Outcome Int)) =
      .ok ((complement m is).map (m.priceAt i)) := by
    refine mapM_eq_map fun j hj => ?_
    rw [heq] at hj
    exact h.cellCost_eq hi (mem_range.1 (mem_of_mem_filter hj))
  have hset : (Finset.range m.states.length).filter (· ∉ m.firsts s.toSet) = (complement m is).toFinset := by
    ext j
    simp [heq, hpos]
  unfold blockable
  rw [hcosts, hset, sum_toFinset _ (heq ▸ nodup_range.filter _), sum_eq_foldl]
  rfl

end Predecessors

theorem nodup_positions (h : m.positions s = .ok is) : is.Nodup := by
  obtain ⟨js, -, h⟩ := bind_eq_ok.1 h
  cases h
  exact nodup_distinct js

theorem yields_demonPre (h : m.Tolled) (k : Int) (hs : ∀ q ∈ s, q ∈ m.states) :
    Yields (demonPre m k s) (m.barring k s.toSet) := by
  obtain ⟨is, his, hpos⟩ := Model.positions_spec hs
  have hn := nodup_positions his
  obtain ⟨rows, hrows, hmem⟩ := pre_spec h hpos
  obtain ⟨found, hfound, hmf⟩ := exists_filterM fun i hi => ⟨_, blockable_eq h hn hpos k ((hmem i).1 hi).1⟩
  have hstate : ∀ i ∈ found, ∃ q, m.stateAt i = .ok q := fun i hi => exists_nth ((hmem i).1 ((hmf i).1 hi).1).1
  obtain ⟨qs, hqs, hmq⟩ := exists_mapM hstate
  refine ⟨ofList qs, ?_, nodup_ofList qs, ?_⟩
  · simp only [demonPre, his, hrows, blocking, hfound, hqs, bind, Except.bind]
    rfl
  · ext q
    rw [mem_toSet, mem_ofList, hmq]
    constructor
    · rintro ⟨i, hi, hq⟩
      obtain ⟨hin, hb⟩ := (hmf i).1 hi
      obtain ⟨hlt, hpass⟩ := (hmem i).1 hin
      rw [blockable_eq h hn hpos k hlt, Except.ok.injEq, decide_eq_true_eq] at hb
      exact ⟨i, nth_eq_ok.1 hq, hpass, hb⟩
    · rintro ⟨i, hi, hpass, hcost⟩
      have hlt := lt_of_getElem? hi
      refine ⟨i, (hmf i).2 ⟨(hmem i).2 ⟨hlt, hpass⟩, ?_⟩, nth_eq_ok.2 hi⟩
      rw [blockable_eq h hn hpos k hlt, decide_eq_true hcost]

theorem computes_demonPre (h : m.Tolled) (k : Int) : Computes m.stateSet (demonPre m k) (m.barring k) where
  mono _ _ := h.barring_mono le_rfl
  inside X := by
    rw [toSet_stateSet]
    exact fun q ⟨i, hi, _⟩ => mem_of_getElem? hi
  value p hp := by
    rw [toSet_stateSet] at hp
    exact yields_demonPre h k hp

/-! ## Loops -/

section Loops

variable (h : m.Tolled) (k : Int)

include h

theorem computes_until (hs : s.Nodup) (ht : Within m t) :
    Computes m.stateSet (fun p => do return t.union (s.inter (← demonPre m k p)))
      fun X => t.toSet ∪ m.barring k X ∩ s.toSet where
  mono X Y hXY := Set.union_subset_union_right _ (Set.inter_subset_inter_left _ (h.barring_mono le_rfl hXY))
  inside X := Set.union_subset ht.toSet_subset (Set.inter_subset_left.trans ((computes_demonPre h k).inside X))
  value p hp := by
    obtain ⟨r, hr, hn, hset⟩ := (computes_demonPre h k).value p hp
    refine ⟨t.union (s.inter r), by simp only [hr]; rfl, nodup_union ht.1 (nodup_inter hs), ?_⟩
    rw [toSet_union, toSet_inter, hset, Set.inter_comm]

theorem computes_release (s : Names) (ht : Within m t) :
    Computes m.stateSet (fun p => do return t.inter (s.union (← demonPre m k p)))
      fun X => t.toSet ∩ (s.toSet ∪ m.barring k X) where
  mono X Y hXY := Set.inter_subset_inter_right _ (Set.union_subset_union_right _ (h.barring_mono le_rfl hXY))
  inside X := Set.inter_subset_left.trans ht.toSet_subset
  value p hp := by
    obtain ⟨r, hr, hn, hset⟩ := (computes_demonPre h k).value p hp
    refine ⟨t.inter (s.union r), by simp only [hr]; rfl, nodup_inter ht.1, ?_⟩
    rw [toSet_inter, toSet_union, hset]

omit h in
theorem length_lt_rounds : List.length m.stateSet + 1 < rounds m := by
  have hlen := length_stateSet m
  have hpow : m.states.length < Nat.pow 2 m.states.length := Nat.lt_two_pow_self
  unfold rounds
  omega

theorem yields_untilSet (hs : s.Nodup) (ht : Within m t)
    (hX : IsLeast {X | t.toSet ∪ m.barring k X ∩ s.toSet ⊆ X} X) :
    Yields (untilSet m (demonPre m k) s t) X := by
  have hfirst : t.toSet ∪ m.barring k ∅ ∩ s.toSet = t.toSet := by
    have hnone : m.barring k ∅ = ∅ := Set.eq_empty_of_forall_notMem fun q ⟨_, _, ⟨_, ⟨_, hr, _⟩, _⟩, _⟩ => hr
    rw [hnone, Set.empty_inter, Set.union_empty]
  exact yields_converge_least (computes_until h k hs ht) ht.1 hfirst (Nat.lt_of_succ_lt length_lt_rounds) hX

theorem yields_releaseSet (s : Names) (ht : Within m t) (hall : toSet m.stateSet ⊆ t.toSet → X = toSet m.stateSet)
    (hX : ¬ toSet m.stateSet ⊆ t.toSet → IsGreatest {X | X ⊆ t.toSet ∩ (s.toSet ∪ m.barring k X)} X) :
    Yields (releaseSet m (demonPre m k) s t) X := by
  have hlen := length_le ht.1 ht.toSet_subset
  exact yields_converge_within (computes_release h k s ht) (nodup_stateSet m) ht.1 ht.toSet_subset
    (fun _ => Set.inter_subset_left) (lt_of_le_of_lt (Nat.succ_le_succ hlen) length_lt_rounds) hall hX

end Loops

/-! ## Labels -/

def label (n : Nat) (operator : String) : String := "<J" ++ toString n ++ ">" ++ operator

theorem toList_label (n : Nat) (operator : String) :
    (label n operator).toList = ['<', 'J'] ++ (Nat.toDigits 10 n ++ '>' :: operator.toList) := by
  unfold label
  simp

theorem reads_demonic (hn : 1 ≤ n) (rest : List Char) :
    Formula.sequence [literal "<J", Lexicon.positive, literal ">"]
        ('<' :: 'J' :: (Nat.toDigits 10 n ++ '>' :: rest)) =
      some ('<' :: 'J' :: (Nat.toDigits 10 n ++ ['>']), rest) := by
  have hopen : ∀ s, literal "<J" ('<' :: 'J' :: s) = some (['<', 'J'], s) := fun _ => rfl
  have hclose : literal ">" ('>' :: rest) = some (['>'], rest) := rfl
  obtain ⟨d, ds, hd⟩ := exists_cons_of_ne_nil (Nat.toDigits_ne_nil (n := n) (b := 10))
  have hdigit : ∀ c ∈ decimals, c ≠ '0' → ('1' ≤ c && c ≤ '9') = true := by decide
  have hfirst : ('1' ≤ d && d ≤ '9') = true := by
    refine hdigit d (mem_toDigits (hd ▸ mem_cons_self)) ?_
    rintro rfl
    have := toDigits_zero_first hd
    omega
  have hds : ∀ c ∈ ds, isDigit c = true := fun c hc => isDigit_toDigits c (hd ▸ mem_cons_of_mem d hc)
  have hpositive : Lexicon.positive (d :: (ds ++ '>' :: rest)) = some (d :: ds, '>' :: rest) := by
    have hone : Formula.one (fun c => '1' ≤ c && c ≤ '9') (d :: (ds ++ '>' :: rest)) =
        some ([d], ds ++ '>' :: rest) := by
      simp only [Formula.one, hfirst, if_true]
    have hrun : anyRun isDigit (ds ++ '>' :: rest) = some (ds, '>' :: rest) := by
      unfold anyRun
      rw [takeWhile_append_of_pos hds, dropWhile_append_of_pos hds,
        takeWhile_cons_of_neg (by decide), dropWhile_cons_of_neg (by decide), append_nil]
    simp only [Lexicon.positive, Formula.sequence, hone, hrun]
    simp
  rw [hd]
  simp only [Formula.sequence, hopen, cons_append, hpositive, hclose]
  simp

theorem tokens_label (hn : 1 ≤ n) (operator : String) :
    Lexicon.ol.tokens (label n operator) = ⟨.demonic, "<J" ++ toString n ++ ">"⟩ :: Lexicon.ol.tokens operator := by
  have hfront : Lexicon.ol.front? ('<' :: 'J' :: (Nat.toDigits 10 n ++ '>' :: operator.toList)) =
      some (.demonic, '<' :: 'J' :: (Nat.toDigits 10 n ++ ['>'])) := by
    have hg : ∀ s, Lexicon.globally.reads ('<' :: s) = none := fun _ => rfl
    have hi : ∀ s, Lexicon.implies.reads ('<' :: s) = none := fun _ => rfl
    have he : ∀ s, Lexicon.eventually.reads ('<' :: s) = none := fun _ => rfl
    simp only [Lexicon.ol, Lexicon.front?, hg, hi, he, reads_demonic hn]
  unfold Lexicon.tokens
  have htext : String.ofList ('<' :: 'J' :: (Nat.toDigits 10 n ++ ['>'])) = "<J" ++ toString n ++ ">" := by
    rw [← String.toList_inj]
    simp
  rw [toList_label, ← htext]
  exact Lexicon.tokensFrom_front (cons_ne_nil _ _) (by simp) hfront

theorem kindsIn_label (hn : 1 ≤ n) (operator : String) :
    kindsIn .ol (label n operator) = .demonic :: kindsIn .ol operator := congrArg (map _) (tokens_label hn operator)

theorem strengthOf_label {operator : String} (hop : operator.toList.length = 1) :
    strengthOf (label n operator) = if n < 10 ^ maxDigits then .ok (n : Int) else .error .value := by
  obtain ⟨c, hc⟩ := length_eq_one_iff.1 hop
  have hbetween : between (label n operator).toList 2 (-2) = Nat.toDigits 10 n := by
    rw [toList_label, hc]
    exact Coalition.between_ends ['<', 'J'] _ ['>', c] (by simp)
  unfold strengthOf
  rw [hbetween, ← toList_natRepr, String.ofList_toList, readInt?_toString_eq]
  split <;> rfl

theorem of?_unary (hn : 1 ≤ n) {op : Unary} (h : Unary.of? (label 1 letter) = some op) :
    Unary.of? (label n letter) = some op := by
  unfold Unary.of? at h ⊢
  rw [kindsIn_label (by omega)] at h
  rwa [kindsIn_label hn]

theorem of?_binary (hn : 1 ≤ n) {op : Binary} (h : Binary.of? (label 1 letter) = some op) :
    Binary.of? (label n letter) = some op := by
  unfold Binary.of? at h ⊢
  rw [kindsIn_label (by omega)] at h
  rwa [kindsIn_label hn]

/-! ## Checking -/

theorem one_print (h : ∀ q ∈ s, Unmarked q) : one m s.print none = .ok s.print := by
  obtain ⟨hnot, hdemonic⟩ := marks_ol.absent (l := .ol) (unmarked_print h)
  have hof : Unary.of? s.print = none := by
    unfold Unary.of? Unary.among
    simp only [hnot, hdemonic, Bool.false_and, Bool.false_eq_true, if_false]
  simp only [one, hof]

/-- The text of a set that depends on the strength of a demon, if the strength can be read. -/
def asked (n : Nat) (f : Int → Outcome Names) : Outcome String :=
  if n < 10 ^ maxDigits then do return (← f n).print else .error .value

theorem shows_asked (hlt : n < 10 ^ maxDigits) {f : Int → Outcome Names} (h : Yields (f n) X) : Shows (asked n f) X := by
  rw [asked, if_pos hlt]
  exact h.shows

theorem one_label (hn : 1 ≤ n) (hs : s.Nodup) :
    one m (label n "X") (some s.print) = asked n (fun k => demonPre m k (sorted s)) ∧
      one m (label n "F") (some s.print) = asked n (fun k => untilSet m (demonPre m k) m.stateSet (sorted s)) ∧
      one m (label n "G") (some s.print) = asked n (fun k => releaseSet m (demonPre m k) [] (sorted s)) := by
  have hX : Unary.of? (label n "X") = some .next := of?_unary hn (by decide)
  have hF : Unary.of? (label n "F") = some .eventually := of?_unary hn (by decide)
  have hG : Unary.of? (label n "G") = some .globally := of?_unary hn (by decide)
  unfold asked
  refine ⟨?_, ?_, ?_⟩ <;> simp only [one, hX, hF, hG, Unary.apply, argument, read_print hs] <;>
    rw [strengthOf_label rfl] <;> split <;> rfl

theorem two_label (hn : 1 ≤ n) (hs : s.Nodup) (ht : t.Nodup) :
    two m (label n "U") s.print t.print = asked n (fun k => untilSet m (demonPre m k) (sorted s) (sorted t)) ∧
      two m (label n "R") s.print t.print = asked n (fun k => releaseSet m (demonPre m k) (sorted s) (sorted t)) ∧
      two m (label n "W") s.print t.print =
        asked n (fun k => releaseSet m (demonPre m k) (sorted t) (union (sorted s) (sorted t))) := by
  have hU : Binary.of? (label n "U") = some .untl := of?_binary hn (by decide)
  have hR : Binary.of? (label n "R") = some .release := of?_binary hn (by decide)
  have hW : Binary.of? (label n "W") = some .weak := of?_binary hn (by decide)
  unfold asked
  refine ⟨?_, ?_, ?_⟩ <;> simp only [two, hU, hR, hW, Binary.apply, read_print hs, read_print ht] <;>
    rw [strengthOf_label rfl] <;> split <;> rfl

/-- A sequence stays in one set until it comes into another, or for ever, if it is in one of them as long as it
has not been in the second. -/
theorem weak_iff_release {α : Type} (φ ψ : Set α) (π : ℕ → α) : (∀ k, (∀ j < k, π j ∉ ψ) → π k ∈ φ ∪ ψ) ↔
    (∀ i, π i ∈ φ) ∨ ∃ i, (∀ j < i, π j ∈ φ) ∧ π i ∈ ψ := by
  classical
  constructor
  · intro hrel
    by_cases hψ : ∃ i, π i ∈ ψ
    · refine .inr ⟨Nat.find hψ, fun j hj => ?_, Nat.find_spec hψ⟩
      have hbefore : ∀ l < Nat.find hψ, π l ∉ ψ := fun l hl => Nat.find_min hψ hl
      exact (hrel j fun l hl => hbefore l (by omega)).resolve_right (hbefore j hj)
    · exact .inl fun i => (hrel i fun j _ hj => hψ ⟨j, hj⟩).resolve_right fun hi => hψ ⟨i, hi⟩
  · rintro (hall | ⟨i, hφ, hψ⟩) k hk
    · exact .inl (hall k)
    · rcases Nat.lt_trichotomy k i with hlt | rfl | hgt
      · exact .inl (hφ k hlt)
      · exact .inr hψ
      · exact absurd hψ (hk i hgt)

/-- A checker shows where a side can enforce the temporal operators, with release and weak until. -/
structure ShowsReleased {κ : Type} (solve : Tree → Outcome String) (label : String → String) (G : Game String κ)
    (φ ψ : Names) : Prop extends ShowsEnforced solve label G φ ψ where
  release : Shows (solve (.binary (label "R") (.leaf φ.print) (.leaf ψ.print)))
    {q | q ∈ G.states ∧ G.Enforces (fun π => ∀ i, (∀ j < i, π j ∉ φ.toSet) → π i ∈ ψ.toSet) q}
  weak : Shows (solve (.binary (label "W") (.leaf φ.print) (.leaf ψ.print)))
    {q | q ∈ G.states ∧
      G.Enforces (fun π => (∀ i, π i ∈ φ.toSet) ∨ ∃ i, (∀ j < i, π j ∈ φ.toSet) ∧ π i ∈ ψ.toSet) q}

/-- For every strength that is read and all sets of states, solving a temporal operator of a demon gives the
text of the set of states from which the demon can remove transitions, for at most its strength at each state
and never all of them, such that every infinite path along the others satisfies the operator. -/
theorem shows_obstructed (h : m.Weighted) (hnames : ∀ q ∈ m.states, Unmarked q) (hn : 1 ≤ n)
    (hlt : n < 10 ^ Text.maxDigits) {φ ψ : Names} (hφ : Within m φ) (hψ : Within m ψ) :
    ShowsReleased (solve m) (label n) (m.obstruction n) φ ψ := by
  have hp : (m.obstruction n).Proper := h.proper (by omega)
  have hforce : m.barring n = (m.obstruction n).force := funext fun X => (h.tolled.force_eq h.nodup X).symm
  have hφleaf := one_print (m := m) fun q hq => hnames q (hφ.2 q hq)
  have hψleaf := one_print (m := m) fun q hq => hnames q (hψ.2 q hq)
  obtain ⟨hX, hF, hG⟩ := one_label (m := m) hn hφ.1
  obtain ⟨hU, hR, hW⟩ := two_label (m := m) hn hφ.1 hψ.1
  have hφS := hφ.sorted
  have hψS := hψ.sorted
  -- where all states may be kept, all of them are: each has a transition
  have hrelease : ∀ {s t : Names} {X : Set String}, Within m t →
      IsGreatest {X | X ⊆ t.toSet ∩ (s.toSet ∪ (m.obstruction n).force X)} X →
        Yields (releaseSet m (demonPre m n) s t) X := by
    intro s t X ht hX
    refine yields_releaseSet h.tolled n s ht (fun hall => ?_) fun _ => hforce ▸ hX
    refine (hX.1.trans (Set.inter_subset_left.trans ht.toSet_subset)).antisymm (hX.2 (Set.subset_inter hall ?_))
    rw [toSet_stateSet]
    exact Set.subset_union_of_subset_right hp.force_states.ge _
  have hthrough : ∀ Z, (m.obstruction n).force Z ∩ toSet m.stateSet = (m.obstruction n).force Z := fun Z =>
    Set.inter_eq_left.2 (hforce ▸ (computes_demonPre h.tolled n).inside Z)
  refine ⟨⟨?_, ?_, ?_, ?_⟩, ?_, ?_⟩ <;>
    simp only [solve, Tree.solve_unary_leaf hφleaf, Tree.solve_binary_leaf hφleaf hψleaf, hX, hF, hG, hU, hR, hW] <;>
    refine shows_asked hlt ?_
  · have hpre := yields_demonPre h.tolled n hφS.2
    rw [toSet_sorted, hforce] at hpre
    exact hp.force_eq _ ▸ hpre
  · -- nothing releases from staying in the set
    have hkeep := hp.isGreatest_release (φ := ∅) (ψ := φ.toSet) hφ.2
    simp only [Set.mem_empty_iff_false, not_false_eq_true, implies_true, true_implies] at hkeep
    exact hrelease hφS (by rwa [toSet_sorted, toSet_nil])
  · refine yields_untilSet h.tolled n (nodup_stateSet m) hφS ?_
    simp only [hforce, hthrough, toSet_sorted]
    exact hp.isLeast_eventually hφ.2
  · refine yields_untilSet h.tolled n (nodup_sorted hφ.1) hψS ?_
    rw [toSet_sorted, toSet_sorted, hforce]
    exact hp.isLeast_until hψ.2
  · refine hrelease hψS ?_
    rw [toSet_sorted, toSet_sorted]
    exact hp.isGreatest_release hψ.2
  · have hweak := hp.isGreatest_release (φ := ψ.toSet) (ψ := φ.toSet ∪ ψ.toSet) (Set.union_subset hφ.2 hψ.2)
    simp only [weak_iff_release] at hweak
    exact hrelease (hφS.union hψS) (by rwa [toSet_union, toSet_sorted, toSet_sorted])

/-- From `s0` a demon of strength 2 can bar the way to `s1` or the way to `s2`, but not both; `s1` can be left for
nothing, and `s2` has a loop only. -/
def fork : Model where
  graph := [[.zero, .text "2", .text "2"], [.text "*", .text "*", .text "3"], [.zero, .zero, .text "1"]]
  states := ["s0", "s1", "s2"]
  props := ["p"]
  labels := [[.num 0], [.num 1], [.num 0]]
  initial := "s0"

theorem fork_weighted : fork.Weighted where
  nodup := by decide
  rows := by decide
  square := by decide
  nonzero := by decide
  priced := by
    have hwords : ∀ row ∈ fork.graph, ∀ c ∈ row, c = .zero ∨ c = .text "*" ∨
        ∃ p ∈ [("1", (1 : Int)), ("2", 2), ("3", 3)], c = .text p.1 ∧ readInt? p.1 = some p.2 ∧ 0 < p.2 := by decide
    exact fun row hrow c hc => (hwords row hrow c hc).imp_right (.imp_right fun h => ⟨_, _, h.choose_spec.2⟩)

theorem shows_obstructed_fork : ShowsReleased (solve fork) (label 2) (fork.obstruction 2) ["s1"] ["s2"] :=
  shows_obstructed fork_weighted (by decide) (by decide) (Text.lt_pow_maxDigits (by decide))
    ⟨by decide, by decide⟩ ⟨by decide, by decide⟩

theorem strengthHead_long (hlong : ¬ n < 10 ^ maxDigits) (between : Bool) (operator : String) :
    Formula.strengthHead between ("<J" ++ toString n ++ ">") operator = .error .value := by
  have hruns : Formula.digitRuns ("<J" ++ toString n ++ ">") = [toString n] := by
    have hlist : ("<J" ++ toString n ++ ">").toList = '<' :: 'J' :: (Nat.toDigits 10 n ++ ['>']) := by simp
    unfold Formula.digitRuns
    rw [hlist, Nat.toString_eq_ofList_toDigits]
    exact congrArg (map String.ofList) (Coalition.digitRunsFrom_numeral n (show isDigit '>' = false by decide) [])
  unfold Formula.strengthHead
  rw [hruns, headD_cons, readInt?_toString_eq, if_neg hlong]
  rfl

open Formula.Grammar in
theorem parse_next_long (hn : 1 ≤ n) (hlong : ¬ n < 10 ^ maxDigits) (agents : Formula.AgentCount) :
    Formula.parse .ol .ol agents (label n "Xp") = .ok none := by
  unfold Formula.parse
  simp only [Logic.lexicon, tokens_label hn, show Lexicon.ol.tokens "Xp" = [⟨.next, "X"⟩, ⟨.prop, "p"⟩] by decide]
  have hhead := strengthHead_long hlong false "X"
  generalize "<J" ++ toString n ++ ">" = head at hhead
  simp [Logic.grammar, withConstants, propositional, Formula.Grammar.parse, parseFrom, readFormula, readOperand,
    readRest, readStars, withHead, hhead, Formula.Reading.andThen]

theorem parse_longStrength : fork.Weighted ∧ (∀ q ∈ fork.states, Unmarked q) ∧ 1 ≤ 10 ^ maxDigits ∧
    ∀ agents, Formula.parse .ol .ol agents (label (10 ^ maxDigits) "Xp") = .ok none :=
  have hpos : 1 ≤ 10 ^ maxDigits := Nat.one_le_pow _ _ (by decide)
  ⟨fork_weighted, by decide, hpos, parse_next_long hpos (Nat.lt_irrefl _)⟩

/-! ## More strength -/

section Strength

variable (h : m.Tolled) (k : Int)

include h

theorem exists_untilSet (hs : s.Nodup) (ht : Within m t) :
    ∃ X, Yields (untilSet m (demonPre m k) s t) X ∧ IsLeast {X | t.toSet ∪ m.barring k X ∩ s.toSet ⊆ X} X := by
  obtain ⟨X, hX⟩ := exists_isLeast (f := fun X => m.barring k X ∩ s.toSet)
    (fun X Y hXY => Set.inter_subset_inter_left _ (h.barring_mono le_rfl hXY)) t.toSet
  exact ⟨X, yields_untilSet h k hs ht hX, hX⟩

theorem exists_releaseSet (s : Names) (ht : Within m t) : ∃ X, Yields (releaseSet m (demonPre m k) s t) X ∧
    (toSet m.stateSet ⊆ t.toSet → X = toSet m.stateSet) ∧ (¬ toSet m.stateSet ⊆ t.toSet →
      IsGreatest {X | X ⊆ t.toSet ∩ (s.toSet ∪ m.barring k X)} X) := by
  by_cases hall : toSet m.stateSet ⊆ t.toSet
  · exact ⟨_, yields_releaseSet h k s ht (fun _ => rfl) (absurd hall), fun _ => rfl, absurd hall⟩
  · obtain ⟨X, hX⟩ := exists_isGreatest (computes_release h k s ht).mono
    exact ⟨X, yields_releaseSet h k s ht (fun h => absurd h hall) fun _ => hX, fun h => absurd h hall, fun _ => hX⟩

variable {k} {n : Int} (hnk : n ≤ k)

include hnk

theorem untilSet_mono (hs : s.Nodup) (ht : Within m t) : ∃ X Y, Yields (untilSet m (demonPre m n) s t) X ∧
    Yields (untilSet m (demonPre m k) s t) Y ∧ X ⊆ Y := by
  obtain ⟨X, hX, hleast⟩ := exists_untilSet h n hs ht
  obtain ⟨Y, hY, hleast'⟩ := exists_untilSet h k hs ht
  refine ⟨X, Y, hX, hY, hleast.2 ((Set.union_subset_union_right _ ?_).trans hleast'.1)⟩
  exact Set.inter_subset_inter_left _ (h.barring_mono hnk subset_rfl)

theorem releaseSet_mono (s : Names) (ht : Within m t) : ∃ X Y, Yields (releaseSet m (demonPre m n) s t) X ∧
    Yields (releaseSet m (demonPre m k) s t) Y ∧ X ⊆ Y := by
  obtain ⟨X, hX, hall, hgreatest⟩ := exists_releaseSet h n s ht
  obtain ⟨Y, hY, hall', hgreatest'⟩ := exists_releaseSet h k s ht
  refine ⟨X, Y, hX, hY, ?_⟩
  by_cases hsub : toSet m.stateSet ⊆ t.toSet
  · rw [hall hsub, hall' hsub]
  · refine (hgreatest' hsub).2 ((hgreatest hsub).1.trans (Set.inter_subset_inter_right _ ?_))
    exact Set.union_subset_union_right _ (h.barring_mono hnk subset_rfl)

omit hnk in
theorem untilSet_subset_releaseSet (k : Int) (hs : Within m s) (ht : Within m t) :
    ∃ X Y, Yields (untilSet m (demonPre m k) s t) X ∧ Yields (releaseSet m (demonPre m k) t (s.union t)) Y ∧ X ⊆ Y := by
  obtain ⟨X, hX, hleast⟩ := exists_untilSet h k hs.1 ht
  obtain ⟨Y, hY, hall, hgreatest⟩ := exists_releaseSet h k t (hs.union ht)
  have hF := computes_until h k hs.1 ht
  have hfix := hleast.2 (hF.mono hleast.1)
  refine ⟨X, Y, hX, hY, ?_⟩
  by_cases hsub : toSet m.stateSet ⊆ (s.union t).toSet
  · rw [hall hsub]
    exact hfix.trans (hF.inside X)
  · -- a state of the least set is in the second one, or in the first one and forced back
    refine (hgreatest hsub).2 fun q hq => ?_
    rw [toSet_union]
    rcases hfix hq with hq | ⟨hforce, hq⟩
    · exact ⟨.inr hq, .inl hq⟩
    · exact ⟨.inl hq, .inr hforce⟩

end Strength

/-- Two answers are the texts of sets, of which the second holds the first. -/
def Widens (x y : Outcome String) : Prop := ∃ X Y, Shows x X ∧ Shows y Y ∧ X ⊆ Y

theorem widens_asked {k : Nat} (hn : n < 10 ^ maxDigits) (hk : k < 10 ^ maxDigits) {f g : Int → Outcome Names}
    (h : ∃ X Y, Yields (f n) X ∧ Yields (g k) Y ∧ X ⊆ Y) : Widens (asked n f) (asked k g) := by
  obtain ⟨X, Y, hX, hY, hsub⟩ := h
  exact ⟨X, Y, shows_asked hn hX, shows_asked hk hY, hsub⟩

/-- For all subformulas whose answers are sets of states, a demon of more strength gets no fewer states with each
operator, unless its strength is too long to be read, and with a weak `until` it gets no fewer than with a strong one. -/
theorem solve_widens (h : m.Tolled) {k : Nat} (hn : 1 ≤ n) (hnk : n ≤ k) {a b : Tree} {φ ψ : Names}
    (ha : solve m a = .ok φ.print) (hb : solve m b = .ok ψ.print) (hφ : Within m φ) (hψ : Within m ψ) :
    (k < 10 ^ maxDigits →
      (∀ l ∈ ["X", "F", "G"], Widens (solve m (.unary (label n l) a)) (solve m (.unary (label k l) a))) ∧
      (∀ l ∈ ["U", "R", "W"], Widens (solve m (.binary (label n l) a b)) (solve m (.binary (label k l) a b))) ∧
      Widens (solve m (.binary (label n "U") a b)) (solve m (.binary (label n "W") a b))) ∧
    (¬ k < 10 ^ maxDigits →
      (∀ l ∈ ["X", "F", "G"], solve m (.unary (label k l) a) = .error .value) ∧
      ∀ l ∈ ["U", "R", "W"], solve m (.binary (label k l) a b) = .error .value) := by
  have hone : ∀ l, solve m (.unary l a) = one m l (some φ.print) := fun l => Tree.solve_unary ha
  have htwo : ∀ l, solve m (.binary l a b) = two m l φ.print ψ.print := fun l => Tree.solve_binary ha hb
  obtain ⟨hX, hF, hG⟩ := one_label (m := m) hn hφ.1
  obtain ⟨hX', hF', hG'⟩ := one_label (m := m) (hn.trans hnk) hφ.1
  obtain ⟨hU, hR, hW⟩ := two_label (m := m) hn hφ.1 hψ.1
  obtain ⟨hU', hR', hW'⟩ := two_label (m := m) (hn.trans hnk) hφ.1 hψ.1
  simp only [hone, htwo, forall_mem_cons, not_mem_nil, false_imp_iff, implies_true, and_true, hX, hF, hG, hX', hF', hG',
    hU, hR, hW, hU', hR', hW']
  constructor
  · intro hk
    have hlt : n < 10 ^ maxDigits := by omega
    have hle : (n : Int) ≤ k := by omega
    have hφS := hφ.sorted
    have hψS := hψ.sorted
    refine ⟨⟨widens_asked hlt hk ?_, widens_asked hlt hk ?_, widens_asked hlt hk ?_⟩,
      ⟨widens_asked hlt hk ?_, widens_asked hlt hk ?_, widens_asked hlt hk ?_⟩, widens_asked hlt hlt ?_⟩
    · exact ⟨_, _, yields_demonPre h n hφS.2, yields_demonPre h k hφS.2, h.barring_mono hle subset_rfl⟩
    · exact untilSet_mono h hle (nodup_stateSet m) hφS
    · exact releaseSet_mono h hle [] hφS
    · exact untilSet_mono h hle hφS.1 hψS
    · exact releaseSet_mono h hle _ hψS
    · exact releaseSet_mono h hle _ (hφS.union hψS)
    · exact untilSet_subset_releaseSet h n hφS hψS
  · intro hk
    simp only [asked, if_neg hk, and_self]

theorem solve_widens_fork :
    Widens (solve fork (.binary (label 1 "U") (.leaf (print ["s1"])) (.leaf (print ["s2"]))))
      (solve fork (.binary (label 1 "W") (.leaf (print ["s1"])) (.leaf (print ["s2"])))) :=
  ((solve_widens (φ := ["s1"]) (ψ := ["s2"]) (a := .leaf _) (b := .leaf _) fork_weighted.tolled le_rfl le_rfl
    (one_print (by decide)) (one_print (by decide)) ⟨by decide, by decide⟩ ⟨by decide, by decide⟩).1
      (Text.lt_pow_maxDigits (by decide))).2.2

/-! ## Loops that end and loops that do not -/

/-- Where nothing costs less than nothing, the loops of all operators come to an end, for every strength and all sets. -/
theorem loops_end (h : m.Tolled) (n : Int) {φ ψ : Names} (hφ : Within m φ) (hψ : Within m ψ) :
    (∃ p, untilSet m (demonPre m n) m.stateSet φ = .ok p) ∧ (∃ p, releaseSet m (demonPre m n) [] φ = .ok p) ∧
      (∃ p, untilSet m (demonPre m n) φ ψ = .ok p) ∧ (∃ p, releaseSet m (demonPre m n) φ ψ = .ok p) ∧
      ∃ p, releaseSet m (demonPre m n) ψ (φ.union ψ) = .ok p := by
  have huntil : ∀ {s t : Names}, s.Nodup → Within m t → ∃ p, untilSet m (demonPre m n) s t = .ok p := by
    intro s t hs ht
    obtain ⟨X, ⟨p, hp, -⟩, -⟩ := exists_untilSet h n hs ht
    exact ⟨p, hp⟩
  have hrelease : ∀ (s : Names) {t : Names}, Within m t → ∃ p, releaseSet m (demonPre m n) s t = .ok p := by
    intro s t ht
    obtain ⟨X, ⟨p, hp, -⟩, -⟩ := exists_releaseSet h n s ht
    exact ⟨p, hp⟩
  exact ⟨huntil (nodup_stateSet m) hφ, hrelease [] hφ, huntil hφ.1 hψ, hrelease φ hψ, hrelease ψ (hφ.union hψ)⟩

theorem loops_end_fork : ∃ p, untilSet fork (demonPre fork 1) fork.stateSet ["s1"] = .ok p :=
  (loops_end fork_weighted.tolled 1 (φ := ["s1"]) (ψ := []) ⟨by decide, by decide⟩ ⟨by decide, by decide⟩).1

theorem converge_swing {step : Names → Outcome Names} (hs : step s = .ok t) (ht : step t = .ok s)
    (hst : t.same s = false) (hts : s.same t = false) (hfirst : s.same [] = false) :
    ∀ k, converge step k [] s = .error .endless := by
  have hswing : ∀ k, converge step k s t = .error .endless ∧ converge step k t s = .error .endless := by
    intro k
    induction k with
    | zero => exact ⟨rfl, rfl⟩
    | succ k ih => simp [converge, hst, hts, hs, ht, bind, Except.bind, ih]
  intro k
  cases k with
  | zero => rfl
  | succ k => simp [converge, hfirst, hs, bind, Except.bind, hswing]

theorem cellCost_long (hlong : ¬ n < 10 ^ maxDigits) : cellCost (.text (toString n)) = .error .value := by
  have hstar : toString n ≠ "*" := by
    intro h
    have hmem : '*' ∈ Nat.toDigits 10 n := by
      rw [← toList_natRepr, h]
      exact mem_singleton_self _
    exact absurd (mem_toDigits hmem) (by decide)
  rw [cellCost, if_neg hstar, readInt?_toString_eq, if_neg hlong]
  rfl

theorem demonPre_eq (is : List Nat) (hs : m.positions s = .ok is) (hle : is.Pairwise (· ≤ ·)) (k : Int) :
    demonPre m k s = (preFrom is 0 m.graph).bind (blocking m k is) := by
  have hsort : is.mergeSort (· ≤ ·) = is := mergeSort_of_pairwise (by simpa using hle)
  simp only [demonPre, hs, pre, hsort, bind, Except.bind]

/-- From `s2` there are ways to `s0` and to `s1`, and the demon gains by removing the loop. -/
def swing (cost : String) : Model where
  graph := [[.zero, .zero, .zero], [.zero, .zero, .zero], [.text "1", .text cost, .text "-5"]]
  states := ["s0", "s1", "s2"]

theorem demonPre_swing (cost : String) : demonPre (swing cost) 1 ["s0"] = blocking (swing cost) 1 [0] [2] :=
  demonPre_eq [0] rfl (by decide) 1

theorem untilSet_unread {cost : String} (hcost : cellCost (.text cost) = .error .value) :
    untilSet (swing cost) (demonPre (swing cost) 1) (swing cost).stateSet ["s0"] = .error .value := by
  have hblock : blockable (swing cost) (2 : Nat) 1 [1, 2] = .error .value := by
    show (((cellCost (.text cost)).bind _).bind _) = _
    rw [hcost]
    rfl
  have hpre : demonPre (swing cost) 1 ["s0"] = .error .value := by
    rw [demonPre_swing]
    show (((blockable (swing cost) (2 : Nat) 1 [1, 2]).bind _).bind _).bind _ = _
    rw [hblock]
    rfl
  show converge _ (9 + 1) [] ["s0"] = _
  simp only [converge, hpre]
  rfl

/-- With a loop that costs less than nothing, `s2` comes in when it is out and goes out when it is in, for ever. A cost
that is too long to be read stops the loop. -/
theorem untilSet_swing : (∀ k, converge
      (fun p => do return Names.union ["s0"] ((swing "5").stateSet.inter (← demonPre (swing "5") 1 p))) k [] ["s0"] =
        .error .endless) ∧
    untilSet (swing (toString (10 ^ Text.maxDigits))) (demonPre (swing (toString (10 ^ Text.maxDigits))) 1)
      (swing (toString (10 ^ Text.maxDigits))).stateSet ["s0"] = .error .value := by
  have hin : demonPre (swing "5") 1 ["s0"] = .ok ["s2"] := (demonPre_swing _).trans (by decide)
  have hout : demonPre (swing "5") 1 ["s0", "s2"] = .ok [] :=
    (demonPre_eq [0, 2] rfl (by decide) 1).trans (by decide)
  refine ⟨converge_swing (t := ["s0", "s2"]) ?_ ?_ (by decide) (by decide) (by decide),
    untilSet_unread (cellCost_long (Nat.lt_irrefl _))⟩
  · simp only [hin]
    rfl
  · simp only [hout]
    rfl

end Checker.Obstruction

end Arena
