/-
Graded structures as they are read: the states are the words behind their title, and the successors of a state those at
whose places its rows of the matrix have a cell other than `0`. Lines without words are passed over.
-/
import Arena.Fuzzy.Structure
import Arena.Proofs.Model.Transitions
import Arena.Proofs.Text.Lines

namespace Arena.Fuzzy

open List Text

variable {α : Type} {states : List String} {rows : List (List String)}

/-! ## Tables -/

namespace Valuation

def keys (v : Valuation α) : List String := v.map (·.1)

theorem get?_isSome {v : Valuation α} {k : String} : (v.get? k).isSome = true ↔ k ∈ v.keys := by
  unfold get? keys
  rw [Option.isSome_map, find?_isSome, mem_map]
  simp only [beq_iff_eq]

theorem get?_put (v : Valuation α) (k : String) (x : α) (s : String) :
    (v.put k x).get? s = if s = k then some x else v.get? s := by
  rw [get?, put, find?_put (fun _ => beq_iff_eq) fun _ => beq_iff_eq]
  simp only [beq_iff_eq]
  rfl

theorem mem_keys_put (v : Valuation α) (k : String) (x : α) (k' : String) :
    k' ∈ (v.put k x).keys ↔ k' = k ∨ k' ∈ v.keys := by
  rw [← get?_isSome, ← get?_isSome, get?_put]
  split <;> simp_all

theorem mem_keys_foldl_put (new : Valuation α) : ∀ (v : Valuation α) (k : String),
    k ∈ (keys (new.foldl (fun v e => v.put e.1 e.2) v)) ↔ k ∈ v.keys ∨ k ∈ new.keys := by
  induction new with
  | nil => simp [keys]
  | cons e new ih =>
    intro v k
    have hcons : k ∈ keys (e :: new) ↔ k = e.1 ∨ k ∈ keys new := mem_cons
    rw [foldl_cons, ih, mem_keys_put]
    tauto

end Valuation

namespace Kripke

open Fuzzy.Valuation

variable {degrees : Valuation α}

/-! ## Rows of the matrix -/

theorem mem_keys_labelDegrees [Degree α] {label : String} :
    label ∈ (labelDegrees rows : Valuation α).keys ↔ label ≠ "0" ∧ ∃ row ∈ rows, label ∈ row := by
  have hkeys : (labelDegrees rows : Valuation α).keys =
      sorted (distinct (rows.flatten.filter (· ≠ "0"))) := by
    unfold labelDegrees Valuation.keys
    rw [map_map]
    exact map_fst_zip (by simp)
  rw [hkeys, sorted, mem_mergeSort, mem_distinct, mem_filter, mem_flatten]
  simp only [decide_not, Bool.not_eq_eq_eq_not, Bool.not_true, decide_eq_false_iff_not]
  tauto

theorem rowSuccessors_eq (degrees : Valuation α) (cells : List (String × String)) : rowSuccessors degrees cells =
    cells.foldl (fun (v : Valuation α) c => if c.2 = "0" then v else ((degrees.get? c.2).map (v.put c.1)).getD v) [] := by
  unfold rowSuccessors
  congr
  funext v c
  obtain ⟨state, cell⟩ := c
  dsimp only
  cases degrees.get? cell <;> rfl

theorem mem_keys_rowSuccessors {t : String} (cells : List (String × String)) :
    t ∈ (rowSuccessors degrees cells).keys ↔ ∃ label, (t, label) ∈ cells ∧ label ≠ "0" ∧ label ∈ degrees.keys := by
  have hfold : ∀ v : Valuation α, t ∈ keys (cells.foldl (fun v c => if c.2 = "0" then v
      else ((degrees.get? c.2).map (v.put c.1)).getD v) v) ↔ t ∈ v.keys ∨ ∃ label, (t, label) ∈ cells ∧ label ≠ "0" ∧ label ∈ degrees.keys := by
    induction cells with
    | nil => simp
    | cons c cells ih =>
      intro v
      rw [foldl_cons, ih]
      obtain ⟨state, cell⟩ := c
      by_cases hzero : cell = "0"
      · grind
      · simp only [hzero, if_false]
        cases hd : degrees.get? cell with
        | none =>
          have hkey : cell ∉ degrees.keys := fun hmem => by
            have := get?_isSome.2 hmem
            simp [hd] at this
          grind
        | some d =>
          have hkey : cell ∈ degrees.keys := get?_isSome.1 (by simp [hd])
          simp only [Option.map_some, Option.getD_some, mem_keys_put]
          grind
  rw [rowSuccessors_eq]
  exact (hfold []).trans (or_iff_right not_mem_nil)

/-! ## Successors -/

def postIn (edges : List (String × Valuation α)) (s : String) : Valuation α :=
  ((edges.find? fun e => e.1 == s).map (·.2)).getD []

theorem addEdges_keys (edges : List (String × Valuation α)) (s : String) (new : Valuation α) :
    (addEdges edges s new).map (·.1) = edges.map (·.1) := by
  unfold addEdges
  rw [map_map]
  refine map_congr_left fun e _ => ?_
  by_cases he : e.1 = s <;> simp [he]

theorem mem_postIn_addEdges (s : String) (new : Valuation α) (q t : String) :
    ∀ edges : List (String × Valuation α), q ∈ edges.map (·.1) →
      (t ∈ (postIn (addEdges edges s new) q).keys ↔ t ∈ (postIn edges q).keys ∨ q = s ∧ t ∈ new.keys)
  | [], h => by cases h
  | e :: edges, h => by
    by_cases hq : e.1 = q
    · subst hq
      by_cases hs : e.1 = s
      · have := mem_keys_foldl_put new e.2 t
        simp [addEdges, postIn, hs, this]
      · simp [addEdges, postIn, hs]
    · have hrest : q ∈ edges.map (·.1) := by
        rcases mem_cons.1 h with h | h
        · exact absurd h.symm hq
        · exact h
      have ih := mem_postIn_addEdges s new q t edges hrest
      have hskip : ∀ x : String × Valuation α, x.1 = e.1 → ∀ more, postIn (x :: more) q = postIn more q := by
        intro x hx more
        simp [postIn, hx, hq]
      rw [hskip e rfl]
      refine Iff.trans ?_ ih
      unfold addEdges
      rw [map_cons, hskip]
      by_cases hs : e.1 = s <;> simp [hs]

theorem mem_postIn_readEdges {degrees : Valuation α} {q t : String} :
    ∀ {rows : List (String × List String)} {i : Nat} {edges edges' : List (String × Valuation α)},
      readEdges states degrees i rows edges = .ok edges' → q ∈ edges.map (·.1) →
        (t ∈ (postIn edges' q).keys ↔ t ∈ (postIn edges q).keys ∨
          ∃ row, (q, row) ∈ rows ∧ t ∈ (rowSuccessors degrees (states.zip row)).keys)
  | [], i, edges, edges', h, _ => by
    cases h
    simp
  | (s, row) :: rows, i, edges, edges', h, hq => by
    rw [readEdges] at h
    by_cases hlen : row.length ≠ states.length
    · rw [if_pos hlen] at h
      cases h
    · rw [if_neg hlen] at h
      have ih := mem_postIn_readEdges (t := t) (q := q) h (by rw [addEdges_keys]; exact hq)
      rw [ih, mem_postIn_addEdges s _ q t edges hq]
      constructor
      · rintro ((ht | ⟨rfl, ht⟩) | ⟨r, hr, ht⟩)
        · exact .inl ht
        · exact .inr ⟨row, mem_cons_self, ht⟩
        · exact .inr ⟨r, mem_cons_of_mem _ hr, ht⟩
      · rintro (ht | ⟨r, hr, ht⟩)
        · exact .inl (.inl ht)
        · rcases mem_cons.1 hr with heq | hr
          · cases heq
            exact .inl (.inr ⟨rfl, ht⟩)
          · exact .inr ⟨r, hr, ht⟩

theorem readEdges_keys :
    ∀ {rows : List (String × List String)} {i : Nat} {edges edges' : List (String × Valuation α)},
      readEdges states degrees i rows edges = .ok edges' → edges'.map (·.1) = edges.map (·.1)
  | [], i, edges, edges', h => by
    cases h
    rfl
  | (s, row) :: rows, i, edges, edges', h => by
    rw [readEdges] at h
    by_cases hlen : row.length ≠ states.length
    · rw [if_pos hlen] at h
      cases h
    · rw [if_neg hlen] at h
      rw [readEdges_keys h, addEdges_keys]

theorem mem_zip_iff {β γ : Type} {xs : List β} {ys : List γ} {x : β} {y : γ} :
    (x, y) ∈ xs.zip ys ↔ ∃ i : Nat, xs[i]? = some x ∧ ys[i]? = some y := by
  rw [mem_iff_getElem?]
  exact exists_congr fun i => getElem?_zip_eq_some

theorem mem_postIn_read [Degree α]
    {edges : List (String × Valuation α)} (h : readEdges states (labelDegrees rows) 0 (states.zip rows)
      (tabulate states fun _ => []) = .ok edges) {q t : String} :
    t ∈ (postIn edges q).keys ↔ ∃ (i j : Nat) (row : List String) (label : String), states[i]? = some q ∧
      states[j]? = some t ∧ rows[i]? = some row ∧ row[j]? = some label ∧ label ≠ "0" := by
  have hkeys : (tabulate states fun _ => ([] : Valuation α)).map (·.1) = distinct states := by
    unfold tabulate
    rw [map_map]
    exact map_id _
  by_cases hq : q ∈ states
  · have hempty : (postIn (tabulate states fun _ => ([] : Valuation α)) q).keys = [] := by
      unfold postIn tabulate
      rw [find?_map]
      cases (distinct states).find? ((fun e : String × Valuation α => e.1 == q) ∘ fun k => (k, [])) <;> rfl
    rw [mem_postIn_readEdges h (by rw [hkeys, mem_distinct]; exact hq), hempty]
    simp only [not_mem_nil, false_or, mem_keys_rowSuccessors, mem_zip_iff, mem_keys_labelDegrees]
    constructor
    · rintro ⟨row, ⟨i, hi, hrow⟩, label, ⟨j, hj, hlabel⟩, hzero, -⟩
      exact ⟨i, j, row, label, hi, hj, hrow, hlabel, hzero⟩
    · rintro ⟨i, j, row, label, hi, hj, hrow, hlabel, hzero⟩
      exact ⟨row, ⟨i, hi, hrow⟩, label, ⟨j, hj, hlabel⟩, hzero, hzero, row, mem_of_getElem? hrow,
        mem_of_getElem? hlabel⟩
  · have hnone : edges.find? (fun e => e.1 == q) = none := by
      rw [find?_eq_none]
      intro e he heq
      have hmem := mem_map_of_mem (f := (·.1)) he
      rw [readEdges_keys h, hkeys, mem_distinct, eq_of_beq heq] at hmem
      exact hq hmem
    unfold postIn
    rw [hnone]
    constructor
    · intro ht
      cases ht
    · rintro ⟨i, _, _, _, hi, _⟩
      exact absurd (mem_of_getElem? hi) hq

/-! ## Texts -/

def wordedLines (source : String) : List String := (trimmedLines source).filter (· ≠ "")

theorem of_read [Degree α] {source : String} {k : Kripke α} (h : read source = .ok k) :
    ∃ names matrix, lineBehind (wordedLines source) "Name_State" = .ok names ∧ k.states = words names ∧
      matrixLines (wordedLines source) = .ok matrix ∧
      lineBehind (wordedLines source) "Initial_State" = .ok k.initial ∧
      ∀ q t, t ∈ (k.post q).keys ↔ ∃ (i j : Nat) (row : List String) (label : String), k.states[i]? = some q ∧
        k.states[j]? = some t ∧ ((matrix.take k.states.length).map words)[i]? = some row ∧
          row[j]? = some label ∧ label ≠ "0" := by
  obtain ⟨names, hnames, h⟩ := bind_eq_ok.1 h
  obtain ⟨matrix, hmatrix, h⟩ := bind_eq_ok.1 h
  dsimp only at h
  split at h
  · cases h
  obtain ⟨edges, hedges, h⟩ := bind_eq_ok.1 h
  obtain ⟨initial, hinitial, h⟩ := bind_eq_ok.1 h
  obtain ⟨props, -, h⟩ := bind_eq_ok.1 h
  obtain ⟨first, -, h⟩ := bind_eq_ok.1 h
  split at h
  · cases h
  obtain ⟨labels, -, h⟩ := bind_eq_ok.1 h
  cases h
  exact ⟨names, matrix, hnames, rfl, hmatrix, hinitial, fun q t => mem_postIn_read hedges⟩

end Kripke

end Arena.Fuzzy
