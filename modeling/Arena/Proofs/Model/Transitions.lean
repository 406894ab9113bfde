/-
What the matrices of a model say, by positions. When the transition matrix has no more rows and columns than there are
states, there is one edge for each cell that is not zero, to the state of the column, or back to that of the row where
the cell is `*`. When each row of the labelling has a cell for every proposition, the states of a proposition are those
whose cell is 1.
-/
import Arena.Checker.Basic
import Arena.Proofs.Data.Names

namespace Arena

open List

variable {q r : String} {α β : Type} {f : α → Outcome β} {i : Nat} {R : α → β → Prop} {row : List Cell} {ys : List β}
  {g : Matrix} {a x : α} {xs : List α}

/-! ## Sequences -/

section Runs

variable {σ : Type} {x : ExceptT Fault (StateM σ) α} {k : α → ExceptT Fault (StateM σ) β} {s s' : σ}

theorem run_bind_ok (h : x.run.run s = (.ok a, s')) : (x >>= k).run.run s = (k a).run.run s' := by
  rw [ExceptT.run_bind, StateT.run_bind, h]
  rfl

theorem run_bind_error {e : Fault} (h : x.run.run s = (.error e, s')) : (x >>= k).run.run s = (.error e, s') := by
  rw [ExceptT.run_bind, StateT.run_bind, h]
  rfl

theorem run_bind_eq_ok {b : β} (h : (x >>= k).run.run s = (.ok b, s')) :
    ∃ a s₁, x.run.run s = (.ok a, s₁) ∧ (k a).run.run s₁ = (.ok b, s') := by
  rcases hr : x.run.run s with ⟨r, s₁⟩
  cases r with
  | error e =>
    rw [run_bind_error hr] at h
    cases h
  | ok a =>
    rw [run_bind_ok hr] at h
    exact ⟨a, s₁, rfl, h⟩

theorem pure_inj {a b : α} (s : σ) (h : (pure a : ExceptT Fault (StateM σ) α) = pure b) : a = b :=
  Except.ok.inj (congrArg (fun x => (x.run.run s).1) h)

end Runs

theorem eq_ok_of_toOption {ε : Type} {x : Except ε α} (h : x.toOption = some a) : x = .ok a := by
  cases x with
  | error e => cases h
  | ok b => cases h; rfl

deriving instance DecidableEq for Fault

instance decidableEqExcept {ε α : Type} [DecidableEq ε] [DecidableEq α] : DecidableEq (Except ε α)
  | .ok a, .ok b => decidable_of_iff (a = b) (by simp)
  | .error a, .error b => decidable_of_iff (a = b) (by simp)
  | .ok _, .error _ | .error _, .ok _ => .isFalse nofun

instance decidableExistsOk {ε α : Type} {P : α → Prop} [DecidablePred P] :
    ∀ x : Except ε α, Decidable (∃ a, x = .ok a ∧ P a)
  | .ok a => decidable_of_iff (P a) (by simp)
  | .error _ => .isFalse (by simp)

theorem nth_natCast (xs : List α) (i : Nat) : nth xs i = orFault .position xs[i]? := by
  have hplace : place? xs.length i = if i < xs.length then some i else none := by
    unfold place?
    rw [if_neg (show ¬ (i : Int) < 0 by omega)]
    by_cases h : i < xs.length
    · simp [h]
    · simp [h]
  unfold nth
  rw [hplace]
  by_cases h : i < xs.length
  · rw [if_pos h]
  · rw [if_neg h, getElem?_eq_none (by omega)]
    rfl

theorem nth_eq_ok : nth xs i = .ok x ↔ xs[i]? = some x := by
  rw [nth_natCast]
  cases xs[i]? <;> simp [orFault]

theorem exists_nth (h : i < xs.length) : ∃ x, nth xs i = .ok x :=
  ⟨xs[i], nth_eq_ok.2 (getElem?_eq_getElem h)⟩

theorem mem_of_nth {i : Int} (h : nth xs i = .ok x) : x ∈ xs := by
  unfold nth at h
  split at h
  · rename_i j _
    cases hj : xs[j]? with
    | none => rw [hj] at h; cases h
    | some y =>
      rw [hj] at h
      cases h
      exact mem_of_getElem? hj
  · cases h

theorem exists_mapM :
    ∀ {xs : List α}, (∀ x ∈ xs, ∃ y, f x = .ok y) →
      ∃ ys, xs.mapM f = .ok ys ∧ ∀ y, y ∈ ys ↔ ∃ x ∈ xs, f x = .ok y
  | [], _ => ⟨[], rfl, by simp⟩
  | x :: xs, h => by
    obtain ⟨y, hy⟩ := h x mem_cons_self
    obtain ⟨ys, hys, hmem⟩ := exists_mapM fun z hz => h z (mem_cons_of_mem _ hz)
    refine ⟨y :: ys, ?_, fun z => ?_⟩
    · rw [mapM_cons, hy, hys]; rfl
    · rw [mem_cons, hmem, exists_mem_cons_iff, hy, Except.ok.injEq, eq_comm]

/-- A walk along a list that puts what is found at each place before what is found later. -/
theorem exists_walk {walk : Nat → List α → Outcome (List β)} {P : Nat → α → β → Prop} {l : List α}
    (hnil : ∀ i, walk i [] = .ok [])
    (hcons : ∀ i x rest others, l[i]? = some x → walk (i + 1) rest = .ok others →
      ∃ here, walk i (x :: rest) = .ok (here ++ others) ∧ ∀ y, y ∈ here ↔ P i x y) :
    ∃ found, walk 0 l = .ok found ∧ ∀ y, y ∈ found ↔ ∃ i x, l[i]? = some x ∧ P i x y := by
  -- from each place on, by induction on what is left
  have hfrom : ∀ (rest : List α) (i : Nat), (∀ k, rest[k]? = l[i + k]?) → ∃ found, walk i rest = .ok found ∧
      ∀ y, y ∈ found ↔ ∃ k x, rest[k]? = some x ∧ P (i + k) x y := by
    intro rest
    induction rest with
    | nil => exact fun i _ => ⟨[], hnil i, by simp⟩
    | cons x rest ih =>
      intro i hrest
      obtain ⟨others, ho, hmem⟩ := ih (i + 1) fun k => by
        rw [Nat.add_assoc, Nat.add_comm 1]
        exact hrest (k + 1)
      obtain ⟨here, hh, hx⟩ := hcons i x rest others (hrest 0).symm ho
      refine ⟨here ++ others, hh, fun y => ?_⟩
      rw [mem_append, hx, hmem]
      conv_rhs => rw [← Nat.or_exists_add_one]
      simp [Nat.add_assoc, Nat.add_comm 1]
  simpa using hfrom l 0 (by simp)

/-- Steps that all have a value related to their argument make a list of such values, place by place. -/
theorem exists_mapM_forall₂ :
    ∀ {xs : List α}, (∀ x ∈ xs, ∃ y, f x = .ok y ∧ R x y) → ∃ ys, xs.mapM f = .ok ys ∧ Forall₂ R xs ys
  | [], _ => ⟨[], rfl, .nil⟩
  | x :: xs, h => by
    obtain ⟨y, hy, hR⟩ := h x mem_cons_self
    obtain ⟨ys, hys, hall⟩ := exists_mapM_forall₂ fun z hz => h z (mem_cons_of_mem _ hz)
    refine ⟨y :: ys, ?_, .cons hR hall⟩
    rw [mapM_cons, hy, hys]
    rfl

theorem mapM_eq_map {g : α → β} {xs : List α} (h : ∀ x ∈ xs, f x = .ok (g x)) : xs.mapM f = .ok (xs.map g) :=
  mapM_eq_ok.2 (forall₂_map_right_iff.2 (forall₂_same.2 h))

theorem exists_of_mem_forall₂ (h : Forall₂ R xs ys) {y : β} (hy : y ∈ ys) : ∃ x ∈ xs, R x y := by
  induction h with
  | nil => cases hy
  | @cons x z xs ys hx _ ih =>
    rcases mem_cons.1 hy with rfl | hy
    · exact ⟨x, mem_cons_self, hx⟩
    · obtain ⟨w, hw, hwy⟩ := ih hy
      exact ⟨w, mem_cons_of_mem x hw, hwy⟩

theorem forall₂_trans {S : α → α → Prop} {ys zs : List α} (h : Forall₂ S xs ys) (h' : Forall₂ S ys zs)
    (hS : ∀ a b c, S a b → S b c → S a c) : Forall₂ S xs zs := by
  induction h generalizing zs with
  | nil => exact h'
  | cons hx _ ih =>
    cases h' with
    | cons hy hrest => exact .cons (hS _ _ _ hx hy) (ih hrest)

theorem exists_of_mem_mapM {xs : List α} (h : xs.mapM f = .ok ys)
    {y : β} (hy : y ∈ ys) : ∃ x ∈ xs, f x = .ok y := exists_of_mem_forall₂ (mapM_eq_ok.1 h) hy

theorem zip_range (xs : List α) : xs.zip (range xs.length) = xs.zipIdx := by
  rw [zipIdx_eq_zip_range', range_eq_range']

theorem mapM_zip_range {f : α × Nat → Outcome β} {g : Nat → α → β} (h : ∀ i x, xs[i]? = some x → f (x, i) = .ok (g i x)) :
    (xs.zip (range xs.length)).mapM f = .ok (xs.mapIdx g) := by
  rw [zip_range, mapIdx_eq_zipIdx_map]
  exact mapM_eq_map fun e he => h e.2 e.1 (mem_zipIdx_iff_getElem?.1 he)

theorem exists_mem_zip_range (h : x ∈ xs) : ∃ i, (x, i) ∈ xs.zip (range xs.length) := by
  obtain ⟨i, hi⟩ := mem_iff_getElem?.1 h
  exact ⟨i, zip_range xs ▸ mk_mem_zipIdx_iff_getElem?.2 hi⟩

theorem forall_of_forM {α : Type} {f : α → Outcome PUnit} : ∀ {xs : List α}, xs.forM f = .ok ⟨⟩ →
    ∀ x ∈ xs, f x = .ok ⟨⟩
  | [], _, x, hx => by cases hx
  | y :: ys, h, x, hx => by
    obtain ⟨_, hy, hys⟩ := bind_eq_ok.1 h
    rcases mem_cons.1 hx with rfl | hx
    · exact hy
    · exact forall_of_forM hys x hx

theorem filterM_eq_filter {f : α → Outcome Bool} {p : α → Bool} (h : ∀ x ∈ xs, f x = .ok (p x)) :
    xs.filterM f = .ok (xs.filter p) := by
  have haux : ∀ (xs kept : List α), (∀ x ∈ xs, f x = .ok (p x)) →
      xs.filterAuxM f kept = .ok ((xs.filter p).reverse ++ kept) := by
    intro xs
    induction xs with
    | nil => exact fun kept _ => rfl
    | cons x xs ih =>
      intro kept h
      obtain ⟨hx, hxs⟩ := forall_mem_cons.1 h
      rw [filterAuxM, hx]
      refine (ih _ hxs).trans ?_
      cases hp : p x <;> simp [hp]
  rw [filterM, haux xs [] h]
  simp [Functor.map, Except.map]

theorem exists_filterM {f : α → Outcome Bool} (h : ∀ x ∈ xs, ∃ b, f x = .ok b) :
    ∃ ys, xs.filterM f = .ok ys ∧ ∀ y, y ∈ ys ↔ y ∈ xs ∧ f y = .ok true := by
  have hvalue : ∀ x ∈ xs, f x = .ok ((f x).toOption.getD false) := by
    intro x hx
    obtain ⟨b, hb⟩ := h x hx
    rw [hb]
    rfl
  refine ⟨_, filterM_eq_filter hvalue, fun y => ?_⟩
  rw [mem_filter]
  refine and_congr_right fun hy => ?_
  rw [hvalue y hy]
  simp [Except.toOption]

theorem ok_of_filterM {f : α → Outcome Bool} {ys : List α} (h : xs.filterM f = .ok ys) :
    ∀ x ∈ xs, ∃ b, f x = .ok b := by
  have haux : ∀ (xs kept : List α) {ys : List α}, xs.filterAuxM f kept = .ok ys → ∀ x ∈ xs, ∃ b, f x = .ok b := by
    intro xs
    induction xs with
    | nil => simp
    | cons x xs ih =>
      intro kept ys h
      obtain ⟨b, hb, h⟩ := bind_eq_ok.1 h
      exact forall_mem_cons.2 ⟨⟨b, hb⟩, ih _ h⟩
  obtain ⟨zs, hzs, -⟩ := bind_eq_ok.1 h
  exact haux xs [] hzs

theorem mem_filterM {f : α → Outcome Bool} {ys : List α} (h : xs.filterM f = .ok ys) {y : α} :
    y ∈ ys ↔ y ∈ xs ∧ f y = .ok true := by
  obtain ⟨zs, hzs, hmem⟩ := exists_filterM (ok_of_filterM h)
  cases h.symm.trans hzs
  exact hmem y

namespace Model

/-! ## Shape -/

def cellAt? (g : Matrix) (i j : Nat) : Option Cell := g[i]?.bind (·[j]?)

theorem cellAt?_eq (h : g[i]? = some row) (j : Nat) : cellAt? g i j = row[j]? := by
  rw [cellAt?, h]
  rfl

theorem forall_cellAt?_iff {P : Nat → Nat → Cell → Prop} : (∀ i j c, cellAt? g i j = some c → P i j c) ↔
    ∀ e ∈ g.zipIdx, ∀ d ∈ e.1.zipIdx, P e.2 d.2 d.1 := by
  constructor
  · rintro h ⟨row, i⟩ hrow ⟨c, j⟩ hc
    exact h i j c ((cellAt?_eq (mem_zipIdx_iff_getElem?.1 hrow) j).trans (mem_zipIdx_iff_getElem?.1 hc))
  · intro h i j c hc
    obtain ⟨row, hrow, hj⟩ := Option.bind_eq_some_iff.1 hc
    exact h (row, i) (mem_zipIdx_iff_getElem?.2 hrow) (c, j) (mem_zipIdx_iff_getElem?.2 hj)

instance {P : Nat → Nat → Cell → Prop} [∀ i j c, Decidable (P i j c)] :
    Decidable (∀ i j c, cellAt? g i j = some c → P i j c) := decidable_of_iff _ forall_cellAt?_iff.symm

/-- The transition matrix has no more rows and columns than there are states. -/
structure Fits (m : Model) : Prop where
  rows : m.graph.length ≤ m.states.length
  cells : ∀ row ∈ m.graph, row.length ≤ m.states.length

/-- The labelling has no more rows than there are states, and in each of them a cell for every
proposition. -/
structure LabelsFit (m : Model) : Prop where
  rows : m.labels.length ≤ m.states.length
  cells : ∀ row ∈ m.labels, m.props.length ≤ row.length

def Edge (m : Model) (q r : String) : Prop := ∃ es, m.edges = .ok es ∧ (q, r) ∈ es

/-- A proposition holds at a state: the first column of the proposition has a 1 in a row of the state. -/
def Labelled (m : Model) (p q : String) : Prop :=
  ∃ i k, m.states[i]? = some q ∧ m.propIndex? p = some k ∧ cellAt? m.labels i k = some (.num 1)

variable {m : Model}

/-! ## Edges -/

theorem rowEdges_spec (hi : i < m.states.length) (hrow : row.length ≤ m.states.length) :
    ∃ es, m.rowEdges i 0 row = .ok es ∧ ∀ e, e ∈ es ↔ ∃ j c, row[j]? = some c ∧ c.isZero = false ∧
      m.states[i]? = some e.1 ∧ m.states[if c.isAny then i else j]? = some e.2 := by
  refine exists_walk (fun _ => rfl) fun j c rest others hj ho => ?_
  by_cases hc : c.isZero = true
  · exact ⟨[], by rw [rowEdges, if_pos hc]; exact ho, by simp [hc]⟩
  · -- the cell is an edge; its target is a position too, whether it is a loop or not
    have hlt := lt_of_getElem? hj
    obtain ⟨source, hs⟩ := exists_nth hi
    obtain ⟨target, ht⟩ := exists_nth (show (if c.isAny then i else j) < m.states.length by split <;> omega)
    have hcast : (if c.isAny then (i : Int) else j) = ((if c.isAny then i else j : Nat) : Int) := by
      split <;> rfl
    refine ⟨[(source, target)], ?_, fun e => ?_⟩
    · rw [rowEdges, if_neg hc]
      simp only [stateAt, hcast, hs, ht, ho]
      rfl
    · simp [nth_eq_ok.1 hs, nth_eq_ok.1 ht, hc, Prod.ext_iff, eq_comm (a := e.1), eq_comm (a := e.2)]

theorem edge_iff_mem {es : List (String × String)} (h : m.edges = .ok es) : m.Edge q r ↔ (q, r) ∈ es := by
  refine ⟨?_, fun hm => ⟨es, h, hm⟩⟩
  rintro ⟨es', hes', hm⟩
  cases hes'.symm.trans h
  exact hm

theorem Fits.edges_spec (h : m.Fits) : ∃ es, m.edges = .ok es ∧ ∀ q r, (q, r) ∈ es ↔ ∃ i j c,
    cellAt? m.graph i j = some c ∧ c.isZero = false ∧ m.states[i]? = some q ∧
      m.states[if c.isAny then i else j]? = some r := by
  have hwalk : ∃ es, m.edgesFrom 0 m.graph = .ok es ∧ ∀ e, e ∈ es ↔ ∃ i row, m.graph[i]? = some row ∧
      ∃ (j : Nat) (c : Cell), row[j]? = some c ∧ c.isZero = false ∧ m.states[i]? = some e.1 ∧
        m.states[if c.isAny then i else j]? = some e.2 := by
    refine exists_walk (fun _ => rfl) fun i row rest others hi ho => ?_
    have hlt := Nat.lt_of_lt_of_le (lt_of_getElem? hi) h.rows
    obtain ⟨here, hh, hmem⟩ := rowEdges_spec hlt (h.cells row (mem_of_getElem? hi))
    exact ⟨here, by simp only [edgesFrom, hh, ho]; rfl, hmem⟩
  obtain ⟨es, hes, hmem⟩ := hwalk
  refine ⟨es, hes, fun q r => ?_⟩
  simp only [hmem, cellAt?, Option.bind_eq_some_iff]
  constructor
  · rintro ⟨i, row, hi, j, c, hj, h⟩
    exact ⟨i, j, c, ⟨row, hi, hj⟩, h⟩
  · rintro ⟨i, j, c, ⟨row, hi, hj⟩, h⟩
    exact ⟨i, row, hi, j, c, hj, h⟩

theorem Fits.edge_iff (h : m.Fits) : m.Edge q r ↔ ∃ i j c, cellAt? m.graph i j = some c ∧
    c.isZero = false ∧ m.states[i]? = some q ∧ m.states[if c.isAny then i else j]? = some r := by
  obtain ⟨es, hes, hmem⟩ := h.edges_spec
  rw [edge_iff_mem hes, hmem]

theorem Fits.edge_mem (h : m.Fits) (he : m.Edge q r) : q ∈ m.states ∧ r ∈ m.states := by
  obtain ⟨i, j, c, -, -, hq, hr⟩ := h.edge_iff.1 he
  exact ⟨mem_of_getElem? hq, mem_of_getElem? hr⟩

/-! ## Labels -/

theorem labelled_iff (hn : m.states.Nodup) {p : String} (hi : m.states[i]? = some q) :
    m.Labelled p q ↔ ∃ k, m.propIndex? p = some k ∧ cellAt? m.labels i k = some (.num 1) := by
  constructor
  · rintro ⟨j, k, hj, h⟩
    obtain rfl := index_inj hn hi hj
    exact ⟨k, h⟩
  · exact fun ⟨k, h⟩ => ⟨i, k, hi, h⟩

theorem positionsWith_spec {column : Nat} (h : ∀ row ∈ g, column < row.length) :
    ∃ is, positionsWith column 0 g = .ok is ∧ ∀ k, k ∈ is ↔ ∃ i row, g[i]? = some row ∧ k = i ∧
      row[column]? = some (.num 1) := by
  refine exists_walk (fun _ => rfl) fun i row rest others hi ho => ?_
  obtain ⟨cell, hcell⟩ := exists_nth (h row (mem_of_getElem? hi))
  refine ⟨if cell = .num 1 then [i] else [], ?_, fun k => ?_⟩
  · simp only [positionsWith, hcell, ho, bind, Except.bind]
    split <;> rfl
  · by_cases hc : cell = .num 1 <;> simp [nth_eq_ok.1 hcell, hc]

theorem LabelsFit.statesOf (h : m.LabelsFit) {p : String} (hp : p ∈ m.props) :
    ∃ T, m.statesOf p = .ok (some T) ∧ T.Nodup ∧ ∀ q, q ∈ T ↔ m.Labelled p q := by
  obtain ⟨k, hk⟩ := Option.isSome_iff_exists.1 (isSome_idxOf?.2 hp)
  obtain ⟨hlt, -⟩ := idxOf?_eq_some_iff.1 hk
  obtain ⟨is, his, hmem⟩ := positionsWith_spec fun row hrow => Nat.lt_of_lt_of_le hlt (h.cells row hrow)
  have hstate : ∀ i ∈ is, ∃ q, m.stateAt i = .ok q := by
    intro i hi
    obtain ⟨_, row, hrow, rfl, -⟩ := (hmem i).1 hi
    exact exists_nth (Nat.lt_of_lt_of_le (lt_of_getElem? hrow) h.rows)
  obtain ⟨qs, hqs, hmq⟩ := exists_mapM hstate
  refine ⟨Names.ofList qs, ?_, Names.nodup_ofList qs, fun q => ?_⟩
  · simp only [Model.statesOf, positionsOf, propIndex?, hk, his, hqs, bind, Except.bind, pure, Except.pure]
  · rw [Names.mem_ofList, hmq]
    constructor
    · rintro ⟨i, hi, hq⟩
      obtain ⟨_, row, hrow, rfl, hcell⟩ := (hmem i).1 hi
      exact ⟨i, k, nth_eq_ok.1 hq, hk, (cellAt?_eq hrow k).trans hcell⟩
    · rintro ⟨i, k', hq, hk', hcell⟩
      cases hk.symm.trans hk'
      obtain ⟨row, hrow, hcell⟩ := Option.bind_eq_some_iff.1 hcell
      exact ⟨i, (hmem i).2 ⟨i, row, hrow, rfl, hcell⟩, nth_eq_ok.2 hq⟩

/-! ## Positions -/

theorem idxOf?_eq_some (hn : m.states.Nodup) : m.states.idxOf? q = some i ↔ m.states[i]? = some q := by
  rw [idxOf?_eq_some_iff, List.getElem?_eq_some_iff]
  refine exists_congr fun hi => and_iff_left_of_imp ?_
  rintro rfl j hj hEq
  exact absurd ((hn.getElem_inj_iff).1 hEq) (by omega)

theorem stateIndex_eq_ok : m.stateIndex q = .ok i ↔ m.states.idxOf? q = some i := by
  unfold stateIndex
  cases m.states.idxOf? q <;> simp [orFault]

theorem positions_spec {s : Names} (hs : ∀ q ∈ s, q ∈ m.states) :
    ∃ is, m.positions s = .ok is ∧ ∀ i, i ∈ is ↔ ∃ q ∈ s, m.states.idxOf? q = some i := by
  have hall : ∀ q ∈ s, ∃ i, m.stateIndex q = .ok i := fun q hq =>
    (Option.isSome_iff_exists.1 (isSome_idxOf?.2 (hs q hq))).imp fun _ => stateIndex_eq_ok.2
  obtain ⟨is, his, hmem⟩ := exists_mapM hall
  refine ⟨Text.distinct is, by simp only [positions, his]; rfl, fun i => ?_⟩
  simp only [Text.mem_distinct, hmem, stateIndex_eq_ok]

end Model

end Arena
