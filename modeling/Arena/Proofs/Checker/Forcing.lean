/-
The game of a coalition on a model, and its one-step operator. A step follows a joint action of a cell, in which the
coalition chooses the letters of its agents. The predecessors that the checker computes are the states from which it can
force the next state into the set.
-/
import Arena.Proofs.Checker.Coalition
import Arena.Proofs.Checker.Game
import Arena.Proofs.Checker.Loops

namespace Arena

open List Coalition

variable {members : List Int} {move : Move} {i n : Nat} {q r : String} {ms : List (Move × Nat)} {row : List Cell}
  {c : Cell} {k : Int} {columns : List Nat} {coalition : String} {agents : List Nat} {j : Nat} {s : Set String}
  {m : Model}

/-! ## Joint actions -/

/-- The letters that the agents of a coalition, counted from 1, have in a joint action. -/
def Move.choice (agents : List Nat) (move : Move) (a : Nat) : Option Char :=
  if a ∈ agents ∧ 1 ≤ a then move.toList[a - 1]? else none

theorem Move.getElem?_keep (p : Int → Bool) (move : Move) (k : Nat) :
    (move.keep p).toList[k]? = move.toList[k]?.map fun c => if p k then c else '-' := by
  have hzip : move.toList.zip (range move.length) = move.toList.zipIdx := by
    rw [← String.length_toList, zip_range]
  unfold keep
  rw [String.toList_ofList, hzip, getElem?_map, getElem?_zipIdx]
  cases move.toList[k]? <;> simp

theorem Move.ofCoalition_eq_iff (hm : ∀ i, i ∈ members ↔ ∃ a ∈ agents, i = (a : Int) - 1)
    {x y : Move} (hxy : x.length = y.length) :
    x.ofCoalition members = y.ofCoalition members ↔ x.choice agents = y.choice agents := by
  have hpos : ∀ k : Nat, members.contains (k : Int) = true ↔ k + 1 ∈ agents := by
    intro k
    rw [contains_iff_mem, hm]
    constructor
    · rintro ⟨a, ha, hk⟩
      obtain rfl : a = k + 1 := by omega
      exact ha
    · intro ha
      exact ⟨k + 1, ha, by omega⟩
  constructor
  · intro h
    funext a
    unfold choice
    split
    · rename_i ha
      have hin : members.contains ((a - 1 : Nat) : Int) = true := by
        rw [hpos, Nat.sub_add_cancel ha.2]
        exact ha.1
      have hk := congrArg (fun z : Move => z.toList[a - 1]?) h
      simp only [ofCoalition, getElem?_keep, hin, if_true, Option.map_id'] at hk
      exact hk
    · rfl
  · intro h
    refine String.toList_injective (ext_getElem? fun k => ?_)
    simp only [ofCoalition, getElem?_keep]
    by_cases hin : members.contains (k : Int) = true
    · have hk := congrFun h (k + 1)
      unfold choice at hk
      rw [if_pos ⟨(hpos k).1 hin, by omega⟩, if_pos ⟨(hpos k).1 hin, by omega⟩, Nat.add_sub_cancel] at hk
      rw [hk]
    · -- both parts have a dash here, or both have ended
      simp only [hin]
      rw [← String.length_toList, ← String.length_toList] at hxy
      by_cases hk : k < x.toList.length
      · rw [getElem?_eq_getElem hk, getElem?_eq_getElem (hxy ▸ hk)]
        rfl
      · rw [getElem?_eq_none (by omega), getElem?_eq_none (by omega)]

namespace Model

def Lists (m : Model) (c : Cell) (move : Move) : Prop :=
  c.isZero = false ∧ ∃ moves, m.movesOf c.write = .ok moves ∧ move ∈ moves

theorem lists_iff : m.Lists c move ↔ c.isZero = false ∧ move ∈ (m.movesOf c.write).toOption.getD [] := by
  unfold Lists
  cases m.movesOf c.write <;> simp [Except.toOption]

instance (m : Model) (c : Cell) (move : Move) : Decidable (m.Lists c move) := decidable_of_iff _ lists_iff.symm

instance (m : Model) (c : Cell) {P : Move → Prop} [DecidablePred P] : Decidable (∀ move, m.Lists c move → P move) :=
  decidable_of_iff (∀ move ∈ (m.movesOf c.write).toOption.getD [], c.isZero = false → P move) (by
    simp only [lists_iff, and_imp]
    exact forall_congr' fun _ => imp.swap)

/-- A joint action leads from a state to a state: it is listed in the row of the one and the column of the
other. -/
def Leads (m : Model) (q : String) (move : Move) (r : String) : Prop :=
  ∃ i j c, m.states[i]? = some q ∧ m.states[j]? = some r ∧ cellAt? m.graph i j = some c ∧ m.Lists c move

/-- The game of a coalition: it chooses the letters of its agents in a joint action of the state. -/
def game (m : Model) (agents : List Nat) : Checker.Game String (Nat → Option Char) where
  states := {q | q ∈ m.states}
  step q c r := ∃ move, m.Leads q move r ∧ move.choice agents = c

/-- The game of a coalition given by the positions of its agents: it chooses its part of a joint action of
the state. -/
def partGame (m : Model) (members : List Int) : Checker.Game String Move where
  states := {q | q ∈ m.states}
  step q c r := ∃ move, m.Leads q move r ∧ move.ofCoalition members = c

/-- A model on which every play goes on: the names of the states are distinct, the matrix has a row for each
state and no more columns than states, each row has a cell that is not zero, and the number of agents is
known. -/
structure Live (m : Model) : Prop where
  nodup : m.states.Nodup
  rows : m.graph.length = m.states.length
  cells : ∀ row ∈ m.graph, row.length ≤ m.states.length
  nonzero : ∀ row ∈ m.graph, ∃ c ∈ row, c.isZero = false
  agents : ∃ k, m.agentCount = .ok k

/-- A model that `n` agents can play on: the names of the states are distinct, the matrix has a row for each
state and no more columns than states, each row has a cell that is not zero, and each joint action has one
letter per agent. -/
@[mk_iff] structure Playable (m : Model) (n : Nat) : Prop where
  nodup : m.states.Nodup
  rows : m.graph.length = m.states.length
  cells : ∀ row ∈ m.graph, row.length ≤ m.states.length
  nonzero : ∀ row ∈ m.graph, ∃ c ∈ row, c.isZero = false
  agents : m.agentCount = .ok (n : Int)
  letters : ∀ row ∈ m.graph, ∀ c ∈ row, ∀ move, m.Lists c move → move.length = n

instance (m : Model) (n : Nat) : Decidable (m.Playable n) := decidable_of_iff' _ (playable_iff m n)

theorem exists_movesOf (h : m.agentCount = .ok k) (cell : String) :
    ∃ moves, m.movesOf cell = .ok moves ∧ moves ≠ [] := by
  unfold movesOf
  split
  · exact ⟨_, by simp only [h]; rfl, cons_ne_nil _ _⟩
  · exact ⟨_, rfl, Text.split_ne_nil "," cell⟩

theorem exists_lists (h : m.agentCount = .ok k) (hc : c.isZero = false) : ∃ move, m.Lists c move := by
  obtain ⟨moves, hmoves, hne⟩ := exists_movesOf h c.write
  obtain ⟨move, hmove⟩ := exists_mem_of_ne_nil moves hne
  exact ⟨move, hc, moves, hmoves, hmove⟩

theorem mem_of_cellAt? {g : Matrix} (h : cellAt? g i j = some c) :
    ∃ row, g[i]? = some row ∧ row[j]? = some c := Option.bind_eq_some_iff.1 h

theorem Playable.live (h : m.Playable n) : m.Live := ⟨h.nodup, h.rows, h.cells, h.nonzero, n, h.agents⟩

theorem Live.fits (h : m.Live) : m.Fits := ⟨h.rows.le, h.cells⟩

theorem Playable.fits (h : m.Playable n) : m.Fits := h.live.fits

theorem Live.total (h : m.Live) (hi : i < m.states.length) :
    ∃ row, m.graph[i]? = some row ∧ ∃ c ∈ row, c.isZero = false := by
  have hlt : i < m.graph.length := h.rows ▸ hi
  exact ⟨m.graph[i], getElem?_eq_getElem hlt, h.nonzero _ (getElem_mem hlt)⟩

theorem Fits.exists_column (h : m.Fits) (hrow : m.graph[i]? = some row) (hj : row[j]? = some c) :
    ∃ r, m.states[j]? = some r :=
  ⟨_, getElem?_eq_getElem (Nat.lt_of_lt_of_le (lt_of_getElem? hj) (h.cells row (mem_of_getElem? hrow)))⟩

theorem leads_iff_cell (hn : m.states.Nodup) (hi : m.states[i]? = some q) (hrow : m.graph[i]? = some row)
    (P : Cell → Prop) :
    (∃ i j c, m.states[i]? = some q ∧ m.states[j]? = some r ∧ cellAt? m.graph i j = some c ∧ P c) ↔
      ∃ (j : Nat) (c : Cell), row[j]? = some c ∧ m.states[j]? = some r ∧ P c := by
  constructor
  · rintro ⟨i', j, c, hi', hr, hc, hP⟩
    obtain rfl : i' = i := index_inj hn hi' hi
    rw [cellAt?_eq hrow] at hc
    exact ⟨j, c, hc, hr, hP⟩
  · rintro ⟨j, c, hc, hr, hP⟩
    exact ⟨i, j, c, hi, hr, (cellAt?_eq hrow j).trans hc, hP⟩

theorem Leads.mem (hl : m.Leads q move r) : r ∈ m.states := by
  obtain ⟨i, j, c, -, hr, -⟩ := hl
  exact mem_of_getElem? hr

theorem Live.exists_leads (h : m.Live) (hq : q ∈ m.states) : ∃ move r, m.Leads q move r := by
  obtain ⟨i, hi⟩ := mem_iff_getElem?.1 hq
  obtain ⟨row, hrow, c, hc, hz⟩ := h.total (lt_of_getElem? hi)
  obtain ⟨j, hj⟩ := mem_iff_getElem?.1 hc
  obtain ⟨r, hr⟩ := h.fits.exists_column hrow hj
  obtain ⟨k, hk⟩ := h.agents
  obtain ⟨move, hmove⟩ := exists_lists hk hz
  exact ⟨move, r, i, j, c, hi, hr, (cellAt?_eq hrow j).trans hj, hmove⟩

theorem Live.proper (h : m.Live) (members : List Int) : (m.partGame members).Proper where
  finite := m.states.finite_toSet
  stays := by
    rintro q - c r ⟨move, hl, -⟩
    exact hl.mem
  moves := by
    intro q hq
    obtain ⟨move, r, hl⟩ := h.exists_leads hq
    exact ⟨move.ofCoalition members, r, move, hl, rfl⟩

theorem Playable.length_move (h : m.Playable n) (hl : m.Leads q move r) : move.length = n := by
  obtain ⟨i, j, c, -, -, hc, hlist⟩ := hl
  obtain ⟨row, hrow, hj⟩ := mem_of_cellAt? hc
  exact h.letters row (mem_of_getElem? hrow) c (mem_of_getElem? hj) move hlist

theorem Playable.proper (h : m.Playable n) (agents : List Nat) : (m.game agents).Proper where
  finite := m.states.finite_toSet
  stays := by
    rintro q - c r ⟨move, hl, -⟩
    exact hl.mem
  moves := by
    intro q hq
    obtain ⟨move, r, hl⟩ := h.live.exists_leads hq
    exact ⟨move.choice agents, r, move, hl, rfl⟩

/-- Where each joint action has one letter per agent, the part of a coalition is the choice of its letters. -/
theorem Playable.force_eq_part (h : m.Playable n)
    (hm : ∀ i, i ∈ members ↔ ∃ a ∈ agents, i = (a : Int) - 1) (X : Set String) :
    (m.game agents).force X = (m.partGame members).force X := by
  have hpart : ∀ {q x y r r'}, m.Leads q x r → m.Leads q y r' →
      (x.ofCoalition members = y.ofCoalition members ↔ x.choice agents = y.choice agents) := fun hx hy =>
    Move.ofCoalition_eq_iff hm ((h.length_move hx).trans (h.length_move hy).symm)
  ext q
  constructor
  · rintro ⟨hq, c, ⟨r, move, hmove, rfl⟩, hall⟩
    refine ⟨hq, move.ofCoalition members, ⟨r, move, hmove, rfl⟩, ?_⟩
    rintro r' ⟨other, hother, hsame⟩
    exact hall r' ⟨other, hother, (hpart hother hmove).1 hsame⟩
  · rintro ⟨hq, c, ⟨r, move, hmove, rfl⟩, hall⟩
    refine ⟨hq, move.choice agents, ⟨r, move, hmove, rfl⟩, ?_⟩
    rintro r' ⟨other, hother, hsame⟩
    exact hall r' ⟨other, hother, (hpart hother hmove).2 hsame⟩

end Model

namespace Checker.Alternating

/-! ## Predecessors -/

theorem rowMoves_spec (h : m.agentCount = .ok k) (row : List Cell) : ∃ ms, rowMoves m 0 row = .ok ms ∧
    ∀ e, e ∈ ms ↔ ∃ j c, row[j]? = some c ∧ e.2 = j ∧ m.Lists c e.1 := by
  refine exists_walk (fun _ => rfl) fun j c rest others hj ho => ?_
  obtain ⟨moves, hmoves, -⟩ := Model.exists_movesOf h c.write
  refine ⟨(if c.isZero then [] else moves).map (·, j), ?_, fun e => ?_⟩
  · unfold rowMoves
    split
    · simp only [ho]; rfl
    · simp only [hmoves, ho]; rfl
  · by_cases hc : c.isZero = true <;> simp [hc, Model.Lists, hmoves, Prod.ext_iff, eq_comm, and_comm]

theorem forces_iff :
    forces members ms columns = true ↔ ∃ move l, (move, l) ∈ ms ∧
      ∀ other k, (other, k) ∈ ms → other.ofCoalition members = move.ofCoalition members → k ∈ columns := by
  simp only [forces, any_eq_true, all_eq_true, Prod.exists, Prod.forall, Bool.or_eq_true, decide_eq_true_eq,
    contains_iff_mem]
  refine exists_congr fun move => exists_congr fun l => and_congr_right fun _ => ?_
  refine forall_congr' fun other => forall_congr' fun k => forall_congr' fun _ => ?_
  exact (imp_iff_not_or (a := other.ofCoalition members = move.ofCoalition members)).symm

theorem preRows_spec (h : m.agentCount = .ok k) (hc : positions (names coalition) = .ok members) (columns : List Nat)
    (hrows : m.graph.length ≤ m.states.length) :
    ∃ qs, preRows m coalition columns 0 m.graph = .ok qs ∧ ∀ q, q ∈ qs ↔ ∃ (i : Nat) (row : List Cell), m.graph[i]? = some row ∧
      ∃ ms, m.states[i]? = some q ∧ rowMoves m 0 row = .ok ms ∧ forces members ms columns = true := by
  refine exists_walk (fun _ => rfl) fun i row rest others hi ho => ?_
  obtain ⟨ms, hms, -⟩ := rowMoves_spec h row
  obtain ⟨p, hp⟩ := exists_nth (Nat.lt_of_lt_of_le (lt_of_getElem? hi) hrows)
  have hstate : m.stateAt i = .ok p := hp
  refine ⟨if forces members ms columns then [p] else [], ?_, fun q => ?_⟩
  · -- the coalition is read only in a row that has a joint action
    cases ms with
    | nil => simp only [preRows, hms, ho]; rfl
    | cons x ms =>
      by_cases hf : forces members (x :: ms) columns = true
      · simp only [preRows, hms, ho, hc, hstate, bind, Except.bind, hf]; rfl
      · simp only [preRows, hms, ho, hc, bind, Except.bind, hf]; rfl
  · by_cases hf : forces members ms columns = true <;> simp [hms, nth_eq_ok.1 hp, hf, eq_comm (a := p)]

section Row

variable (h : m.Live) (hi : m.states[i]? = some q) (hrow : m.graph[i]? = some row) (hms : rowMoves m 0 row = .ok ms)

include h hms in
theorem mem_rowMoves {e : Move × Nat} : e ∈ ms ↔ ∃ j c, row[j]? = some c ∧ e.2 = j ∧ m.Lists c e.1 := by
  obtain ⟨k, hk⟩ := h.agents
  obtain ⟨ms', hms', hmem⟩ := rowMoves_spec hk row
  cases hms.symm.trans hms'
  exact hmem e

include h hrow hms in
theorem exists_target (hj : (move, j) ∈ ms) : ∃ r, m.states[j]? = some r := by
  obtain ⟨_, c, hc, rfl, -⟩ := (mem_rowMoves h hms).1 hj
  exact h.fits.exists_column hrow hc

include h hi hrow hms

theorem leads_iff_mem : m.Leads q move r ↔ ∃ j, (move, j) ∈ ms ∧ m.states[j]? = some r := by
  refine (Model.leads_iff_cell h.nodup hi hrow (m.Lists · move)).trans ?_
  simp only [mem_rowMoves h hms]
  constructor
  · rintro ⟨j, c, hc, hr, hl⟩
    exact ⟨j, ⟨j, c, hc, rfl, hl⟩, hr⟩
  · rintro ⟨_, ⟨j, c, hc, rfl, hl⟩, hr⟩
    exact ⟨_, c, hc, hr, hl⟩

/-- A set is forced from a state by a joint action of its row if all that have its part lead into the set. -/
theorem mem_force_iff : q ∈ (m.partGame members).force s ↔ ∃ move j, (move, j) ∈ ms ∧
    ∀ other k, (other, k) ∈ ms → other.ofCoalition members = move.ofCoalition members →
      ∃ r ∈ s, m.states[k]? = some r := by
  have hleads : ∀ {move r}, m.Leads q move r ↔ ∃ j, (move, j) ∈ ms ∧ m.states[j]? = some r :=
    leads_iff_mem h hi hrow hms
  have htarget : ∀ {move j}, (move, j) ∈ ms → ∃ r, m.states[j]? = some r :=
    exists_target h hrow hms
  constructor
  · rintro ⟨-, c, ⟨r, move, hmove, rfl⟩, hall⟩
    obtain ⟨j, hj, hr⟩ := hleads.1 hmove
    refine ⟨move, j, hj, fun other k hk hsame => ?_⟩
    obtain ⟨r', hr'⟩ := htarget hk
    exact ⟨r', hall r' ⟨other, hleads.2 ⟨k, hk, hr'⟩, hsame⟩, hr'⟩
  · rintro ⟨move, j, hj, hall⟩
    obtain ⟨r, hr⟩ := htarget hj
    refine ⟨mem_of_getElem? hi, move.ofCoalition members, ⟨r, move, hleads.2 ⟨j, hj, hr⟩, rfl⟩, ?_⟩
    rintro r' ⟨other, hother, hsame⟩
    obtain ⟨k, hk, hr'⟩ := hleads.1 hother
    obtain ⟨r'', hr'', hkr⟩ := hall other k hk hsame
    cases hr'.symm.trans hkr
    exact hr''

theorem forces_iff_force (hcols : ∀ j, j ∈ columns ↔ ∃ r ∈ s, m.states[j]? = some r) :
    forces members ms columns = true ↔ q ∈ (m.partGame members).force s := by
  rw [forces_iff, mem_force_iff h hi hrow hms]
  simp only [hcols]

end Row

theorem yields_pre (h : m.Live)
    (hc : positions (names coalition) = .ok members) {s : Names} (hs : ∀ q ∈ s, q ∈ m.states) :
    Yields (pre m coalition s) ((m.partGame members).force s.toSet) := by
  obtain ⟨k, hk⟩ := h.agents
  obtain ⟨columns, hcolumns, hcols⟩ := Model.positions_spec hs
  simp only [Model.idxOf?_eq_some h.nodup] at hcols
  obtain ⟨qs, hqs, hmem⟩ := preRows_spec hk hc columns h.rows.le
  have hvalue : pre m coalition s = .ok (Names.ofList qs) := by
    simp only [pre, hcolumns, hk, hqs, bind, Except.bind]
    rfl
  refine ⟨Names.ofList qs, hvalue, Names.nodup_ofList qs, ?_⟩
  ext q
  rw [Names.mem_toSet, Names.mem_ofList, hmem]
  constructor
  · rintro ⟨i, row, hrow, ms, hi, hms, hf⟩
    exact (forces_iff_force h hi hrow hms hcols).1 hf
  · intro hq
    obtain ⟨i, hi⟩ := mem_iff_getElem?.1 hq.1
    obtain ⟨row, hrow, -⟩ := h.total (lt_of_getElem? hi)
    obtain ⟨ms, hms, -⟩ := rowMoves_spec hk row
    exact ⟨i, row, hrow, ms, hi, hms, (forces_iff_force h hi hrow hms hcols).2 hq⟩

end Checker.Alternating

end Arena
