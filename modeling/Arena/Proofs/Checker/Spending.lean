/-
Predecessors of a coalition under a bound. The coalition's parts in the joint actions of a cell are written one behind
the other, so only the first of them is recognised. The predecessors are the states that a weaker condition than force
admits: a joint action within the bound leads into the set whose part begins no cell outside it, and each answer of the
opponents is met by a joint action into the set.
-/
import Arena.Checker.Bounded
import Arena.Proofs.Checker.Forcing

namespace Arena

open Text Model List

variable {move : Move} {q : String} {i n : Nat} {row : List Cell} {k : Int} {c : Cell} {j : Nat} {moves : List Move}
  {m : Model} {members : List Int}

/-! ## Parts of a coalition -/

theorem Move.length_ofCoalition (members : List Int) (move : Move) :
    (move.ofCoalition members).length = move.length := by
  unfold ofCoalition keep
  rw [← String.length_toList, String.toList_ofList, length_map, length_zip, length_range,
    String.length_toList, Nat.min_self]

namespace Model

/-- A cell lists a joint action before all others. -/
def ListsFirst (m : Model) (c : Cell) (move : Move) : Prop :=
  c.isZero = false ∧ ∃ rest, m.movesOf c.write = .ok (move :: rest)

def LeadsFirst (m : Model) (q : String) (move : Move) (r : String) : Prop :=
  ∃ i j c, m.states[i]? = some q ∧ m.states[j]? = some r ∧ cellAt? m.graph i j = some c ∧ m.ListsFirst c move

/-- A cell in which the part of a coalition in a joint action is recognised. -/
def Recognises (m : Model) (members : List Int) (c : Cell) (move : Move) : Prop :=
  c.isZero = false ∧ ∃ moves, m.movesOf c.write = .ok moves ∧ move.ofCoalition members ∈ coalitionParts members "" moves

/-- A model with distinct states and a square matrix over them, whose number of agents is known. -/
structure Square (m : Model) : Prop where
  nodup : m.states.Nodup
  rows : m.graph.length = m.states.length
  square : ∀ row ∈ m.graph, row.length = m.states.length
  agents : ∃ k, m.agentCount = .ok k

/-- Every joint action costs nothing, in at most `r` resources. -/
def Free (m : Model) (r : Nat) : Prop :=
  ∀ i j c move, cellAt? m.graph i j = some c → m.Lists c move →
    ∃ k ≤ r, m.costOf move (defaultName i) = .ok (.shared (replicate k 0))

theorem ListsFirst.lists (h : m.ListsFirst c move) : m.Lists c move := by
  obtain ⟨hz, rest, hmoves⟩ := h
  exact ⟨hz, _, hmoves, mem_cons_self⟩

theorem LeadsFirst.leads {r : String} (h : m.LeadsFirst q move r) : m.Leads q move r := by
  obtain ⟨i, j, c, hi, hj, hc, hl⟩ := h
  exact ⟨i, j, c, hi, hj, hc, hl.lists⟩

theorem length_coalitionParts : ∀ (moves : List Move) (before : String), (∀ x ∈ moves, x.length = n) →
    ∀ p ∈ coalitionParts members before moves, before.length + n ≤ p.length
  | [], _, _, p, hp => by cases hp
  | x :: moves, before, h, p, hp => by
    obtain ⟨hx, hmoves⟩ := forall_mem_cons.1 h
    have hlen : (before ++ x.ofCoalition members).length = before.length + n := by
      rw [String.length_append, Move.length_ofCoalition, hx]
    rcases mem_cons.1 hp with rfl | hp
    · exact hlen.ge
    · have := length_coalitionParts moves _ hmoves p hp
      omega

theorem mem_coalitionParts {first : Move} {rest : List Move} (h : ∀ x ∈ first :: rest, x.length = n) {p : Move}
    (hp : p.length = n) : p ∈ coalitionParts members "" (first :: rest) ↔ p = first.ofCoalition members := by
  obtain ⟨hfirst, hrest⟩ := forall_mem_cons.1 h
  have hlen := (Move.length_ofCoalition members first).trans hfirst
  rw [coalitionParts, String.empty_append, mem_cons]
  refine ⟨?_, .inl⟩
  rintro (h | hin)
  · exact h
  · -- a later part is longer, unless there are no letters at all
    have hle := length_coalitionParts rest _ hrest p hin
    have hnil : ∀ s : String, s.length = 0 → s = "" := fun s hs => String.length_eq_zero_iff.1 hs
    rw [hnil p (by omega), hnil (first.ofCoalition members) (by omega)]

/-- Where each joint action has one letter per agent, a cell recognises the part of its first joint action. -/
theorem Playable.recognises_iff (h : m.Playable n) (hrow : m.graph[i]? = some row)
    (hc : row[j]? = some c) (hmove : move.length = n) : m.Recognises members c move ↔
      ∃ first, m.ListsFirst c first ∧ first.ofCoalition members = move.ofCoalition members := by
  have hparts : ∀ {first rest}, c.isZero = false → m.movesOf c.write = .ok (first :: rest) →
      (move.ofCoalition members ∈ coalitionParts members "" (first :: rest) ↔
        move.ofCoalition members = first.ofCoalition members) := fun hz hmoves =>
    mem_coalitionParts (fun x hx => h.letters row (mem_of_getElem? hrow) c (mem_of_getElem? hc) x ⟨hz, _, hmoves, hx⟩)
      ((Move.length_ofCoalition members move).trans hmove)
  constructor
  · rintro ⟨hz, moves, hmoves, hpart⟩
    cases moves with
    | nil => cases hpart
    | cons first rest => exact ⟨first, ⟨hz, rest, hmoves⟩, ((hparts hz hmoves).1 hpart).symm⟩
  · rintro ⟨first, ⟨hz, rest, hmoves⟩, hsame⟩
    exact ⟨hz, _, hmoves, (hparts hz hmoves).2 hsame.symm⟩

theorem coalitionMoves_eq (hne : members ≠ []) (moves : List Move) :
    m.coalitionMoves moves members = .ok (distinct (coalitionParts members "" moves)) := by
  unfold coalitionMoves
  rw [if_neg (by simpa using hne)]
  rfl

end Model

namespace Checker.Bounded

open Coalition

variable {p : Pricing} {m : Model} {n r : Nat} {agents : List String} {bound : Bound} {members : List Int}
  {columns : List Nat} {X Y : Set String}

/-! ## Entries -/

/-- Every joint action has a cost that can be held against a bound. -/
def Priced (p : Pricing) (m : Model) (agents : List String) (bound : Bound) : Prop :=
  ∀ i j c move, cellAt? m.graph i j = some c → m.Lists c move → ∃ b, isAffordable p m agents bound i move = .ok b

theorem lexLe_replicate : ∀ {k : Nat} {bound : Bound}, k ≤ bound.length → (∀ b ∈ bound, 0 ≤ b) →
    lexLe (replicate k 0) bound = true
  | 0, _, _, _ => rfl
  | k + 1, b :: bound, h, hpos => by
    rw [replicate_succ, lexLe]
    split
    · exact lexLe_replicate (by simpa using h) fun c hc => hpos c (mem_cons_of_mem b hc)
    · rename_i hne
      exact decide_eq_true (lt_of_le_of_ne (hpos b mem_cons_self) hne)

theorem isAffordable_free (agents : List String) (hfree : m.Free bound.length) (hpos : ∀ b ∈ bound, 0 ≤ b)
    (hc : cellAt? m.graph i j = some c) (hl : m.Lists c move) :
    isAffordable .joint m agents bound i move = .ok true := by
  obtain ⟨k, hk, hcost⟩ := hfree i j c move hc hl
  simp only [isAffordable, hcost, bind, Except.bind, withinBound, lexLe_replicate hk hpos]

theorem exists_affordable (h : ∀ x ∈ moves, ∃ b, isAffordable p m agents bound i x = .ok b) :
    ∃ found, affordable p m agents bound i moves = .ok found ∧
      ∀ x, x ∈ found ↔ x ∈ moves ∧ isAffordable p m agents bound i x = .ok true := by
  obtain ⟨found, hfound, hmem⟩ := exists_filterM h
  exact ⟨distinct found, by simp only [affordable, hfound]; rfl, fun x => by rw [mem_distinct, hmem]⟩

theorem affordable_spec (hpriced : Priced p m agents bound)
    (hc : cellAt? m.graph i j = some c) (hz : c.isZero = false)
    (hmoves : m.movesOf c.write = .ok moves) :
    ∃ found, affordable p m agents bound i moves = .ok found ∧
      ∀ x, x ∈ found ↔ m.Lists c x ∧ isAffordable p m agents bound i x = .ok true := by
  have hlists : ∀ x, m.Lists c x ↔ x ∈ moves := by
    intro x
    refine ⟨?_, fun hx => ⟨hz, moves, hmoves, hx⟩⟩
    rintro ⟨-, moves', hmoves', hx⟩
    cases hmoves.symm.trans hmoves'
    exact hx
  simp only [hlists]
  exact exists_affordable fun x hx => hpriced i j c x hc ((hlists x).2 hx)

/-- An entry of a row: a column of the set whose cell is not zero, with the joint actions of the cell that a
coalition can pay. -/
structure IsEntry (p : Pricing) (m : Model) (agents : List String) (bound : Bound) (columns : List Nat) (i : Nat)
    (cells : List Cell) (e : Entry) : Prop where
  place : e.row = i
  column : e.column ∈ columns
  nonempty : e.moves ≠ []
  moves : ∃ c moves, cells[e.column]? = some c ∧ c.isZero = false ∧ m.movesOf c.write = .ok moves ∧
    affordable p m agents bound i moves = .ok e.moves

theorem rowEntries_spec (hk : m.agentCount = .ok k) (hpriced : Priced p m agents bound)
    (hrow : m.graph[i]? = some row) (hcols : ∀ j ∈ columns, j < row.length) :
    ∃ es, rowEntries p m agents bound i row columns = .ok es ∧
      ∀ e, e ∈ es ↔ IsEntry p m agents bound columns i row e := by
  -- one column gives no entry or one
  have hone : ∀ j ∈ columns, ∃ es, (do
        let cell ← nth row (j : Int)
        if cell.isZero then return []
        let moves ← affordable p m agents bound i (← m.movesOf cell.write)
        return if moves.isEmpty then [] else [⟨i, j, moves⟩] : Outcome (List Entry)) = .ok es ∧
      ∀ e, e ∈ es ↔ e.column = j ∧ IsEntry p m agents bound columns i row e := by
    intro j hj
    obtain ⟨c, hc⟩ := exists_nth (hcols j hj)
    have hget := nth_eq_ok.1 hc
    by_cases hz : c.isZero = true
    · refine ⟨[], by simp only [hc, bind, Except.bind, hz]; rfl, fun e => ⟨fun he => absurd he not_mem_nil, ?_⟩⟩
      rintro ⟨rfl, -, -, -, c', moves, hc', hz', -⟩
      cases hget.symm.trans hc'
      cases hz.symm.trans hz'
    · rw [Bool.not_eq_true] at hz
      obtain ⟨moves, hmoves, -⟩ := exists_movesOf hk c.write
      obtain ⟨found, hfound, -⟩ := affordable_spec hpriced ((cellAt?_eq hrow j).trans hget) hz hmoves
      refine ⟨if found.isEmpty then [] else [⟨i, j, found⟩], ?_, fun e => ⟨fun he => ?_, ?_⟩⟩
      · simp only [hc, bind, Except.bind, hz, hmoves, hfound]
        rfl
      · split at he
        · cases he
        · rename_i hne
          obtain rfl := mem_singleton.1 he
          exact ⟨rfl, rfl, hj, by simpa using hne, c, moves, hget, hz, hmoves, hfound⟩
      · rintro ⟨rfl, rfl, -, hne, c', moves', hc', -, hmoves', hfound'⟩
        cases hget.symm.trans hc'
        cases hmoves.symm.trans hmoves'
        cases hfound.symm.trans hfound'
        rw [isEmpty_eq_false_iff.2 hne]
        exact mem_singleton_self _
  obtain ⟨found, hfound, hmem⟩ := exists_mapM fun j hj => (hone j hj).imp fun _ h => h.1
  refine ⟨found.flatten, by simp only [rowEntries, hfound]; rfl, fun e => ⟨fun he => ?_, fun he => ?_⟩⟩
  · obtain ⟨es, hes, he⟩ := mem_flatten.1 he
    obtain ⟨j, hj, hval⟩ := (hmem es).1 hes
    obtain ⟨es', hes', hiff⟩ := hone j hj
    cases hval.symm.trans hes'
    exact ((hiff e).1 he).2
  · obtain ⟨es, hes, hiff⟩ := hone e.column he.column
    exact mem_flatten.2 ⟨es, (hmem es).2 ⟨_, he.column, hes⟩, (hiff e).2 ⟨rfl, he⟩⟩

theorem entriesFrom_spec (hk : m.agentCount = .ok k) (hpriced : Priced p m agents bound)
    (hcols : ∀ row ∈ m.graph, ∀ j ∈ columns, j < row.length) :
    ∃ es, entriesFrom p m agents bound columns 0 m.graph = .ok es ∧ ∀ e, e ∈ es ↔
      ∃ (i : Nat) (row : List Cell), m.graph[i]? = some row ∧ IsEntry p m agents bound columns i row e := by
  refine exists_walk (fun _ => rfl) fun i row rest others hi ho => ?_
  obtain ⟨here, hh, hmem⟩ := rowEntries_spec hk hpriced hi (hcols row (mem_of_getElem? hi))
  exact ⟨here, by simp only [entriesFrom, hh, ho]; rfl, hmem⟩

/-! ## Rows -/

theorem cellMoves_spec (h : m.agentCount = .ok k) (row : List Cell) : ∃ cells, cellMoves m 0 row = .ok cells ∧
    ∀ e, e ∈ cells ↔ ∃ (j : Nat) (c : Cell), row[j]? = some c ∧ e.1 = j ∧ c.isZero = false ∧
      m.movesOf c.write = .ok e.2 := by
  refine exists_walk (fun _ => rfl) fun j c rest others hj ho => ?_
  obtain ⟨moves, hmoves, -⟩ := exists_movesOf h c.write
  refine ⟨if c.isZero then [] else [(j, moves)], ?_, fun e => ?_⟩
  · unfold cellMoves
    split
    · simp only [ho]; rfl
    · simp only [hmoves, ho]; rfl
  · by_cases hc : c.isZero = true <;> simp [hc, hmoves, Prod.ext_iff, eq_comm (a := moves)]

theorem isSafe_eq (hc : positions agents = .ok members) (hne : members ≠ []) (move : Move)
    (others : List (Nat × List Move)) : isSafe m agents columns move others =
      .ok (!others.any fun o => (coalitionParts members "" o.2).contains (move.ofCoalition members) &&
        !columns.contains o.1) := by
  have hone : distinct (coalitionParts members "" [move]) = [move.ofCoalition members] := by
    simp [coalitionParts, distinct]
  have hcontains : ∀ (xs : List Move) (x : Move), (distinct xs).contains x = xs.contains x := by
    intro xs x
    rw [Bool.eq_iff_iff, contains_iff_mem, contains_iff_mem, mem_distinct]
  simp only [isSafe, coalitionMoves_eq hne, hc, hone, bind, Except.bind, any_cons, any_nil,
    Bool.or_false, hcontains, mapM_pure]
  simp only [pure, Except.pure, any_map]
  rfl

/-- The coalition wins in an entry by a star, or by a joint action whose part is recognised in no cell outside the
columns. -/
theorem isWinning_spec (hk : m.agentCount = .ok k) (hc : positions agents = .ok members) (hne : members ≠ [])
    {e : Entry} (hrow : m.graph[e.row]? = some row) (hcol : e.column ∈ columns) :
    ∃ b, isWinning m agents columns e = .ok b ∧ (b = true ↔ ∃ move ∈ e.moves, contains move "*" = true ∨
      ∀ (j : Nat) c, row[j]? = some c → m.Recognises members c move → j ∈ columns) := by
  obtain ⟨cells, hcells, hmem⟩ := cellMoves_spec hk row
  have hvalue : isWinning m agents columns e = .ok (e.moves.any (fun move => contains move "*") ||
      e.moves.any fun move => !(cells.filter fun o => o.1 ≠ e.column).any fun o =>
        (coalitionParts members "" o.2).contains (move.ofCoalition members) && !columns.contains o.1) := by
    simp only [isWinning, nth_eq_ok.2 hrow, hcells, bind, Except.bind, isSafe_eq hc hne]
    rw [mapM_eq_map fun _ _ => rfl]
    simp only [any_map]
    rfl
  refine ⟨_, hvalue, ?_⟩
  rw [Bool.or_eq_true, any_eq_true, any_eq_true, ← exists_or]
  refine exists_congr fun move => ?_
  rw [← and_or_left]
  refine and_congr_right fun hmove => or_congr_right ?_
  rw [Bool.not_eq_true', any_eq_false]
  simp only [Bool.and_eq_true, Bool.not_eq_true', contains_eq_mem, decide_eq_true_eq, decide_eq_false_iff_not,
    not_and_not_right]
  constructor
  · rintro hall j c hj ⟨hz, moves, hmoves, hpart⟩
    by_contra hout
    -- the cell is none of the columns, so it is not that of the entry
    have hother : (j, moves) ∈ cells.filter fun o => o.1 ≠ e.column := by
      refine mem_filter.2 ⟨(hmem _).2 ⟨j, c, hj, rfl, hz, hmoves⟩, decide_eq_true ?_⟩
      rintro rfl
      exact hout hcol
    exact hout (hall _ hother hpart)
  · rintro hall ⟨j, moves⟩ ho hpart
    obtain ⟨_, c, hj, rfl, hz, hmoves⟩ := (hmem _).1 (mem_of_mem_filter ho)
    exact hall j c hj ⟨hz, moves, hmoves, hpart⟩

theorem meetsAll_spec (columns : List Nat) (hk : m.agentCount = .ok k) (hc : positions agents = .ok members)
    (hrow : m.graph[i]? = some row) :
    ∃ b, meetsAll m agents columns i = .ok b ∧ (b = true ↔ ∀ (j : Nat) c other, row[j]? = some c → m.Lists c other →
      ∃ (l : Nat) (d : Cell) (move : Move), row[l]? = some d ∧ m.Lists d move ∧ l ∈ columns ∧
        move.ofOpponents members = other.ofOpponents members) := by
  obtain ⟨cells, hcells, hmem⟩ := cellMoves_spec hk row
  -- the answers in the cells that a test selects
  have hanswer : ∀ (p : Nat → Bool) (x : Move), x ∈ (((cells.map fun o => (o.1, opponentMoves o.2 members)).filter
      fun o => p o.1).map (·.2)).flatten ↔
        ∃ (j : Nat) (c : Cell) (move : Move), row[j]? = some c ∧ m.Lists c move ∧ p j = true ∧ move.ofOpponents members = x := by
    intro p x
    simp only [mem_flatten, mem_map, mem_filter, Prod.exists]
    constructor
    · rintro ⟨parts, ⟨j, parts', ⟨⟨j', moves, hin, hpair⟩, hp⟩, rfl⟩, hx⟩
      cases hpair
      obtain ⟨_, c, hj, rfl, hz, hmoves⟩ := (hmem _).1 hin
      unfold opponentMoves at hx
      rw [mem_distinct, mem_map] at hx
      obtain ⟨move, hmove, rfl⟩ := hx
      exact ⟨_, c, move, hj, ⟨hz, moves, hmoves, hmove⟩, hp, rfl⟩
    · rintro ⟨j, c, move, hj, ⟨hz, moves, hmoves, hmove⟩, hp, rfl⟩
      refine ⟨_, ⟨j, _, ⟨⟨j, moves, (hmem _).2 ⟨j, c, hj, rfl, hz, hmoves⟩, rfl⟩, hp⟩, rfl⟩, ?_⟩
      unfold opponentMoves
      rw [mem_distinct]
      exact mem_map_of_mem hmove
  have hvalue : meetsAll m agents columns i = .ok
      ((((cells.map fun o => (o.1, opponentMoves o.2 members)).filter fun _ => true).map (·.2)).flatten.all
        ((((cells.map fun o => (o.1, opponentMoves o.2 members)).filter
          fun o => columns.contains o.1).map (·.2)).flatten.contains ·)) := by
    simp only [meetsAll, nth_eq_ok.2 hrow, hcells, hc, bind, Except.bind, mapM_pure, filter_true]
    rfl
  refine ⟨_, hvalue, ?_⟩
  simp only [all_eq_true, hanswer fun _ => true, contains_iff_mem, hanswer columns.contains]
  constructor
  · intro hall j c other hj hl
    exact hall _ ⟨j, c, other, hj, hl, trivial, rfl⟩
  · rintro hall x ⟨j, c, other, hj, hl, -, rfl⟩
    exact hall j c other hj hl

/-! ## Predecessors -/

/-- The states that the checker admits for a coalition and a set. -/
def admitted (m : Model) (members : List Int) (X : Set String) : Set String :=
  {q | (∃ move r, m.Leads q move r ∧ r ∈ X ∧ (contains move "*" = true ∨
      ∀ first r', m.LeadsFirst q first r' → first.ofCoalition members = move.ofCoalition members → r' ∈ X)) ∧
    ∀ other r, m.Leads q other r →
      ∃ move r', m.Leads q move r' ∧ r' ∈ X ∧ move.ofOpponents members = other.ofOpponents members}

theorem admitted_mono (hXY : X ⊆ Y) : admitted m members X ⊆ admitted m members Y := by
  rintro q ⟨⟨move, r, hl, hr, hwin⟩, hmeet⟩
  refine ⟨⟨move, r, hl, hXY hr, hwin.imp_right fun hsafe first r' hf hs => hXY (hsafe first r' hf hs)⟩, ?_⟩
  intro other r ho
  obtain ⟨move, r', hm, hr', hs⟩ := hmeet other r ho
  exact ⟨move, r', hm, hXY hr', hs⟩

theorem admitted_subset (X : Set String) : admitted m members X ⊆ {q | q ∈ m.states} := by
  rintro q ⟨⟨move, r, ⟨i, j, c, hi, -⟩, -⟩, -⟩
  exact mem_of_getElem? hi

theorem admitted_states (h : m.Live) : admitted m members {q | q ∈ m.states} = {q | q ∈ m.states} := by
  refine (admitted_subset _).antisymm fun q hq => ?_
  obtain ⟨move, r, hl⟩ := h.exists_leads hq
  exact ⟨⟨move, r, hl, hl.mem, .inr fun first r' hf _ => hf.leads.mem⟩,
    fun other r' ho => ⟨other, r', ho, ho.mem, rfl⟩⟩

/-- A row passes the tests for some columns: a joint action that can be paid leads into them whose part is recognised
in no other column, and each answer of the opponents is met by a joint action into them. -/
def Passes (m : Model) (members : List Int) (pays : Move → Prop) (row : List Cell) (P : Nat → Prop) : Prop :=
  (∃ (j : Nat) (c : Cell) (move : Move), P j ∧ row[j]? = some c ∧ m.Lists c move ∧ pays move ∧ (contains move "*" = true ∨
    ∀ (k : Nat) d, row[k]? = some d → m.Recognises members d move → P k)) ∧
  ∀ (j : Nat) c other, row[j]? = some c → m.Lists c other → ∃ (l : Nat) (d : Cell) (move : Move),
    row[l]? = some d ∧ m.Lists d move ∧ P l ∧ move.ofOpponents members = other.ofOpponents members

/-- The states that the checker admits for a coalition that can begin with some joint actions only. -/
def admittedBy (m : Model) (members : List Int) (pays : Nat → Move → Prop) (X : Set String) : Set String :=
  {q | ∃ (i : Nat) (row : List Cell), m.states[i]? = some q ∧ m.graph[i]? = some row ∧
    Passes m members (pays i) row fun j => ∃ r ∈ X, m.states[j]? = some r}

theorem admittedBy_subset (pays : Nat → Move → Prop) (X : Set String) :
    admittedBy m members pays X ⊆ {q | q ∈ m.states} := fun _ ⟨_, _, hi, _⟩ => mem_of_getElem? hi

theorem admittedBy_mono {pays pays' : Nat → Move → Prop}
    (hpays : ∀ i j c move, cellAt? m.graph i j = some c → m.Lists c move → pays i move → pays' i move) (hXY : X ⊆ Y) :
    admittedBy m members pays X ⊆ admittedBy m members pays' Y := by
  have hin : ∀ j : Nat, (∃ r ∈ X, m.states[j]? = some r) → ∃ r ∈ Y, m.states[j]? = some r := fun j ⟨r, hr, hj⟩ =>
    ⟨r, hXY hr, hj⟩
  rintro q ⟨i, row, hi, hrow, ⟨j, c, move, hj, hc, hl, hpay, hwin⟩, hmeet⟩
  refine ⟨i, row, hi, hrow, ⟨j, c, move, hin j hj, hc, hl, hpays i j c move ((cellAt?_eq hrow j).trans hc) hl hpay,
    hwin.imp_right fun hsafe k d hk hd => hin k (hsafe k d hk hd)⟩, fun j c other hc ho => ?_⟩
  obtain ⟨l, d, move, hd, hm, hl, hs⟩ := hmeet j c other hc ho
  exact ⟨l, d, move, hd, hm, hin l hl, hs⟩

theorem admittedBy_eq (h : m.Playable n) {pays : Nat → Move → Prop}
    (hpays : ∀ i j c move, cellAt? m.graph i j = some c → m.Lists c move → pays i move) (X : Set String) :
    admittedBy m members pays X = admitted m members X := by
  ext q
  constructor
  · rintro ⟨i, row, hi, hrow, ⟨j, c, move, ⟨r, hr, hj⟩, hc, hl, -, hwin⟩, hmeet⟩
    have hcell := fun {j : Nat} {c} (hc : row[j]? = some c) => (cellAt?_eq hrow j).trans hc
    refine ⟨⟨move, r, ⟨i, j, c, hi, hj, hcell hc, hl⟩, hr, hwin.imp_right fun hsafe first r' hf hs => ?_⟩, ?_⟩
    · obtain ⟨k, d, hd, hr', hfirst⟩ := (leads_iff_cell h.nodup hi hrow (m.ListsFirst · first)).1 hf
      have hlen := h.letters row (mem_of_getElem? hrow) c (mem_of_getElem? hc) move hl
      obtain ⟨r'', hr'', hk⟩ := hsafe k d hd ((h.recognises_iff hrow hd hlen).2 ⟨first, hfirst, hs⟩)
      cases hr'.symm.trans hk
      exact hr''
    · intro other r' ho
      obtain ⟨k, d, hd, -, hlist⟩ := (leads_iff_cell h.nodup hi hrow (m.Lists · other)).1 ho
      obtain ⟨l, e, answer, he, hm, ⟨r'', hr'', hl⟩, hs⟩ := hmeet k d other hd hlist
      exact ⟨answer, r'', ⟨i, l, e, hi, hl, hcell he, hm⟩, hr'', hs⟩
  · rintro ⟨⟨move, r, ⟨i, j, c, hi, hj, hc, hl⟩, hr, hwin⟩, hmeet⟩
    obtain ⟨row, hrow, hcol⟩ := mem_of_cellAt? hc
    refine ⟨i, row, hi, hrow, ⟨j, c, move, ⟨r, hr, hj⟩, hcol, hl, hpays i j c move hc hl,
      hwin.imp_right fun hsafe k d hd hrec => ?_⟩, fun k d other hd ho => ?_⟩
    · obtain ⟨r', hr'⟩ := h.fits.exists_column hrow hd
      have hlen := h.letters row (mem_of_getElem? hrow) c (mem_of_getElem? hcol) move hl
      obtain ⟨first, hfirst, hs⟩ := (h.recognises_iff hrow hd hlen).1 hrec
      exact ⟨r', hsafe first r' ⟨i, k, d, hi, hr', (cellAt?_eq hrow k).trans hd, hfirst⟩ hs, hr'⟩
    · obtain ⟨r', hr'⟩ := h.fits.exists_column hrow hd
      obtain ⟨answer, r'', hm, hr'', hs⟩ := hmeet other r' ⟨i, k, d, hi, hr', (cellAt?_eq hrow k).trans hd, ho⟩
      obtain ⟨l, e, he, hl, hlist⟩ := (leads_iff_cell h.nodup hi hrow (m.Lists · answer)).1 hm
      exact ⟨l, e, answer, he, hlist, ⟨r'', hr'', hl⟩, hs⟩

theorem winning_iff (hk : m.agentCount = .ok k) (hc : positions agents = .ok members) (hne : members ≠ [])
    (hpriced : Priced p m agents bound) (hrow : m.graph[i]? = some row) :
    (∃ e, IsEntry p m agents bound columns i row e ∧ isWinning m agents columns e = .ok true) ↔
      ∃ (j : Nat) (c : Cell) (move : Move), j ∈ columns ∧ row[j]? = some c ∧ m.Lists c move ∧
        isAffordable p m agents bound i move = .ok true ∧ (contains move "*" = true ∨
          ∀ (l : Nat) d, row[l]? = some d → m.Recognises members d move → l ∈ columns) := by
  constructor
  · rintro ⟨e, ⟨rfl, hcol, -, c, moves, hj, hz, hmoves, haff⟩, hwin⟩
    obtain ⟨b, hb, hiff⟩ := isWinning_spec hk hc hne hrow hcol
    cases hb.symm.trans hwin
    obtain ⟨move, hmove, hcond⟩ := hiff.1 rfl
    obtain ⟨found, hfound, hmem⟩ := affordable_spec hpriced ((cellAt?_eq hrow _).trans hj) hz hmoves
    cases haff.symm.trans hfound
    obtain ⟨hl, hpay⟩ := (hmem move).1 hmove
    exact ⟨_, c, move, hcol, hj, hl, hpay, hcond⟩
  · rintro ⟨j, c, move, hcol, hj, hl, hpay, hcond⟩
    obtain ⟨hz, moves, hmoves, -⟩ := id hl
    obtain ⟨found, hfound, hmem⟩ := affordable_spec hpriced ((cellAt?_eq hrow j).trans hj) hz hmoves
    have hin := (hmem move).2 ⟨hl, hpay⟩
    obtain ⟨b, hb, hiff⟩ := isWinning_spec (e := ⟨i, j, found⟩) hk hc hne hrow hcol
    have hwin : b = true := hiff.2 ⟨move, hin, hcond⟩
    exact ⟨⟨i, j, found⟩, ⟨rfl, hcol, ne_nil_of_mem hin, c, moves, hj, hz, hmoves, hfound⟩, hwin ▸ hb⟩

theorem yields_pre (h : m.Square) {coalition : String} (hpriced : Priced p m (names coalition) bound)
    (hc : positions (names coalition) = .ok members) (hne : members ≠ []) {s : Names} (hs : ∀ q ∈ s, q ∈ m.states) :
    Yields (pre p m coalition s bound)
      (admittedBy m members (isAffordable p m (names coalition) bound · · = .ok true) s.toSet) := by
  obtain ⟨k, hk⟩ := h.agents
  obtain ⟨is, his, hpos⟩ := positions_spec hs
  simp only [idxOf?_eq_some h.nodup] at hpos
  have hcols : ∀ j, (∃ q ∈ s.toSet, m.states[j]? = some q) ↔ j ∈ is.mergeSort (· ≤ ·) := fun j => by
    rw [mem_mergeSort, hpos]
    rfl
  generalize hcolumns : is.mergeSort (· ≤ ·) = columns at hcols
  have hinside : ∀ row ∈ m.graph, ∀ j ∈ columns, j < row.length := by
    intro row hrow j hj
    obtain ⟨q, -, hq⟩ := (hcols j).2 hj
    rw [h.square row hrow]
    exact lt_of_getElem? hq
  obtain ⟨es, hes, hentry⟩ := entriesFrom_spec hk hpriced hinside
  -- each of the three passes has a value
  have htest : ∀ e ∈ es, ∃ b, isWinning m (names coalition) columns e = .ok b := by
    intro e he
    obtain ⟨_, row, hrow, rfl, hcol, -⟩ := (hentry e).1 he
    exact (isWinning_spec hk hc hne hrow hcol).imp fun _ hb => hb.1
  obtain ⟨winning, hwinning, hwin⟩ := exists_filterM htest
  have hrow : ∀ i ∈ distinct (winning.map (·.row)), ∃ row, m.graph[i]? = some row := by
    intro i hi
    obtain ⟨e, he, rfl⟩ := mem_map.1 (mem_distinct.1 hi)
    obtain ⟨_, row, hrow, rfl, -⟩ := (hentry e).1 ((hwin e).1 he).1
    exact ⟨row, hrow⟩
  have hmeet : ∀ i ∈ distinct (winning.map (·.row)), ∃ b, meetsAll m (names coalition) columns i = .ok b := by
    intro i hi
    obtain ⟨row, hrow⟩ := hrow i hi
    exact (meetsAll_spec columns hk hc hrow).imp fun _ hb => hb.1
  obtain ⟨rows, hrows, hmeets⟩ := exists_filterM hmeet
  have hstate : ∀ i ∈ rows, ∃ q, m.stateAt i = .ok q := by
    intro i hi
    obtain ⟨row, hrow⟩ := hrow i ((hmeets i).1 hi).1
    exact exists_nth (h.rows ▸ (lt_of_getElem? hrow))
  obtain ⟨qs, hqs, hmem⟩ := exists_mapM hstate
  refine ⟨Names.ofList qs, ?_, Names.nodup_ofList qs, ?_⟩
  · simp only [pre, his, hcolumns, hes, hwinning, hrows, hqs, bind, Except.bind]
    rfl
  · ext q
    simp only [admittedBy, hcols]
    rw [Names.mem_toSet, Names.mem_ofList, hmem]
    simp only [hmeets, mem_distinct, mem_map, hwin]
    constructor
    · rintro ⟨i, ⟨⟨e, ⟨he, hwon⟩, rfl⟩, hall⟩, hq⟩
      obtain ⟨_, row, hrow, hrowe⟩ := (hentry e).1 he
      obtain rfl := hrowe.place
      obtain ⟨b, hb, hiff⟩ := meetsAll_spec columns hk hc hrow
      cases hb.symm.trans hall
      exact ⟨_, row, nth_eq_ok.1 hq, hrow, (winning_iff hk hc hne hpriced hrow).1 ⟨e, hrowe, hwon⟩, hiff.1 rfl⟩
    · rintro ⟨i, row, hi, hrow, hwins, hmeets⟩
      obtain ⟨e, hrowe, hwon⟩ := (winning_iff hk hc hne hpriced hrow).2 hwins
      obtain ⟨b, hb, hiff⟩ := meetsAll_spec columns hk hc hrow
      exact ⟨i, ⟨⟨e, ⟨(hentry e).2 ⟨i, row, hrow, hrowe⟩, hwon⟩, hrowe.place⟩, hb.trans (congrArg _ (hiff.2 hmeets))⟩,
        nth_eq_ok.2 hi⟩

end Checker.Bounded

end Arena
