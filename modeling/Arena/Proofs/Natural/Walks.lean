/-
Unfolding a model whose states are `s0`, `s1` and so on. The tree has one node for each walk from the first state that
is not too long: each joint action that a cell of a row lists leads to a child of its own. A node stands for where its
walk ends, and knows the states on the way.
-/
import Arena.Proofs.Checker.Bounded
import Arena.Proofs.Natural.Refolding

namespace Arena

open List Model Checker Text

variable {above : List String}

/-- A model with default names, a square matrix of joint actions and a label row for each state. -/
structure Model.Numbered (m : Model) : Prop where
  names : m.states = (range m.graph.length).map fun i : Nat => defaultName i
  square : ∀ row ∈ m.graph, row.length = m.graph.length
  labelled : m.labels.length = m.graph.length
  played : ∀ row ∈ m.graph, ∀ c ∈ row, c.isZero = false → ∀ move ∈ split "," c.write, move ≠ ""
  /-- There are so few states that the numbers in their names can be read. -/
  readable : m.graph.length ≤ 10 ^ maxDigits

namespace Model

/-- The transitions from the state of a row, in the order of the columns: a joint action and the place of a state. -/
def stepsFrom (m : Model) (i : Nat) : List (Move × Nat) :=
  (m.graph[i]?.getD []).zipIdx.flatMap fun (c, j) => if c.isZero then [] else (split "," c.write).map (·, j)

/-- A sequence of transitions from a state. -/
def IsWalk (m : Model) : Nat → List (Move × Nat) → Prop
  | _, [] => True
  | i, e :: rest => e ∈ m.stepsFrom i ∧ IsWalk m e.2 rest

/-- The walks of at most `n` transitions from a state; those with the same beginning stand together, behind it. -/
def walks (m : Model) : Nat → Nat → List (List (Move × Nat))
  | 0, _ => [[]]
  | n + 1, i => [] :: (m.stepsFrom i).flatMap fun e => (walks m n e.2).map (e :: ·)

theorem mem_walks {m : Model} {p : List (Move × Nat)} : ∀ {n i : Nat}, p ∈ m.walks n i ↔ m.IsWalk i p ∧ p.length ≤ n := by
  induction p with
  | nil =>
    intro n i
    cases n <;> simp [walks, IsWalk]
  | cons e p ih =>
    intro n i
    cases n with
    | zero => simp [walks]
    | succ n =>
      simp only [walks, mem_cons, reduceCtorEq, false_or, mem_flatMap, mem_map, cons.injEq, length_cons,
        Nat.add_le_add_iff_right]
      constructor
      · rintro ⟨e, he, p, hp, rfl, rfl⟩
        obtain ⟨hwalk, hlen⟩ := ih.1 hp
        exact ⟨⟨he, hwalk⟩, hlen⟩
      · rintro ⟨⟨he, hwalk⟩, hlen⟩
        exact ⟨e, he, p, ih.2 ⟨hwalk, hlen⟩, rfl, rfl⟩

end Model

namespace Natural.Unfolding

/-! ## Nodes and their walks -/

mutual

/-- The nodes of a tree with the joint actions and the names of the nodes on the way to them. -/
def located : Unfolding → List (List (Move × String) × Unfolding)
  | node q old action before l pruned children moves =>
    ([], node q old action before l pruned children moves) :: locatedBelow children moves

def locatedBelow : List Unfolding → List Move → List (List (Move × String) × Unfolding)
  | t :: ts, move :: moves => (located t).map (fun e => ((move, t.state) :: e.1, e.2)) ++ locatedBelow ts moves
  | _, _ => []

end

theorem locatedBelow_map {α : Type} (f : α → Unfolding) (g : α → Move) : ∀ xs : List α,
    locatedBelow (xs.map f) (xs.map g) =
      xs.flatMap fun x => (f x).located.map fun e => ((g x, (f x).state) :: e.1, e.2)
  | [] => by rw [locatedBelow, flatMap_nil]; simp
  | x :: xs => by rw [map_cons, map_cons, locatedBelow, locatedBelow_map f g xs, flatMap_cons]

def before : Unfolding → List String
  | node _ _ _ before _ _ _ _ => before

/-- The node that a walk leads to from a node `q` below others. -/
structure Ends (m : Model) (q : String) (above : List String) (p : List (Move × String)) (x : Unfolding) : Prop where
  state : x.state = (p.getLast?.map Prod.snd).getD q
  before : x.before = above ++ (q :: p.map Prod.snd).dropLast
  labels : ∃ (i : Nat) (row : List Cell), m.states[i]? = some x.state ∧ m.labels[i]? = some row ∧ x.labels = some row
  aligned : x.moves.length = x.children.length

theorem Ends.cons {m : Model} {q : String} {p : List (Move × String)} {x : Unfolding}
    {e : Move × String} (h : Ends m e.2 (above ++ [q]) p x) : Ends m q above (e :: p) x where
  state := by
    rw [h.state, getLast?_cons]
    cases p.getLast? <;> rfl
  before := by rw [h.before, map_cons, dropLast_cons_of_ne_nil (cons_ne_nil e.2 _), append_assoc, singleton_append]
  labels := h.labels
  aligned := h.aligned

/-! ## The tree of the walks -/

/-- The tree of the walks of at most `n` transitions from a state. -/
def unwound (m : Model) : Nat → Nat → Option Move → List String → Unfolding
  | 0, i, action, above => node (defaultName i) (defaultName i) action above m.labels[i]? false [] []
  | n + 1, i, action, above =>
    node (defaultName i) (defaultName i) action above m.labels[i]? false
      ((m.stepsFrom i).map fun e => unwound m n e.2 (some e.1) (above ++ [defaultName i])) ((m.stepsFrom i).map Prod.fst)

theorem state_unwound (m : Model) (n i : Nat) (action : Option Move) (above : List String) :
    (unwound m n i action above).state = defaultName i := by
  cases n <;> rfl

theorem located_unwound (m : Model) (action : Option Move) (above : List String) (n i : Nat) :
    (unwound m n i action above).located.map Prod.fst =
      (m.walks n i).map (·.map fun e => (e.1, defaultName e.2)) := by
  induction n generalizing i action above with
  | zero => simp [unwound, located, locatedBelow, walks]
  | succ n ih =>
    simp only [unwound, located, locatedBelow_map, walks, map_cons, map_flatMap, state_unwound]
    refine congrArg _ (flatMap_congr fun e _ => ?_)
    have hbelow := congrArg (List.map ((e.1, defaultName e.2) :: ·)) (ih (some e.1) (above ++ [defaultName i]) e.2)
    simpa only [map_map, Function.comp_def, map_cons] using hbelow

section Numbered

variable {m : Model} (hm : m.Numbered) {i : Nat}

include hm

theorem getElem?_states (hi : i < m.graph.length) : m.states[i]? = some (defaultName i) := by
  rw [hm.names, getElem?_map, getElem?_range hi, Option.map_some]

theorem of_mem_stepsFrom {e : Move × Nat} (he : e ∈ m.stepsFrom i) : e.1 ≠ "" ∧ e.2 < m.graph.length := by
  obtain ⟨⟨c, j⟩, hc, he⟩ := mem_flatMap.1 he
  rw [mem_zipIdx_iff_getElem?] at hc
  cases hrow : m.graph[i]? with
  | none => simp [hrow] at hc
  | some row =>
    rw [hrow] at hc
    have hmem := mem_of_getElem? hrow
    dsimp only at he
    split at he
    · cases he
    · rename_i hzero
      obtain ⟨move, hmove, rfl⟩ := mem_map.1 he
      exact ⟨hm.played row hmem c (mem_of_getElem? hc) (by simpa using hzero) move hmove,
        hm.square row hmem ▸ lt_of_getElem? hc⟩

theorem ends_located {n : Nat} {action : Option Move} (hi : i < m.graph.length) :
    ∀ e ∈ (unwound m n i action above).located, Ends m (defaultName i) above e.1 e.2 := by
  have hlabels : ∀ {i : Nat}, i < m.graph.length → ∃ (j : Nat) (row : List Cell), m.states[j]? = some (defaultName i) ∧
      m.labels[j]? = some row ∧ m.labels[i]? = some row := by
    intro i hi
    have hrow := getElem?_eq_getElem (hm.labelled ▸ hi)
    exact ⟨i, _, getElem?_states hm hi, hrow, hrow⟩
  induction n generalizing i action above with
  | zero =>
    simp only [unwound, located, locatedBelow, forall_mem_singleton]
    exact ⟨rfl, (append_nil _).symm, hlabels hi, rfl⟩
  | succ n ih =>
    rw [unwound, located, locatedBelow_map]
    refine forall_mem_cons.2 ⟨⟨rfl, (append_nil _).symm, hlabels hi, (length_map _).trans (length_map _).symm⟩,
      fun e he => ?_⟩
    obtain ⟨step, hstep, he⟩ := mem_flatMap.1 he
    obtain ⟨e', he', rfl⟩ := mem_map.1 he
    rw [state_unwound]
    exact (ih (of_mem_stepsFrom hm hstep).2 e' he').cons

theorem labelRow_eq (hi : i < m.graph.length) : labelRow m (defaultName i) = .ok m.labels[i]? := by
  have hindex : m.states.idxOf? (defaultName i) = some i := by
    rw [idxOf?_eq_some (hm.names ▸ nodup_range.map fun _ _ => Checker.defaultName_inj), hm.names]
    simp [getElem?_range hi]
  have hrow := getElem?_eq_getElem (hm.labelled ▸ hi)
  unfold labelRow
  rw [hindex]
  simp only [nth_natCast, hrow]
  rfl

theorem build_eq_unwound (n : Nat) (hi : i < m.graph.length) (action : Option Move) (above : List String) :
    build m m.states n (defaultName i) action above = .ok (unwound m n i action above) := by
  induction n generalizing i action above with
  | zero =>
    unfold build
    rw [labelRow_eq hm hi]
    rfl
  | succ n ih =>
    have hrow := getElem?_eq_getElem hi
    have hpairs : ∀ j c, m.graph[i][j]? = some c → (do
        if c.isZero then return []
        let next ← nth m.states (j : Nat)
        (split "," c.write).mapM fun move => do
          return (move, ← build m m.states n next (some move) (above ++ [defaultName i])) :
        Outcome (List (Move × Unfolding))) = .ok (if c.isZero then [] else (split "," c.write).map fun move =>
          (move, unwound m n j (some move) (above ++ [defaultName i]))) := by
      intro j c hc
      have hj : j < m.graph.length := hm.square _ (getElem_mem hi) ▸ lt_of_getElem? hc
      split
      · rfl
      · refine bind_eq_ok.2 ⟨_, nth_eq_ok.2 (getElem?_states hm hj), mapM_eq_map fun move _ => ?_⟩
        rw [ih hj]
        rfl
    have hsteps : (m.graph[i].mapIdx fun j c => if c.isZero then [] else (split "," c.write).map fun move =>
        (move, unwound m n j (some move) (above ++ [defaultName i]))).flatten =
        (m.stepsFrom i).map fun e => (e.1, unwound m n e.2 (some e.1) (above ++ [defaultName i])) := by
      rw [mapIdx_eq_zipIdx_map, stepsFrom, hrow, map_flatMap]
      refine congrArg _ (map_congr_left fun e _ => ?_)
      dsimp only
      split
      · rfl
      · rw [map_map]
        rfl
    have hmoves : ((m.stepsFrom i).map Prod.fst).filter (· ≠ "") = (m.stepsFrom i).map Prod.fst := by
      refine filter_eq_self.2 fun move hmove => ?_
      obtain ⟨e, he, rfl⟩ := mem_map.1 hmove
      simpa using (of_mem_stepsFrom hm he).1
    refine bind_eq_ok.2 ⟨_, labelRow_eq hm hi, bind_eq_ok.2 ⟨_, positionOf_defaultName (hi.trans_le hm.readable),
      bind_eq_ok.2 ⟨_, nth_eq_ok.2 hrow, bind_eq_ok.2 ⟨_, mapM_zip_range hpairs, ?_⟩⟩⟩⟩
    dsimp only
    rw [hsteps, map_map, map_map]
    exact congrArg (fun moves => Except.ok (node _ _ _ _ _ _ _ moves)) hmoves

end Numbered

/-- Unfolding a model with default names to a height of at least one gives a tree whose nodes are reached by the walks of
fewer transitions, one node for each walk. Each node ends its walk, knows the states before it, has the label row of its
state and one joint action for each child. -/
theorem ofModel_walks {m : Model} (hm : m.Numbered) (hne : m.graph ≠ []) {height : Nat} (hheight : 1 ≤ height) :
    ∃ t, ofModel m m.states height = .ok t ∧
      t.located.map Prod.fst = (m.walks (height - 1) 0).map (·.map fun e => (e.1, defaultName e.2)) ∧
      (∀ p, p ∈ m.walks (height - 1) 0 ↔ m.IsWalk 0 p ∧ p.length < height) ∧
      ∀ e ∈ t.located, Ends m "s0" [] e.1 e.2 := by
  have hlt : 0 < m.graph.length := length_pos_iff.2 hne
  have hbuild := build_eq_unwound hm (height - 1) hlt none []
  have hlevels : ((height : Int) - 1).toNat = height - 1 := by omega
  refine ⟨unwound m (height - 1) 0 none [], ?_, located_unwound .., fun p => ?_, ends_located hm hlt⟩
  · rw [ofModel, hlevels]
    exact hbuild
  · exact mem_walks.trans (and_congr_right fun _ => by omega)

/-- The crossing unfolded to a height of three. -/
theorem ofModel_walks_crossing : Bounded.crossing.Numbered ∧
    ∃ t, ofModel Bounded.crossing Bounded.crossing.states (3 : Nat) = .ok t ∧
      t.located.map Prod.fst = (Bounded.crossing.walks 2 0).map (·.map fun e => (e.1, defaultName e.2)) := by
  have hnumbered : Bounded.crossing.Numbered :=
    { names := rfl
      square := by decide
      labelled := rfl
      played := by decide
      readable := (lt_pow_maxDigits (by decide)).le }
  obtain ⟨t, ht, hpaths, -⟩ := ofModel_walks hnumbered (by decide) (show 1 ≤ 3 by decide)
  exact ⟨hnumbered, t, ht, hpaths⟩

end Natural.Unfolding

end Arena
