/-
Trees that models are unfolded into, whose nodes have label rows and joint actions of the model, one for each child. The
transitions of a tree are those from its nodes to their children. When the nodes below the root are numbered, all names
are distinct, and a matrix holds the transitions between them.
-/
import Arena.Natural.Unfolding
import Arena.Proofs.Checker.Boolean
import Arena.Proofs.Model.Layout

namespace Arena

open List Model

variable {t : Unfolding} {props : List String} {q : String} {n : Nat} {move : Move} {p : String} {c : Unfolding}

/-- A joint action that can stand alone in a cell. -/
@[mk_iff] structure Move.Listable (move : Move) : Prop where
  word : Text.IsWord move
  noHeader : header? .plain move = none
  noComma : ',' ∉ move.toList
  ne_zero : move ≠ "0"
  ne_any : move ≠ "*"

instance (move : Move) : Decidable (Move.Listable move) := decidable_of_iff' _ (Move.listable_iff move)

/-- A row of truth values, at least one for each proposition. -/
@[mk_iff] structure Model.TruthRow (props : List String) (row : List Cell) : Prop where
  length : props.length ≤ row.length
  values : ∀ c ∈ row, c = .num 0 ∨ c = .num 1

instance (props : List String) (row : List Cell) : Decidable (TruthRow props row) :=
  decidable_of_iff' _ (truthRow_iff props row)

/-- A model with the first default name among its states, truth values as labels and joint actions in its cells. -/
@[mk_iff] structure Model.Regular (m : Model) : Prop where
  first : "s0" ∈ m.states
  labels : ∀ row ∈ m.labels, TruthRow m.props row
  moves : ∀ row ∈ m.graph, ∀ c ∈ row, c.isZero = false → ∀ move ∈ Text.split "," c.write, Move.Listable move

instance (m : Model) : Decidable m.Regular := decidable_of_iff' _ (regular_iff m)

namespace Natural.Unfolding

variable {x u y : Unfolding} {depth i : Nat} {states : List String}

/-! ## Nodes -/

def moves : Unfolding → List Move
  | node _ _ _ _ _ _ _ ms => ms

mutual

/-- The nodes of a tree, each before those below it. -/
def nodes : Unfolding → List Unfolding
  | node q old action before l pruned children moves =>
    node q old action before l pruned children moves :: nodesAll children

def nodesAll : List Unfolding → List Unfolding
  | [] => []
  | t :: rest => nodes t ++ nodesAll rest

end

mutual

theorem states_eq : ∀ t : Unfolding, t.states = t.nodes.map state
  | node q old action before l pruned children moves => by
    rw [states, nodes, map_cons, statesAll_eq children]
    rfl

theorem statesAll_eq : ∀ ts : List Unfolding, statesAll ts = (nodesAll ts).map state
  | [] => rfl
  | t :: rest => by rw [statesAll, nodesAll, map_append, states_eq t, statesAll_eq rest]

end

mutual

theorem rows_eq : ∀ t : Unfolding, t.rows = t.nodes.map labels
  | node q old action before l pruned children moves => by
    rw [rows, nodes, map_cons, rowsAll_eq children]
    rfl

theorem rowsAll_eq : ∀ ts : List Unfolding, rowsAll ts = (nodesAll ts).map labels
  | [] => rfl
  | t :: rest => by rw [rowsAll, nodesAll, map_append, rows_eq t, rowsAll_eq rest]

end

theorem mem_nodes_self : ∀ t : Unfolding, t ∈ t.nodes
  | node .. => mem_cons_self

theorem nodesAll_eq_flatMap : ∀ ts : List Unfolding, nodesAll ts = ts.flatMap nodes
  | [] => rfl
  | t :: rest => by rw [nodesAll, nodesAll_eq_flatMap rest, flatMap_cons]

theorem mem_nodes : x ∈ t.nodes ↔ x = t ∨ ∃ c ∈ t.children, x ∈ c.nodes := by
  obtain ⟨q, old, action, before, l, pruned, children, moves⟩ := t
  rw [nodes, mem_cons, nodesAll_eq_flatMap, mem_flatMap]
  rfl

theorem sizeOf_child : ∀ {t c : Unfolding}, c ∈ t.children → sizeOf c < sizeOf t
  | node q old action before l pruned children moves, c, hc => by
    have hlt := sizeOf_lt_of_mem (show c ∈ children from hc)
    rw [node.sizeOf_spec]
    omega

theorem mem_nodes_of_child {t x c : Unfolding} (hx : x ∈ t.nodes) (hc : c ∈ x.children) : c ∈ t.nodes := by
  rcases mem_nodes.1 hx with rfl | ⟨b, hb, hx⟩
  · exact mem_nodes.2 (.inr ⟨c, hc, mem_nodes_self c⟩)
  · exact mem_nodes.2 (.inr ⟨b, hb, mem_nodes_of_child hx hc⟩)
termination_by sizeOf t
decreasing_by exact sizeOf_child hb

theorem state_mem_states (h : x ∈ t.nodes) : x.state ∈ t.states := by
  rw [states_eq]
  exact mem_map_of_mem h

/-- A node with a label row of truth values, and with one joint action that can stand alone for each child. -/
structure Sound (props : List String) (t : Unfolding) : Prop where
  row : ∃ row, t.labels = some row ∧ TruthRow props row
  moves : ∀ move ∈ t.moves, Move.Listable move
  aligned : t.moves.length = t.children.length

/-- A tree of such nodes with at most `n` levels below the root. -/
def Grown (props : List String) : Nat → Unfolding → Prop
  | 0, t => Sound props t ∧ t.children = []
  | n + 1, t => Sound props t ∧ ∀ c ∈ t.children, Grown props n c

theorem grown_iff : Grown props n t ↔ Sound props t ∧ ∀ c ∈ t.children, ∃ k, n = k + 1 ∧ Grown props k c := by
  cases n with
  | zero => simp [Grown, eq_nil_iff_forall_not_mem]
  | succ n => simp [Grown]

theorem Grown.mono : ∀ {n k : Nat} {t : Unfolding}, Grown props n t → n ≤ k → Grown props k t
  | n, k, t, h, hle => by
    obtain ⟨hsound, hchildren⟩ := grown_iff.1 h
    refine grown_iff.2 ⟨hsound, fun c hc => ?_⟩
    obtain ⟨j, rfl, hc⟩ := hchildren c hc
    obtain ⟨k, rfl⟩ : ∃ i, k = i + 1 := ⟨k - 1, by omega⟩
    exact ⟨k, rfl, hc.mono (Nat.le_of_succ_le_succ hle)⟩

theorem Grown.sound (h : Grown props n t) : Sound props t :=
  (grown_iff.1 h).1

theorem Grown.sound_of_mem : ∀ {n : Nat} {t : Unfolding}, Grown props n t →
    ∀ x ∈ t.nodes, Sound props x
  | n, t, h, x, hx => by
    rcases mem_nodes.1 hx with rfl | ⟨c, hc, hx⟩
    · exact h.sound
    · obtain ⟨k, rfl, hk⟩ := (grown_iff.1 h).2 c hc
      exact hk.sound_of_mem x hx

/-- A tree with at most `n` levels below the root. -/
def Shallow : Nat → Unfolding → Prop
  | 0, t => t.children = []
  | n + 1, t => ∀ c ∈ t.children, Shallow n c

theorem shallow_iff : Shallow n t ↔ ∀ c ∈ t.children, ∃ k, n = k + 1 ∧ Shallow k c := by
  cases n with
  | zero => simp [Shallow, eq_nil_iff_forall_not_mem]
  | succ n => simp [Shallow]

theorem Grown.shallow : ∀ {n : Nat} {t : Unfolding}, Grown props n t → Shallow n t
  | n, t, h => shallow_iff.2 fun c hc => by
    obtain ⟨k, rfl, hk⟩ := (grown_iff.1 h).2 c hc
    exact ⟨k, rfl, hk.shallow⟩

/-! ## Building -/

theorem grown_build {m : Model} (hm : m.Regular) : ∀ {n : Nat} {q : String} {action : Option Move}
    {before : List String} {t : Unfolding}, q ∈ m.states → build m m.states n q action before = .ok t →
    Grown m.props n t ∧ t.state = q
  | n, q, action, before, t, hq, h => by
    unfold build at h
    obtain ⟨labels, hlabels, h⟩ := bind_eq_ok.1 h
    have hrow : ∃ row, labels = some row ∧ TruthRow m.props row := by
      obtain ⟨i, hi⟩ := Option.isSome_iff_exists.1 (isSome_idxOf?.2 hq)
      unfold labelRow at hlabels
      rw [hi] at hlabels
      obtain ⟨row, hrow, hlabels⟩ := bind_eq_ok.1 hlabels
      cases hlabels
      exact ⟨row, rfl, hm.labels row (mem_of_nth hrow)⟩
    cases n with
    | zero =>
      cases h
      exact ⟨⟨⟨hrow, by simp [moves], rfl⟩, rfl⟩, rfl⟩
    | succ n =>
      obtain ⟨i, -, h⟩ := bind_eq_ok.1 h
      obtain ⟨row, hgraph, h⟩ := bind_eq_ok.1 h
      obtain ⟨pairs, hpairs, h⟩ := bind_eq_ok.1 h
      cases h
      -- each child stands beside a joint action of the row
      have hall : ∀ e ∈ pairs.flatten, Move.Listable e.1 ∧ Grown m.props n e.2 := by
        intro e he
        obtain ⟨ps, hps, he⟩ := mem_flatten.1 he
        obtain ⟨⟨cell, j⟩, hcell, hps⟩ := exists_of_mem_mapM hpairs hps
        have hcell := (of_mem_zip hcell).1
        simp only at hps
        split at hps
        · cases hps
          cases he
        · rename_i hzero
          obtain ⟨next, hnext, hps⟩ := bind_eq_ok.1 hps
          obtain ⟨move, hmove, he⟩ := exists_of_mem_mapM hps he
          obtain ⟨c, hc, he⟩ := bind_eq_ok.1 he
          cases he
          exact ⟨hm.moves row (mem_of_nth hgraph) cell hcell (by simpa using hzero) move hmove,
            (grown_build hm (mem_of_nth hnext) hc).1⟩
      have hmoves : (pairs.flatten.map (·.1)).filter (· ≠ "") = pairs.flatten.map (·.1) := by
        refine filter_eq_self.2 fun move hmove => ?_
        obtain ⟨e, he, rfl⟩ := mem_map.1 hmove
        simpa using (hall e he).1.word.1
      rw [hmoves]
      refine ⟨⟨⟨hrow, fun move hmove => ?_, ?_⟩, fun c hc => ?_⟩, rfl⟩
      · obtain ⟨e, he, rfl⟩ := mem_map.1 hmove
        exact (hall e he).1
      · exact (length_map _).trans (length_map _).symm
      · obtain ⟨e, he, rfl⟩ := mem_map.1 hc
        exact (hall e he).2

/-! ## Transitions -/

theorem transitionsFrom_eq (q : String) (depth : Nat) : ∀ (ts : List Unfolding) (moves : List Move),
    transitionsFrom q depth ts moves = (ts.zip moves).flatMap fun e =>
      (q, e.1.state, e.2) :: (match depth with
        | 0 => []
        | depth + 1 => transitions depth e.1)
  | [], moves => by cases depth <;> rfl
  | t :: ts, [] => by cases depth <;> rfl
  | t :: ts, move :: moves => by
    rw [zip_cons_cons, flatMap_cons, ← transitionsFrom_eq q depth ts moves]
    cases depth <;> rfl

theorem mem_transitions {e : String × String × Move} :
    e ∈ transitions depth t ↔ ∃ c move, (c, move) ∈ t.children.zip t.moves ∧
      (e = (t.state, c.state, move) ∨ ∃ d, depth = d + 1 ∧ e ∈ transitions d c) := by
  obtain ⟨q, old, action, before, l, pruned, children, moves⟩ := t
  rw [transitions, transitionsFrom_eq, mem_flatMap]
  constructor
  · rintro ⟨⟨c, move⟩, hc, he⟩
    refine ⟨c, move, hc, (mem_cons.1 he).imp id fun he => ?_⟩
    cases depth with
    | zero => cases he
    | succ depth => exact ⟨depth, rfl, he⟩
  · rintro ⟨c, move, hc, he | ⟨d, rfl, he⟩⟩
    · exact ⟨(c, move), hc, mem_cons.2 (.inl he)⟩
    · exact ⟨(c, move), hc, mem_cons.2 (.inr he)⟩

theorem exists_zip_of_mem_transitions : ∀ {depth : Nat} {t : Unfolding} {p q : String} {move : Move},
    (p, q, move) ∈ transitions depth t →
      ∃ x ∈ t.nodes, x.state = p ∧ ∃ c, (c, move) ∈ x.children.zip x.moves ∧ c.state = q
  | depth, t, p, q, move, h => by
    obtain ⟨c, move', hc, he | ⟨d, rfl, he⟩⟩ := mem_transitions.1 h
    · cases he
      exact ⟨t, mem_nodes_self t, rfl, c, hc, rfl⟩
    · obtain ⟨x, hx, hrest⟩ := exists_zip_of_mem_transitions he
      exact ⟨x, mem_nodes.2 (.inr ⟨c, (of_mem_zip hc).1, hx⟩), hrest⟩

theorem exists_of_mem_transitions (h : (p, q, move) ∈ transitions depth t) :
    ∃ x ∈ t.nodes, x.state = p ∧ move ∈ x.moves ∧ ∃ c ∈ x.children, c.state = q := by
  obtain ⟨x, hx, hp, c, hc, hq⟩ := exists_zip_of_mem_transitions h
  exact ⟨x, hx, hp, (of_mem_zip hc).2, c, (of_mem_zip hc).1, hq⟩

theorem exists_beside (h : t.moves.length = t.children.length) (hc : c ∈ t.children) :
    ∃ move, (c, move) ∈ t.children.zip t.moves := by
  obtain ⟨i, hi, rfl⟩ := mem_iff_getElem.1 hc
  have hi' : i < t.moves.length := h ▸ hi
  exact ⟨t.moves[i], mem_iff_getElem.2 ⟨i, by simp [hi, hi'], by simp⟩⟩

/-- Each node has a transition to each of its children, if the tree is not deeper than the transitions. -/
theorem Shallow.mem_transitions : ∀ {depth : Nat} {t : Unfolding}, Shallow depth t →
    (∀ x ∈ t.nodes, x.moves.length = x.children.length) → ∀ {x : Unfolding}, x ∈ t.nodes →
      ∀ {c : Unfolding} {move : Move}, (c, move) ∈ x.children.zip x.moves → (x.state, c.state, move) ∈ transitions depth t
  | depth, t, h, haligned, x, hx, c, move, hc => by
    rcases mem_nodes.1 hx with rfl | ⟨b, hb, hx⟩
    · exact Unfolding.mem_transitions.2 ⟨c, move, hc, .inl rfl⟩
    · obtain ⟨d, rfl, hd⟩ := shallow_iff.1 h b hb
      have hbelow : ∀ x ∈ b.nodes, x.moves.length = x.children.length := fun x hx =>
        haligned x (mem_nodes.2 (.inr ⟨b, hb, hx⟩))
      obtain ⟨first, hfirst⟩ := exists_beside (haligned t (mem_nodes_self t)) hb
      exact Unfolding.mem_transitions.2 ⟨b, first, hfirst, .inr ⟨d, rfl, hd.mem_transitions hbelow hx hc⟩⟩

/-! ## Numbering -/

theorem statesAll_numberAll : ∀ (ts : List Unfolding) (n : Nat),
    statesAll (numberAll n ts).1 = (range' n (nodesAll ts).length).map (fun i : Nat => defaultName i) ∧
      (numberAll n ts).2 = n + (nodesAll ts).length
  | [], n => by simp [numberAll, nodesAll, statesAll]
  | node q old action before l pruned children moves :: rest, n => by
    obtain ⟨hchildren, hnext⟩ := statesAll_numberAll children (n + 1)
    obtain ⟨hrest, hlast⟩ := statesAll_numberAll rest (n + 1 + (nodesAll children).length)
    constructor
    · simp only [numberAll, nodesAll, nodes, statesAll, states, hchildren, hnext, hrest, cons_append,
        length_cons, length_append, range'_succ, map_cons, ← range'_append_1, map_append]
    · simp only [numberAll, nodesAll, nodes, hnext, length_cons, length_append]
      omega

theorem states_renamed (h : t.state = "s0") :
    t.renamed.states = (range t.nodes.length).map fun i : Nat => defaultName i := by
  obtain ⟨q, old, action, before, l, pruned, children, moves⟩ := t
  obtain rfl : q = "s0" := h
  simp only [renamed, number, states, (statesAll_numberAll children 1).1, range_eq_range']
  rfl

/-- A node and what renaming the nodes below it makes of it. -/
def Renumbered (t u : Unfolding) : Prop :=
  ∃ n, u.labels = t.labels ∧ u.moves = t.moves ∧ u.children = (numberAll n t.children).1

theorem renumbered_number (n : Nat) : ∀ t : Unfolding, Renumbered t (t.number n).1
  | node .. => by
    exact ⟨n, rfl, rfl, rfl⟩

theorem forall₂_numberAll : ∀ (ts : List Unfolding) (n : Nat), Forall₂ Renumbered ts (numberAll n ts).1
  | [], _ => by
    rw [numberAll]
    exact .nil
  | node _ _ _ _ _ _ children _ :: rest, n => by
    rw [numberAll]
    exact .cons ⟨n + 1, rfl, rfl, rfl⟩ (forall₂_numberAll rest (numberAll (n + 1) children).2)

theorem Sound.renumbered (h : Sound props t) (hu : Renumbered t u) : Sound props u := by
  obtain ⟨n, hlabels, hmoves, hchildren⟩ := hu
  refine ⟨hlabels ▸ h.row, hmoves ▸ h.moves, ?_⟩
  rw [hmoves, hchildren, h.aligned, (forall₂_numberAll t.children n).length_eq]

theorem Renumbered.exists_child (h : Renumbered t u) (hc : c ∈ u.children) : ∃ b ∈ t.children, Renumbered b c := by
  obtain ⟨k, -, -, hchildren⟩ := h
  exact exists_of_mem_forall₂ (forall₂_numberAll t.children k) (hchildren ▸ hc)

theorem Grown.renumbered : ∀ {n : Nat} {t u : Unfolding}, Grown props n t → Renumbered t u →
    Grown props n u
  | n, t, u, h, hu => by
    refine grown_iff.2 ⟨h.sound.renumbered hu, fun c hc => ?_⟩
    obtain ⟨b, hb, hbc⟩ := hu.exists_child hc
    obtain ⟨n, rfl, hn⟩ := (grown_iff.1 h).2 b hb
    exact ⟨n, rfl, hn.renumbered hbc⟩

theorem Grown.renamed (h : Grown props n t) : Grown props n t.renamed :=
  h.renumbered (renumbered_number 1 t)

theorem Shallow.renumbered : ∀ {n : Nat} {t u : Unfolding}, Shallow n t → Renumbered t u → Shallow n u
  | n, t, u, h, hu => by
    refine shallow_iff.2 fun c hc => ?_
    obtain ⟨b, hb, hbc⟩ := hu.exists_child hc
    obtain ⟨n, rfl, hn⟩ := shallow_iff.1 h b hb
    exact ⟨n, rfl, hn.renumbered hbc⟩

/-- What a node has, apart from its name and those of its children. -/
def shape (t : Unfolding) : Option (List Cell) × List Move × Nat := (t.labels, t.moves, t.children.length)

theorem map_shape_numberAll : ∀ (ts : List Unfolding) (n : Nat),
    (nodesAll (numberAll n ts).1).map shape = (nodesAll ts).map shape
  | [], n => by rw [numberAll]
  | node q old action before l pruned children moves :: rest, n => by
    have hlength := (forall₂_numberAll children (n + 1)).length_eq
    have hchildren := map_shape_numberAll children (n + 1)
    have hrest := map_shape_numberAll rest (numberAll (n + 1) children).2
    simp only [numberAll, nodesAll, nodes, map_append, map_cons, hchildren, hrest]
    simp only [shape, labels, Unfolding.moves, Unfolding.children, hlength]

theorem map_shape_renamed : ∀ t : Unfolding, t.renamed.nodes.map shape = t.nodes.map shape
  | node q old action before l pruned children moves => by
    have hlength := (forall₂_numberAll children 1).length_eq
    simp only [renamed, number, nodes, map_cons, map_shape_numberAll]
    simp only [shape, labels, Unfolding.moves, Unfolding.children, hlength]

theorem state_renamed : ∀ t : Unfolding, t.renamed.state = t.state
  | node .. => by
    rfl

theorem nodup_states_renamed (h : t.state = "s0") : t.renamed.states.Nodup := by
  rw [states_renamed h]
  exact nodup_range.map fun i j => Checker.defaultName_inj

theorem exists_name_renamed (h : t.state = "s0") : ∀ q ∈ t.renamed.states, ∃ i : Nat, q = defaultName i := by
  intro q hq
  rw [states_renamed h] at hq
  obtain ⟨i, -, rfl⟩ := mem_map.1 hq
  exact ⟨i, rfl⟩

theorem eq_of_state (h : t.states.Nodup) (hx : x ∈ t.nodes) (hy : y ∈ t.nodes) (hstate : x.state = y.state) :
    x = y := by
  rw [states_eq] at h
  exact inj_on_of_nodup_map h hx hy hstate

theorem nodup_nodes (h : t.states.Nodup) : t.nodes.Nodup := by
  rw [states_eq] at h
  exact h.of_map

theorem sublist_nodesAll (ts : List Unfolding) : ts.Sublist (nodesAll ts) := by
  induction ts with
  | nil => exact .slnil
  | cons t rest ih =>
    have hfirst : [t].Sublist t.nodes := singleton_sublist.2 (mem_nodes_self t)
    exact hfirst.append ih

theorem children_sublist {t x : Unfolding} (hx : x ∈ t.nodes) : x.children.Sublist t.nodes := by
  have hbelow : (nodesAll t.children).Sublist t.nodes := by
    cases t
    exact sublist_cons_self _ _
  rcases mem_nodes.1 hx with rfl | ⟨c, hc, hx⟩
  · exact (sublist_nodesAll x.children).trans hbelow
  · have hnodes : c.nodes.Sublist (nodesAll t.children) := by
      rw [nodesAll_eq_flatMap]
      exact sublist_flatten_of_mem (mem_map_of_mem hc)
    exact ((children_sublist hx).trans hnodes).trans hbelow
termination_by sizeOf t
decreasing_by exact sizeOf_child hc

theorem ne_of_mem_transitions (hn : t.states.Nodup) (h : (p, q, move) ∈ transitions depth t) : p ≠ q := by
  obtain ⟨x, hx, rfl, -, c, hc, rfl⟩ := exists_of_mem_transitions h
  intro hstate
  obtain rfl := eq_of_state hn hx (mem_nodes_of_child hx hc) hstate
  exact lt_irrefl _ (sizeOf_child hc)

/-! ## The matrix of a tree -/

theorem lastIndex_eq_ok (hn : states.Nodup) (h : states[i]? = some q) : lastIndex states q = .ok i := by
  unfold lastIndex
  rw [zip_range]
  cases hf : states.zipIdx.reverse.find? (·.1 == q) with
  | none =>
    rw [find?_eq_none] at hf
    have hmem : (q, i) ∈ states.zipIdx.reverse := mem_reverse.2 (mk_mem_zipIdx_iff_getElem?.2 h)
    exact absurd BEq.rfl (hf _ hmem)
  | some e =>
    obtain ⟨p, j⟩ := e
    obtain rfl : p = q := by simpa using find?_some hf
    have hj := mk_mem_zipIdx_iff_getElem?.1 (mem_reverse.1 (mem_of_find?_eq_some hf))
    rw [index_inj hn h hj]
    rfl

/-- The joint action of the last transition from one state to another, or `0`. -/
def wordOf (ts : List (String × String × Move)) (p q : String) : String :=
  ((ts.reverse.find? fun e => e.1 = p ∧ e.2.1 = q).map (·.2.2)).getD "0"

theorem wordOf_spec (ts : List (String × String × Move)) (p q : String) :
    (p, q, wordOf ts p q) ∈ ts ∨ wordOf ts p q = "0" ∧ ∀ move, (p, q, move) ∉ ts := by
  unfold wordOf
  cases hfound : ts.reverse.find? fun e => e.1 = p ∧ e.2.1 = q with
  | none => exact .inr ⟨rfl, fun move hmem => by simpa using find?_eq_none.1 hfound _ (mem_reverse.2 hmem)⟩
  | some e =>
    obtain ⟨rfl, rfl⟩ : e.1 = p ∧ e.2.1 = q := by simpa using find?_some hfound
    exact .inl (mem_reverse.1 (mem_of_find?_eq_some hfound))

/-- The matrix of some transitions, with a row and a column for each state. -/
def table (states : List String) (ts : List (String × String × Move)) : List (List String) :=
  states.map fun p => states.map (wordOf ts p)

theorem modify_map {α β : Type} [DecidableEq α] {l : List α} (hn : l.Nodup) {a : α} (hi : l[i]? = some a) (f : α → β)
    (F : β → β) : (l.map f).modify i F = l.map (Function.update f a (F (f a))) := by
  refine ext_getElem? fun k => ?_
  rw [getElem?_modify, getElem?_map, getElem?_map]
  cases hk : l[k]? with
  | none => rfl
  | some b =>
    by_cases hik : i = k
    · cases (hik ▸ hi).symm.trans hk
      simp [hik]
    · have hne : b ≠ a := fun hb => hik (index_inj hn hi (hb ▸ hk))
      simp [hik, hne]

section Table

variable (hn : states.Nodup) {ts : List (String × String × Move)}

include hn

theorem putCell_table {j : Nat} (hi : states[i]? = some p) (hj : states[j]? = some q) (move : Move) :
    putCell (table states ts) i j move = table states (ts ++ [(p, q, move)]) := by
  rw [putCell, table, modify_map hn hi, set_eq_modify, modify_map hn hj]
  refine map_congr_left fun a _ => ?_
  have hword : ∀ b, wordOf (ts ++ [(p, q, move)]) a b = if p = a ∧ q = b then move else wordOf ts a b := fun b => by
    by_cases hab : p = a ∧ q = b <;> simp [wordOf, hab]
  by_cases ha : a = p
  · subst ha
    rw [Function.update_self]
    refine map_congr_left fun b _ => ?_
    rw [hword, Function.update_apply]
    simp [eq_comm]
  · rw [Function.update_of_ne ha]
    exact map_congr_left fun b _ => by rw [hword, if_neg fun h => ha h.1.symm]

theorem foldlM_table {more : List (String × String × Move)} (hmem : ∀ e ∈ more, e.1 ∈ states ∧ e.2.1 ∈ states) :
    more.foldlM (fun g (p, q, move) => do
      let i ← lastIndex states p
      let j ← lastIndex states q
      return putCell g i j move) (table states ts) = .ok (table states (ts ++ more)) := by
  induction more generalizing ts with
  | nil => rw [append_nil]; rfl
  | cons e more ih =>
    obtain ⟨⟨hp, hq⟩, hmore⟩ := forall_mem_cons.1 hmem
    obtain ⟨i, hi⟩ := mem_iff_getElem?.1 hp
    obtain ⟨j, hj⟩ := mem_iff_getElem?.1 hq
    rw [foldlM_cons, append_cons, ← ih hmore, ← putCell_table hn hi hj]
    simp only [lastIndex_eq_ok hn hi, lastIndex_eq_ok hn hj]
    rfl

end Table

theorem matrix_eq (hn : t.states.Nodup) (depth : Nat) :
    t.matrix t.distinctStates depth = .ok (table t.states (t.transitions depth)) := by
  have hmem : ∀ e ∈ t.transitions depth, e.1 ∈ t.states ∧ e.2.1 ∈ t.states := by
    rintro ⟨p, q, move⟩ h
    obtain ⟨x, hx, rfl, -, c, hc, rfl⟩ := exists_of_mem_transitions h
    exact ⟨state_mem_states hx, state_mem_states (mem_nodes_of_child hx hc)⟩
  have hempty : table t.states [] = replicate t.states.length (replicate t.states.length "0") := by
    simp only [← map_const']
    rfl
  obtain ⟨i, hi⟩ := mem_iff_getElem?.1 (state_mem_states (mem_nodes_self t))
  unfold matrix distinctStates
  simp only [Text.distinct_of_nodup hn, lastIndex_eq_ok hn hi, ← hempty]
  exact foldlM_table hn hmem

section Words

variable (hn : t.states.Nodup) (hx : x ∈ t.nodes)

include hn hx

theorem wordOf_child (hdeep : Shallow depth t) (haligned : ∀ x ∈ t.nodes, x.moves.length = x.children.length)
    (hc : (c, move) ∈ x.children.zip x.moves) :
    wordOf (t.transitions depth) x.state c.state = move := by
  rcases wordOf_spec (t.transitions depth) x.state c.state with hmem | ⟨-, hnone⟩
  · obtain ⟨x', hx', hstate, c', hc', hname⟩ := exists_zip_of_mem_transitions hmem
    obtain rfl := eq_of_state hn hx' hx hstate
    have hchildren := children_sublist hx
    obtain rfl := eq_of_state hn (hchildren.subset (of_mem_zip hc').1) (hchildren.subset (of_mem_zip hc).1) hname
    have hnodup : ((x'.children.zip x'.moves).map Prod.fst).Nodup := by
      rw [map_fst_zip (haligned x' hx).ge]
      exact hchildren.nodup (nodup_nodes hn)
    exact congrArg Prod.snd (inj_on_of_nodup_map hnodup hc' hc rfl)
  · exact absurd (hdeep.mem_transitions haligned hx hc) (hnone move)

theorem wordOf_other (hy : y ∈ t.nodes) (h : y ∉ x.children) : wordOf (t.transitions depth) x.state y.state = "0" := by
  rcases wordOf_spec (t.transitions depth) x.state y.state with hmem | ⟨hzero, -⟩
  · obtain ⟨x', hx', hstate, -, c, hc, hname⟩ := exists_of_mem_transitions hmem
    obtain rfl := eq_of_state hn hx' hx hstate
    obtain rfl := eq_of_state hn (mem_nodes_of_child hx hc) hy hname
    exact absurd hc h
  · exact hzero

end Words

end Natural.Unfolding

end Arena
