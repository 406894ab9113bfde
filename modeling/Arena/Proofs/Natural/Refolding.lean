/-
A tree that was written as a model is unfolded to itself. The row of a node has the joint actions that lead to its
children at their places, in their order. So the unfolding has the same names, label rows and joint actions; only what
the nodes remember of the model that they come from is gone.
-/
import Arena.Proofs.Natural.TreeModel

namespace Arena.Natural.Unfolding

open List Text Model Cell

variable {t x y : Unfolding} {props : List String} {depth : Nat} {m : Model}

theorem flatMap_of_sublist {α β : Type} {f : α → List β} {s l : List α} (h : s.Sublist l) (hn : l.Nodup)
    (hf : ∀ a ∈ l, a ∉ s → f a = []) : l.flatMap f = s.flatMap f := by
  induction h with
  | slnil => rfl
  | @cons s l a hs ih =>
    obtain ⟨ha, hn⟩ := nodup_cons.1 hn
    have hskip : f a = [] := hf a mem_cons_self fun hmem => ha (hs.subset hmem)
    rw [flatMap_cons, hskip, nil_append, ih hn fun b hb => hf b (mem_cons_of_mem _ hb)]
  | @cons_cons s l a hs ih =>
    obtain ⟨ha, hn⟩ := nodup_cons.1 hn
    have hrest : ∀ b ∈ l, b ∉ s → f b = [] := fun b hb hbs => by
      refine hf b (mem_cons_of_mem _ hb) fun hmem => ?_
      rcases mem_cons.1 hmem with rfl | hmem
      · exact ha hb
      · exact hbs hmem
    rw [flatMap_cons, flatMap_cons, ih hn hrest]

/-! ## Unfolding anew -/

mutual

/-- The tree as if it were unfolded from its own nodes, below given states and by a given joint action. -/
def anew (action : Option Move) (before : List String) : Unfolding → Unfolding
  | node q _ _ _ l _ children moves =>
    node q q action before l false (anewAll (before ++ [q]) children moves) moves

def anewAll (before : List String) : List Unfolding → List Move → List Unfolding
  | t :: ts, move :: moves => anew (some move) before t :: anewAll before ts moves
  | _, _ => []

end

theorem anewAll_eq (before : List String) : ∀ (ts : List Unfolding) (moves : List Move),
    anewAll before ts moves = (ts.zip moves).map fun e => anew (some e.2) before e.1
  | [], moves => by rw [anewAll, zip_nil_left, map_nil]; simp
  | _ :: _, [] => by rw [anewAll, zip_nil_right, map_nil]; simp
  | t :: ts, move :: moves => by rw [anewAll, anewAll_eq before ts moves, zip_cons_cons, map_cons]

theorem positionOf_defaultName {i : Nat} (h : i < 10 ^ maxDigits) : positionOf (defaultName i) = .ok i := by
  have hslice : slice (defaultName i) 1 (defaultName i).length = toString i := by
    unfold slice
    rw [← String.length_toList, take_length, Checker.toList_defaultName, drop_one, tail_cons,
      ← toList_natRepr, String.ofList_toList]
  unfold positionOf
  rw [hslice, readInt?_toString h]
  rfl

theorem Sound.children_eq (h : Sound props x) :
    (x.children.zip x.moves).map Prod.fst = x.children := map_fst_zip h.aligned.ge

theorem Sound.moves_eq (h : Sound props x) :
    (x.children.zip x.moves).map Prod.snd = x.moves := map_snd_zip h.aligned.le

section Written

variable (hdeep : Shallow depth t) (haligned : ∀ x ∈ t.nodes, x.moves.length = x.children.length)
  (hnodup : t.states.Nodup)

include hnodup

theorem labelRow_written (hstates : m.states = t.states)
    (hlabels : List.Forall₂ (fun x row => x.labels = some row ∧ TruthRow props row) t.nodes m.labels)
    (hx : x ∈ t.nodes) : labelRow m x.state = .ok x.labels := by
  obtain ⟨i, row, hi, hrow, hlabel⟩ := exists_row hstates hlabels hx
  unfold labelRow
  rw [(idxOf?_eq_some (hstates ▸ hnodup)).2 hi]
  simp only [nth_natCast, hrow, hlabel]
  rfl

/-- What unfolding a node gives at the place of another one, by the word that stands there. -/
def entriesAt (before : List String) (w : String) (y : Unfolding) : List (Move × Unfolding) :=
  if w = "0" then [] else [(w, anew (some w) before y)]

include hdeep haligned

/-- Along all nodes, the entries of a node are those of its children in their order. -/
theorem flatMap_entriesAt (hx : x ∈ t.nodes) (hsound : Sound props x) (before : List String) :
    t.nodes.flatMap (fun y => entriesAt before (wordOf (t.transitions depth) x.state y.state) y) =
      (x.children.zip x.moves).map fun e => (e.2, anew (some e.2) before e.1) := by
  rw [flatMap_of_sublist (children_sublist hx) (nodup_nodes hnodup) fun y hy hchild => by
    rw [wordOf_other hnodup hx hy hchild, entriesAt, if_pos rfl]]
  conv_lhs => rw [← hsound.children_eq]
  rw [flatMap_map, map_eq_flatMap]
  refine flatMap_congr fun e he => ?_
  rw [wordOf_child hnodup hx hdeep haligned he, entriesAt, if_neg (hsound.moves e.2 (of_mem_zip he).2).ne_zero]

theorem unfold_cell (hstates : m.states = t.states) (hx : x ∈ t.nodes) (hsound : Sound props x) {before : List String}
    {height : Nat} (hbuild : ∀ e ∈ x.children.zip x.moves,
      build m m.states height e.1.state (some e.2) before = .ok (anew (some e.2) before e.1)) {j : Nat}
    (hy : t.nodes[j]? = some y) {w : String} (hw : wordOf (t.transitions depth) x.state y.state = w) : (do
      if (ofWord w).isZero then return []
      let next ← nth m.states (j : Nat)
      (split "," (ofWord w).write).mapM fun move => do
        return (move, ← build m m.states height next (some move) before) :
      Outcome (List (Move × Unfolding))) = .ok (entriesAt before w y) := by
  by_cases hchild : y ∈ x.children
  · obtain ⟨move, hmove⟩ := exists_beside hsound.aligned hchild
    obtain rfl := hw.symm.trans (wordOf_child hnodup hx hdeep haligned hmove)
    have hlist := hsound.moves w (of_mem_zip hmove).2
    have hnext : nth m.states (j : Nat) = .ok y.state := by
      rw [nth_eq_ok, hstates, states_eq, getElem?_map, hy, Option.map_some]
    rw [entriesAt, if_neg hlist.ne_zero, ofWord, if_neg hlist.ne_zero, hnext, write, split_listable hlist]
    simp only [bind, Except.bind, mapM_cons, hbuild _ hmove]
    rfl
  · rw [← hw, wordOf_other hnodup hx (mem_of_getElem? hy) hchild]
    rfl

theorem build_written (hnames : t.states = (range t.nodes.length).map fun i : Nat => defaultName i)
    (hlimit : t.nodes.length ≤ 10 ^ maxDigits)
    (hgraph : m.graph = (table t.states (t.transitions depth)).map (·.map ofWord)) (hstates : m.states = t.states)
    (hlabels : Forall₂ (fun x row => x.labels = some row ∧ TruthRow props row) t.nodes m.labels) :
    ∀ (height : Nat) {n : Nat} {x : Unfolding} (action : Option Move) (before : List String), x ∈ t.nodes →
      Grown props n x → n ≤ height → build m m.states height x.state action before = .ok (x.anew action before)
  | 0, n, x, action, before, hx, hn, hle => by
    obtain rfl : n = 0 := by omega
    have hrow := labelRow_written hnodup hstates hlabels hx
    obtain ⟨hsound, hchildren⟩ := hn
    have hmoves : x.moves = [] := length_eq_zero_iff.1 (hsound.aligned.trans (by rw [hchildren]; rfl))
    obtain ⟨q, old, action', before', l, pruned, children, moves⟩ := x
    obtain rfl : children = [] := hchildren
    obtain rfl : moves = [] := hmoves
    unfold build
    rw [hrow, anew]
    rfl
  | height + 1, n, x, action, before, hx, hn, hle => by
    have hsound := hn.sound
    obtain ⟨i, hi⟩ := mem_iff_getElem?.1 hx
    have hlt := lt_of_getElem? hi
    have hname : x.state = defaultName i := by
      have hstate : t.states[i]? = some x.state := by rw [states_eq, getElem?_map, hi, Option.map_some]
      rw [hnames, getElem?_map, getElem?_range hlt] at hstate
      exact (Option.some.inj hstate).symm
    have hposition : positionOf x.state = .ok i := hname ▸ positionOf_defaultName (by omega)
    let word (y : Unfolding) : String := wordOf (t.transitions depth) x.state y.state
    have hrow : nth m.graph i = .ok (t.nodes.map fun y => ofWord (word y)) := by
      rw [nth_eq_ok, hgraph, table, states_eq]
      simp [hi, word]
    have hbuild : ∀ e ∈ x.children.zip x.moves, build m m.states height e.1.state (some e.2) (before ++ [x.state]) =
        .ok (anew (some e.2) (before ++ [x.state]) e.1) := by
      intro e he
      have hchild := (of_mem_zip he).1
      obtain ⟨k, rfl, hk⟩ := (grown_iff.1 hn).2 e.1 hchild
      exact build_written hnames hlimit hgraph hstates hlabels height _ _ (mem_nodes_of_child hx hchild) hk (by omega)
    have hplaces : (t.nodes.map fun y => ofWord (word y)).zip
        (range (t.nodes.map fun y => ofWord (word y)).length) =
        t.nodes.zipIdx.map fun e => (ofWord (word e.1), e.2) := by
      rw [length_map, zipIdx_eq_zip_range', range_eq_range', zip_map_left]
      rfl
    have hentries : (t.nodes.zipIdx.map fun e => entriesAt (before ++ [x.state]) (word e.1) e.1).flatten =
        (x.children.zip x.moves).map fun e => (e.2, anew (some e.2) (before ++ [x.state]) e.1) := by
      rw [← flatMap_entriesAt hdeep haligned hnodup hx hsound, flatMap_def]
      conv_rhs => rw [← zipIdx_map_fst 0 t.nodes, map_map]
      rfl
    have hmoves : ∀ move ∈ x.moves, decide (move ≠ "") = true := fun move hmove => by
      simpa using (hsound.moves move hmove).word.1
    refine bind_eq_ok.2 ⟨_, labelRow_written hnodup hstates hlabels hx, bind_eq_ok.2 ⟨_, hposition,
      bind_eq_ok.2 ⟨_, hrow, bind_eq_ok.2
        ⟨t.nodes.zipIdx.map fun e => entriesAt (before ++ [x.state]) (word e.1) e.1, ?_, ?_⟩⟩⟩⟩
    · rw [hplaces, mapM_map]
      exact mapM_eq_map fun e he =>
        unfold_cell hdeep haligned hnodup hstates hx hsound hbuild (mk_mem_zipIdx_iff_getElem?.1 he) rfl
    · have hfirst : (Prod.fst ∘ fun e : Unfolding × Move => (e.2, anew (some e.2) (before ++ [x.state]) e.1)) =
          Prod.snd := rfl
      simp only [hentries, map_map]
      rw [hfirst, hsound.moves_eq, filter_eq_self.2 hmoves]
      obtain ⟨q, old, action', before', l, pruned, children, moves⟩ := x
      rw [anew, anewAll_eq]
      rfl

end Written

theorem length_nodes_renamed (h : t.state = "s0") : t.renamed.nodes.length = t.nodes.length := by
  have hlength := congrArg length (states_renamed h)
  rwa [states_eq, length_map, length_map, length_range] at hlength

theorem Grown.length_nodes_anew {props : List String} {n : Nat} {t : Unfolding} (h : Grown props n t)
    (action : Option Move) (before : List String) : (t.anew action before).nodes.length = t.nodes.length := by
  obtain ⟨q, old, action', before', l, pruned, children, moves⟩ := t
  obtain ⟨hsound, hbelow⟩ := grown_iff.1 h
  have hchildren : (children.zip moves).map Prod.fst = children := hsound.children_eq
  have hlengths : ∀ e ∈ children.zip moves,
      (anew (some e.2) (before ++ [q]) e.1).nodes.length = e.1.nodes.length := by
    intro e he
    obtain ⟨k, hn, hk⟩ := hbelow e.1 (of_mem_zip he).1
    exact hk.length_nodes_anew _ _
  rw [anew, nodes, nodes, length_cons, length_cons, nodesAll_eq_flatMap, nodesAll_eq_flatMap, anewAll_eq,
    length_flatMap, length_flatMap, map_map]
  conv_rhs => rw [← hchildren, map_map]
  exact congrArg (·.sum + 1) (map_congr_left hlengths)
termination_by n
decreasing_by omega

/-- The model that a tree with numbered nodes comes to is unfolded to the tree, unless the numbers are too long. -/
theorem Renders.ofModel_eq (h : Renders props t.renamed m) (hgrown : Grown props 3 t) (hroot : t.state = "s0")
    (hlimit : t.nodes.length ≤ 10 ^ maxDigits) (hdepth : 3 ≤ depth)
    (hgraph : m.graph = (table t.renamed.states (t.renamed.transitions depth)).map (·.map ofWord)) :
    ofModel m m.states 4 = .ok (t.renamed.anew none []) := by
  have hlength := length_nodes_renamed hroot
  have hbuild := build_written (hgrown.renamed.mono hdepth).shallow
    (fun x hx => (hgrown.renamed.sound_of_mem x hx).aligned) (nodup_states_renamed hroot)
    (by rw [hlength, states_renamed hroot]) (by rwa [hlength]) hgraph h.states h.labels 3 none []
    (mem_nodes_self t.renamed) hgrown.renamed le_rfl
  rwa [state_renamed, hroot] at hbuild

end Arena.Natural.Unfolding
