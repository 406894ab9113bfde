/-
Trees written as models. The names of the nodes, the rows of the matrix and the label rows come from three walks over a
tree. The text is read with one state for each node, and transitions from nodes to their children.
-/
import Arena.Proofs.Natural.RecallLetters

namespace Arena.Natural.Unfolding

open List Model Recall

variable {t : Unfolding}

theorem writable_renamed (h : ∀ x ∈ t.nodes, Writable x) : ∀ x ∈ t.renamed.nodes, Writable x := by
  intro x hx
  have hmem : x.shape ∈ t.nodes.map shape := map_shape_renamed t ▸ mem_map_of_mem hx
  obtain ⟨y, hy, hshape⟩ := mem_map.1 hmem
  simp only [shape, Prod.mk.injEq] at hshape
  obtain ⟨hlabels, hmoves, hchildren⟩ := hshape
  exact ⟨hlabels ▸ (h y hy).row, hmoves ▸ (h y hy).moves, by rw [← hmoves, ← hchildren, (h y hy).aligned]⟩

/-- A model whose states are the nodes of a tree: the cell from a node to a child has the joint action beside the
child, and any other cell is `0`. -/
structure Depicts (t : Unfolding) (m : Model) : Prop where
  states : m.states = t.states
  labels : m.labels.map some = t.rows
  fits : m.Fits
  child : ∀ (i j : Nat) x y move, t.nodes[i]? = some x → t.nodes[j]? = some y → (y, move) ∈ x.children.zip x.moves →
    cellAt? m.graph i j = some (.text move)
  other : ∀ (i j : Nat) x y, t.nodes[i]? = some x → t.nodes[j]? = some y → y ∉ x.children →
    cellAt? m.graph i j = some .zero

theorem depicts {height : Nat} (hdeep : Shallow height t) (hnodes : ∀ x ∈ t.nodes, Writable x) (hnodup : t.states.Nodup)
    {m : Model} (hgraph : m.graph = (table t.states (t.transitions height)).map (·.map Cell.ofWord))
    (hstates : m.states = t.states) (hlabels : Forall₂ (fun x row => x.labels = some row) t.nodes m.labels) :
    Depicts t m := by
  have hcell : ∀ {i j : Nat} {x y}, t.nodes[i]? = some x → t.nodes[j]? = some y →
      cellAt? m.graph i j = some (Cell.ofWord (wordOf (t.transitions height) x.state y.state)) := by
    intro i j x y hx hy
    simp [cellAt?, hgraph, table, states_eq, hx, hy]
  refine ⟨hstates, ?_, fits_of_table hgraph hstates, ?_, ?_⟩
  · rw [rows_eq]
    refine ext_getElem (by simp [hlabels.length_eq]) fun i hi hi' => ?_
    rw [length_map] at hi hi'
    simpa using ((forall₂_iff_get.1 hlabels).2 i hi' hi).symm
  · intro i j x y move hx hy hmove
    have hxmem := mem_of_getElem? hx
    rw [hcell hx hy, wordOf_child hnodup hxmem hdeep (fun x hx => (hnodes x hx).aligned) hmove, Cell.ofWord,
      if_neg ((hnodes x hxmem).moves move (of_mem_zip hmove).2).2]
  · intro i j x y hx hy hchild
    rw [hcell hx hy, wordOf_other hnodup (mem_of_getElem? hx) (mem_of_getElem? hy) hchild]
    rfl

/-- A tree comes back from a text as a model of its renamed nodes, which keep their label rows, joint actions and
children. All else is as it was read before. -/
theorem load_renamed {l : Layout} {source : String} (hl : l.Cuts source) {m : Model}
    (hload : load .plain source = .ok m) {height : Nat} (hroot : t.state = "s0") (hdeep : Shallow height t)
    (hnodes : ∀ x ∈ t.nodes, Writable x) : ∃ g text m', t.renamed.matrix t.renamed.distinctStates height = .ok g ∧
      t.renamed.modelText source t.renamed.distinctStates g = .ok text ∧ load .plain text = .ok m' ∧
      Depicts t.renamed m' ∧ t.renamed.nodes.map shape = t.nodes.map shape ∧
      m'.states = (range t.nodes.length).map (fun i : Nat => defaultName i) ∧
      m' = { m with graph := m'.graph, states := m'.states, labels := m'.labels } := by
  have hnodup := nodup_states_renamed hroot
  have hwritable := writable_renamed hnodes
  obtain ⟨labels, text, hlabels, htext, hload'⟩ :=
    exists_loaded hl hload (exists_name_renamed hroot) hnodup hwritable height
  have hshallow : Shallow height t.renamed := hdeep.renumbered (renumbered_number 1 t)
  exact ⟨_, text, _, matrix_eq hnodup height, htext, hload', depicts hshallow hwritable hnodup rfl rfl hlabels,
    map_shape_renamed t, states_renamed hroot, rfl⟩

/-- A tree whose root has lost a child of three. -/
def fork : Unfolding :=
  .node "s0" "s0" none [] (some [.num 1]) true
    [.node "s1" "s1" (some "IB") ["s0"] (some [.num 0]) false [] [],
      .node "s0" "s0" (some "II") ["s0"] (some [.num 1]) false [] []] ["IB", "II"]

theorem load_renamed_fork : gateLayout.Proper ∧ load .plain gateLayout.text = .ok gate ∧ fork.state = "s0" ∧
    Shallow 1 fork ∧ (∀ x ∈ fork.nodes, Writable x) ∧ ∃ g text m',
      fork.renamed.matrix fork.renamed.distinctStates (1 : Nat) = .ok g ∧
      fork.renamed.modelText gateLayout.text fork.renamed.distinctStates g = .ok text ∧ load .plain text = .ok m' ∧
      Depicts fork.renamed m' ∧ m'.states = ["s0", "s1", "s2"] ∧ m'.agents = .number 2 := by
  have hproper : gateLayout.Proper := by decide
  have hload : load .plain gateLayout.text = .ok gate := gate_load
  have hdeep : Shallow 1 fork := by simp [Shallow, fork, children]
  have hone : Layout.IsLabelRow [.num 1] := ⟨by decide, by decide⟩
  have hzero : Layout.IsLabelRow [.num 0] := ⟨by decide, by decide⟩
  have hnodes : ∀ x ∈ fork.nodes, Writable x := by
    simp only [fork, nodes, nodesAll, mem_cons, not_mem_nil, or_false, nil_append, cons_append, forall_eq_or_imp,
      forall_eq]
    exact ⟨⟨⟨_, rfl, hone⟩, by decide, rfl⟩, ⟨⟨_, rfl, hzero⟩, by simp [moves], rfl⟩, ⟨_, rfl, hone⟩, by simp [moves], rfl⟩
  obtain ⟨g, text, m', hg, htext, hload', hdepicts, -, hstates, hrest⟩ := load_renamed hproper.cuts hload rfl hdeep hnodes
  exact ⟨hproper, hload, rfl, hdeep, hnodes, g, text, m', hg, htext, hload', hdepicts, hstates.trans (by decide), by rw [hrest]; rfl⟩

end Arena.Natural.Unfolding
