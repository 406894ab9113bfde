/-
What firm pruning leaves of a matrix. In each row the rules of a coalition come to one test on its letters; a cell keeps
the joint actions that pass it, and becomes zero when none does. A cell that has become `*` is passed over by all later
rules.
-/
import Arena.Natural.Pruning
import Arena.Proofs.Checker.Forcing
import Arena.Proofs.Model.Sections

namespace Arena

open List

variable {pick : List Move → Outcome (List Move)} {index : Int} {plans : List Plan} {t source : String}
  {row : List Cell} {c : Cell}

/-! ## Words of a matrix -/

theorem Cell.write_ofWord (w : String) : (ofWord w).write = w := by
  unfold ofWord
  split
  · rename_i h
    rw [h]
    rfl
  · rfl

namespace Model

theorem exists_word_of_load {m : Model} (hm : load .plain source = .ok m) (hrow : row ∈ m.graph) (hc : c ∈ row) :
    ∃ w, Text.IsWord w ∧ c = Cell.ofWord w := by
  rw [(load_eq_ok.1 hm).2] at hrow
  obtain ⟨line, -, rfl⟩ := mem_map.1 hrow
  obtain ⟨w, hw, rfl⟩ := mem_map.1 hc
  exact ⟨w, Text.isWord_of_mem_words hw, rfl⟩

theorem notBlank_of_load {m : Model} (hm : load .plain source = .ok m) :
    ∀ row ∈ m.graph, ∀ c ∈ row, ∀ ch ∈ c.write.toList, Text.isBlank ch = false := by
  intro row hrow c hc
  obtain ⟨w, hw, rfl⟩ := exists_word_of_load hm hrow hc
  rw [Cell.write_ofWord]
  exact hw.2

end Model

namespace Natural.Pruning

open Text Model

variable {i k j : Nat} {move : Move} {q : String} {g g' : Matrix} {members : List Int} {d c' : Cell} {n : Int}
  {P : Move → Prop}

/-! ## Cells -/

/-- The place of an agent's letter, and the letter that is asked for. -/
abbrev Demand := Nat × String

def Demand.met (d : Demand) (move : Move) : Bool := move.toList[d.1]?.any fun c => String.singleton c = d.2

theorem plays_eq (k : Nat) (action : String) (move : Move) :
    plays k action move = .ok (Demand.met (k, action) move) := by
  unfold plays Demand.met
  by_cases hk : move.toList.length ≤ k
  · rw [if_pos (by rw [← String.length_toList]; exact_mod_cast hk), getElem?_eq_none hk]
    rfl
  · have hget := getElem?_eq_getElem (Nat.lt_of_not_le hk)
    rw [if_neg (by rw [← String.length_toList]; exact_mod_cast hk), letterAt, nth_eq_ok.2 hget, hget]
    rfl

/-- The cell that lists joint actions: zero if there are none. -/
def listing (moves : List Move) : Cell := if moves = [] then .zero else .text (join "," moves)

/-- What a demand leaves of a cell: the joint actions that meet it. A cell `*` is passed over. -/
def Demand.restrict (d : Demand) : Cell → Cell
  | .text s => if s = "*" then .text s else listing ((split "," s).filter d.met)
  | .num n => .num n

/-- What demands leave of a cell, one after the other. -/
def prunedCell (ds : List Demand) (c : Cell) : Cell := ds.foldl (fun c d => d.restrict c) c

theorem prunedCell_append (ds es : List Demand) (c : Cell) :
    prunedCell (ds ++ es) c = prunedCell es (prunedCell ds c) := foldl_append ..

/-- A cell of a matrix and what is left of it when the joint actions have to pass a test. If only the joint
action `*` is left, later tests are not asked of it, but the first agent was one of the coalition. -/
inductive Kept (members : List Int) (P : Move → Prop) : Cell → Cell → Prop
  | zero : Kept members P .zero .zero
  | any : Kept members P (.text "*") (.text "*")
  | emptied {s : String} (hs : s ≠ "*") (hall : ∀ x ∈ split "," s, ¬ P x) : Kept members P (.text s) .zero
  | listed {s t : String} (hs : s ≠ "*") (hsub : ∀ x ∈ split "," t, x ∈ split "," s)
      (hall : ∀ x ∈ split "," s, P x → x ∈ split "," t)
      (hpass : t ≠ "*" → ∀ x ∈ split "," t, P x) (hstar : t = "*" → 0 ∈ members) :
      Kept members P (.text s) (.text t)

theorem split_join_kept {ys : List Move} (hsub : ∀ x ∈ ys, x ∈ split "," t) (hne : ys ≠ []) :
    split "," (join "," ys) = ys :=
  split_join (show ",".toList = [','] from rfl) hne fun x hx => (mem_split_comma (hsub x hx)).1

theorem Kept.restrict (hk : Kept members P c c') {d : Demand} (hd : (d.1 : Int) ∈ members) :
    Kept members (fun x => P x ∧ d.met x = true) c (d.restrict c') := by
  cases hk with
  | zero => exact .zero
  | any => exact .any
  | emptied hs hall => exact .emptied hs fun x hx hp => hall x hx hp.1
  | @listed s t hs hsub hall hpass hstar =>
    rw [Demand.restrict]
    by_cases ht : t = "*"
    · rw [if_pos ht]
      exact .listed hs hsub (fun x hx hp => hall x hx hp.1) (absurd ht) hstar
    rw [if_neg ht]
    by_cases hnone : (split "," t).filter d.met = []
    · rw [hnone]
      refine .emptied hs fun x hx hp => ?_
      simpa [hnone] using mem_filter.2 ⟨hall x hx hp.1, hp.2⟩
    have hsplit := split_join_kept (fun x hx => (mem_filter.1 hx).1) hnone
    rw [listing, if_neg hnone]
    refine .listed hs (fun x hx => ?_) (fun x hx hp => ?_) (fun _ x hx => ?_) fun hstar => ?_
    · rw [hsplit] at hx
      exact hsub x (mem_filter.1 hx).1
    · rw [hsplit]
      exact mem_filter.2 ⟨hall x hx hp.1, hp.2⟩
    · rw [hsplit] at hx
      exact ⟨hpass ht x (mem_filter.1 hx).1, (mem_filter.1 hx).2⟩
    · -- the agent whose letter was looked at is the first, as there is one letter only
      rw [hstar] at hsplit
      have hmem : "*" ∈ (split "," t).filter d.met := by
        rw [← hsplit]
        decide
      obtain ⟨ch, hch, -⟩ := (Option.any_eq_true _ _).1 (mem_filter.1 hmem).2
      have hlt : d.1 < 1 := lt_of_getElem? hch
      obtain hzero : d.1 = 0 := by omega
      rwa [hzero] at hd

/-- The name of the source state that a cell of a row has in the table of names. -/
def sourceOf (i : Nat) : Cell → Option String
  | .text s => if s = "*" then none else some (defaultName i)
  | .num _ => none

def pickOf (k : Nat) (action : String) (moves : List Move) : Outcome (List Move) :=
  ((moves.map trim).filter (· ≠ "")).filterM (plays k action)

theorem pickOf_eq (k : Nat) (action : String) {moves : List Move}
    (hblank : ∀ x ∈ moves, ∀ c ∈ x.toList, isBlank c = false) :
    pickOf k action moves = .ok (moves.filter (Demand.met (k, action))) := by
  have htrim : moves.map trim = moves := by
    conv_rhs => rw [← map_id moves]
    exact map_congr_left fun x hx => trim_eq_self (hblank x hx)
  unfold pickOf
  rw [htrim, filterM_eq_filter fun x _ => plays_eq k action x, filter_filter]
  refine congrArg _ (filter_congr fun x _ => ?_)
  by_cases hx : x = ""
  · subst hx
    rfl
  · simp [hx]

theorem restrictCell_listing {states : Names} {test : Move → Bool}
    (hq : q ∈ states) (ht : t ≠ "*") (hpick : pick (split "," t) = .ok ((split "," t).filter test))
    (hempty : test "" = false) : restrictCell states pick (some q) (.text t) = .ok (listing ((split "," t).filter test)) := by
  rw [restrictCell, if_neg (by simp [ht, hq]), hpick]
  cases hfilter : (split "," t).filter test with
  | nil => rfl
  | cons y ys =>
    have hmem : ∀ x ∈ y :: ys, x ∈ split "," t ∧ test x = true := fun x hx => mem_filter.1 (hfilter ▸ hx)
    have hne : join "," (y :: ys) ≠ "" := by
      intro he
      have hsplit := split_join_kept (fun x hx => (hmem x hx).1) (cons_ne_nil y ys)
      rw [he] at hsplit
      obtain rfl : "" = y := (cons.inj hsplit).1
      exact absurd (hmem "" mem_cons_self).2 (hempty ▸ Bool.false_ne_true)
    exact congrArg Except.ok (if_neg hne)

/-- Restricting what is left of a cell makes one more demand, in the rows of the given states. -/
theorem Kept.restrictCell (hk : Kept members P c c') (hblank : ∀ ch ∈ c.write.toList, isBlank ch = false)
    (states : Names) (k : Nat) (action : String) (i : Nat) :
    restrictCell states (pickOf k action) (sourceOf i c) c' =
      .ok (if defaultName i ∈ states then Demand.restrict (k, action) c' else c') := by
  cases hk with
  | zero | any => exact congrArg Except.ok (ite_self _).symm
  | emptied hs =>
    rw [sourceOf, if_neg hs]
    exact congrArg Except.ok (ite_self _).symm
  | @listed s t hs hsub =>
    rw [sourceOf, if_neg hs]
    by_cases hq : defaultName i ∈ states
    · rw [if_pos hq, Demand.restrict]
      by_cases ht : t = "*"
      · rw [if_pos ht]
        exact if_pos (by simp [ht])
      · rw [if_neg ht]
        refine restrictCell_listing hq ht (pickOf_eq k action fun x hx ch hch => ?_) rfl
        exact hblank ch ((mem_split_comma (hsub x hx)).2 ch hch)
    · rw [if_neg hq]
      exact if_pos (by simp [hq])

/-! ## Matrices -/

/-- What demands, given for each row, leave of a matrix. -/
def prunedMatrix (ds : Nat → List Demand) (g : Matrix) : Matrix := g.mapIdx fun i row => row.map (prunedCell (ds i))

theorem getElem?_prunedMatrix {ds : Nat → List Demand} :
    (prunedMatrix ds g)[i]? = g[i]?.map fun row => row.map (prunedCell (ds i)) := by
  simp [prunedMatrix]

theorem prunedMatrix_nil (g : Matrix) : prunedMatrix (fun _ => []) g = g := by
  refine ext_getElem? fun i => ?_
  have hcell : prunedCell [] = id := rfl
  rw [getElem?_prunedMatrix, hcell]
  simp

/-- The rows of the given states get one more demand. -/
def extend (ds : Nat → List Demand) (states : Names) (d : Demand) (i : Nat) : List Demand :=
  if defaultName i ∈ states then ds i ++ [d] else ds i

theorem getElem?_sourceNames (h : g[i]? = some row) : (sourceNames g)[i]? = some (row.map (sourceOf i)) := by
  unfold sourceNames
  rw [zip_range, getElem?_map, getElem?_zipIdx, h]
  refine congrArg some (map_congr_left fun c _ => ?_)
  cases c <;> simp [sourceOf]

theorem mapM_zip_mapIdx {α β γ : Type} {f : β × Nat → Outcome γ} {F : Nat → α → β} {G : Nat → α → γ} {xs : List α}
    (h : ∀ i x, xs[i]? = some x → f (F i x, i) = .ok (G i x)) :
    ((xs.mapIdx F).zip (range (xs.mapIdx F).length)).mapM f = .ok (xs.mapIdx G) := by
  have hzip : (xs.mapIdx F).zipIdx = xs.zipIdx.map fun e => (F e.2 e.1, e.2) := by
    refine ext_getElem? fun i => ?_
    simp [Function.comp_def]
  rw [zip_range, hzip, mapM_map, mapIdx_eq_zipIdx_map]
  exact mapM_eq_map fun e he => h e.2 e.1 (mem_zipIdx_iff_getElem?.1 he)

theorem restrict_mapIdx {states : Names} {f f' : Nat → Cell → Cell}
    (h : ∀ i row, g[i]? = some row → ∀ c ∈ row, restrictCell states pick (sourceOf i c) (f i c) = .ok (f' i c)) :
    restrict (sourceNames g) states pick (g.mapIdx fun i row => row.map (f i)) =
      .ok (g.mapIdx fun i row => row.map (f' i)) := by
  refine mapM_zip_mapIdx fun i row hrow => ?_
  have hcells : ∀ f : Cell → Cell, row.map f = row.mapIdx fun _ => f := fun f =>
    ext_getElem? fun j => by rw [getElem?_map, getElem?_mapIdx]
  rw [hcells, hcells]
  refine mapM_zip_mapIdx fun j c hc => ?_
  have hname : nth (row.map (sourceOf i)) (j : Nat) = .ok (sourceOf i c) :=
    nth_eq_ok.2 (by rw [getElem?_map, hc]; rfl)
  rw [nth_eq_ok.2 (getElem?_sourceNames hrow)]
  simp only [bind, Except.bind, hname]
  exact h i row hrow c (mem_of_getElem? hc)

section Load

variable {m : Model} (hload : load .plain source = .ok m)

include hload

theorem kept_prunedCell (hrow : row ∈ m.graph) (hc : c ∈ row) {ds : List Demand}
    (hds : ∀ d ∈ ds, (d.1 : Int) ∈ members) :
    Kept members (fun x => ∀ d ∈ ds, d.met x = true) c (prunedCell ds c) := by
  induction ds using reverseRecOn with
  | nil =>
    obtain ⟨w, -, rfl⟩ := exists_word_of_load hload hrow hc
    unfold Cell.ofWord
    split
    · exact .zero
    · by_cases hw : w = "*"
      · rw [hw]
        exact .any
      · exact .listed hw (fun x hx => hx) (fun x hx _ => hx) (fun _ _ _ => by simp) (absurd · hw)
  | append_singleton ds d ih =>
    obtain ⟨hds, hd⟩ := forall_mem_append.1 hds
    have hstep := (ih hds).restrict (hd d mem_cons_self)
    simp only [prunedCell_append, forall_mem_append, forall_mem_singleton]
    exact hstep

theorem restrict_prunedMatrix (ds : Nat → List Demand) (states : Names) (k : Nat) (action : String) :
    restrict (sourceNames m.graph) states (pickOf k action) (prunedMatrix ds m.graph) =
      .ok (prunedMatrix (extend ds states (k, action)) m.graph) := by
  refine restrict_mapIdx fun i row hrow c hc => ?_
  have hin := mem_of_getElem? hrow
  have hmembers : ∀ d ∈ ds i, (d.1 : Int) ∈ (ds i).map fun d => (d.1 : Int) := fun d hd => mem_map_of_mem hd
  rw [(kept_prunedCell hload hin hc hmembers).restrictCell (notBlank_of_load hload row hin c hc), extend]
  split
  · rw [prunedCell_append]
    rfl
  · rfl

end Load

/-- A matrix and what is left of it, with a test for each row. -/
structure Prunes (members : List Int) (P : Nat → Move → Prop) (g g' : Matrix) : Prop where
  length : g'.length = g.length
  rows : ∀ i row, g[i]? = some row → ∃ row', g'[i]? = some row' ∧ row'.length = row.length ∧
    ∀ (j : Nat) (c : Cell), row[j]? = some c → ∃ d, row'[j]? = some d ∧ Kept members (P i) c d

/-- A test on joint actions that looks at the letters of a coalition only. -/
def Respects (members : List Int) (P : Move → Prop) : Prop :=
  ∀ x y : Move, x.ofCoalition members = y.ofCoalition members → P x → P y

theorem letter_eq (hk : (k : Int) ∈ members) {x y : Move} (hxy : x.ofCoalition members = y.ofCoalition members) :
    x.toList[k]? = y.toList[k]? := by
  have hin : members.contains (k : Int) = true := contains_iff_mem.2 hk
  have hget := congrArg (fun z : Move => z.toList[k]?) hxy
  simpa only [Move.ofCoalition, Move.getElem?_keep, hin, if_true, Option.map_id'] using hget

/-! ## Rules -/

def Scope.states (m : Model) : Scope → Names
  | .everywhere => m.stateSet
  | .where_ _ states => states

/-- Demands on the letters of a coalition come to what is left of the matrix. -/
def PrunesFor (members : List Int) (g g' : Matrix) : Prop :=
  ∃ ds : Nat → List Demand, (∀ i, ∀ d ∈ ds i, (d.1 : Int) ∈ members) ∧ g' = prunedMatrix ds g

section Rules

variable {reader : Formula.Logic} {m : Model} {agents : List Int} (hload : load .plain source = .ok m)
  (hagents : ∀ a ∈ agents, ∃ k : Nat, a - 1 = k ∧ (k : Int) ∈ members)

include hload hagents

theorem PrunesFor.firm (hg : PrunesFor members m.graph g) {states emptied : Names} {action : String}
    {rows : List (String × Int)}
    (h : Pruning.firm g (sourceNames m.graph) states action index agents rows = .ok (g', emptied)) :
    PrunesFor members m.graph g' := by
  obtain ⟨ds, hds, rfl⟩ := hg
  obtain ⟨place, hplace, h⟩ := bind_eq_ok.1 h
  obtain ⟨g₁, hg₁, h⟩ := bind_eq_ok.1 h
  obtain ⟨_, -, h⟩ := bind_eq_ok.1 h
  cases h
  obtain ⟨a, ha, hplace⟩ := bind_eq_ok.1 hplace
  cases hplace
  obtain ⟨k, hk, hmem⟩ := hagents a (mem_of_nth ha)
  rw [hk] at hg₁
  cases (restrict_prunedMatrix hload ds states k action).symm.trans hg₁
  refine ⟨_, fun i d hd => ?_, rfl⟩
  unfold extend at hd
  split at hd
  · rcases mem_append.1 hd with hd | hd
    · exact hds i d hd
    · obtain rfl := mem_singleton.1 hd
      exact hmem
  · exact hds i d hd

theorem PrunesFor.firmRules {rules : Strategy} {covered : Names} (hg : PrunesFor members m.graph g)
    (h : Pruning.firmRules reader source m (sourceNames m.graph) agents index rules covered g = .ok (.ok g')) :
    PrunesFor members m.graph g' := by
  induction rules generalizing covered g with
  | nil =>
    rw [Pruning.firmRules, Except.ok.injEq, Except.ok.injEq] at h
    exact h ▸ hg
  | cons r rest ih =>
    obtain ⟨scope?, -, h⟩ := bind_eq_ok.1 h
    cases scope? with
    | none => exact ih hg h
    | some scope =>
      -- it does not matter in which states the rule applies
      cases scope <;>
      · simp only at h
        split at h
        · exact ih hg h
        · obtain ⟨⟨g₁, emptied⟩, hfirm, h⟩ := bind_eq_ok.1 h
          split at h
          · cases h
          · exact ih (hg.firm hload hagents hfirm) h

theorem PrunesFor.firmPlans (hg : PrunesFor members m.graph g)
    (h : Pruning.firmPlans reader source m (sourceNames m.graph) agents index plans g = .ok (.ok g')) :
    PrunesFor members m.graph g' := by
  induction plans generalizing index g with
  | nil =>
    rw [Pruning.firmPlans, Except.ok.injEq, Except.ok.injEq] at h
    exact h ▸ hg
  | cons p rest ih =>
    obtain ⟨rules, -, h⟩ := bind_eq_ok.1 h
    obtain ⟨pruned, hrules, h⟩ := bind_eq_ok.1 h
    cases pruned with
    | error reason => cases h
    | ok g₁ => exact ih (hg.firmRules hload hagents hrules) h

/-- The matrix that strategies leave is pruned by tests on the letters of the coalition. -/
theorem prunes_of_firmPlans
    (h : Pruning.firmPlans reader source m (sourceNames m.graph) agents 1 plans m.graph = .ok (.ok g)) :
    ∃ P, (∀ i, Respects members (P i)) ∧ Prunes members P m.graph g := by
  have hself : PrunesFor members m.graph m.graph := ⟨fun _ => [], fun _ => by simp, (prunedMatrix_nil m.graph).symm⟩
  obtain ⟨ds, hds, rfl⟩ := hself.firmPlans hload hagents h
  refine ⟨fun i x => ∀ d ∈ ds i, d.met x = true, fun i x y hxy hx d hd => ?_, by simp [prunedMatrix],
    fun i row hrow => ?_⟩
  · have hmet := hx d hd
    unfold Demand.met at hmet ⊢
    rwa [← letter_eq (hds i d hd) hxy]
  · refine ⟨_, by rw [getElem?_prunedMatrix, hrow]; rfl, length_map _, fun j c hc => ⟨_, by rw [getElem?_map, hc]; rfl, ?_⟩⟩
    exact kept_prunedCell hload (mem_of_getElem? hrow) (mem_of_getElem? hc) (hds i)

end Rules

/-! ## What the rest of a model shows of the model -/

theorem star_mem_of_lists {m : Model} (h : m.Lists c move) (hstar : '*' ∈ move.toList) : '*' ∈ c.write.toList := by
  obtain ⟨-, moves, hmoves, hmem⟩ := h
  unfold movesOf at hmoves
  split at hmoves
  · rename_i hc
    rw [hc]
    decide
  · cases hmoves
    exact (mem_split_comma hmem).2 _ hstar

theorem lists_text {m : Model} {s : String} (hs : s ≠ "*") : m.Lists (.text s) move ↔ move ∈ split "," s := by
  have hmoves : m.movesOf (Cell.write (.text s)) = .ok (split "," s) := by
    exact if_neg hs
  unfold Model.Lists
  rw [hmoves]
  constructor
  · rintro ⟨-, moves, hm, hmem⟩
    cases hm
    exact hmem
  · intro hmem
    exact ⟨rfl, _, rfl, hmem⟩

section Rest

variable {m : Model} {P : Nat → Move → Prop} (hp : Prunes members P m.graph g) (hfits : Fits { m with graph := g })
  (hstar : ∀ i j c, cellAt? m.graph i j = some c → '*' ∈ c.write.toList → i = j)

include hp in
theorem Prunes.exists_cell (hc : cellAt? m.graph i j = some c) :
    ∃ d, cellAt? g i j = some d ∧ Kept members (P i) c d := by
  obtain ⟨row, hrow, hj⟩ := mem_of_cellAt? hc
  obtain ⟨row', hrow', -, hcells⟩ := hp.rows i row hrow
  obtain ⟨d, hd, hk⟩ := hcells j c hj
  exact ⟨d, (cellAt?_eq hrow' j).trans hd, hk⟩

include hp in
theorem Prunes.exists_row {row' : List Cell} (h : g[i]? = some row') : ∃ row, m.graph[i]? = some row ∧
    row'.length = row.length ∧ ∀ (j : Nat) d, row'[j]? = some d → ∃ c, row[j]? = some c ∧ Kept members (P i) c d := by
  have hi : i < m.graph.length := hp.length ▸ lt_of_getElem? h
  obtain ⟨row'', hrow'', hlen, hcells⟩ := hp.rows i m.graph[i] (getElem?_eq_getElem hi)
  cases h.symm.trans hrow''
  refine ⟨_, getElem?_eq_getElem hi, hlen, fun j d hd => ?_⟩
  have hj : j < m.graph[i].length := hlen ▸ lt_of_getElem? hd
  obtain ⟨d', hd', hk⟩ := hcells j _ (getElem?_eq_getElem hj)
  cases hd.symm.trans hd'
  exact ⟨_, getElem?_eq_getElem hj, hk⟩

include hp in
theorem Prunes.exists_original (hd : cellAt? g i j = some d) :
    ∃ c, cellAt? m.graph i j = some c ∧ Kept members (P i) c d := by
  obtain ⟨row', hrow', hj⟩ := mem_of_cellAt? hd
  obtain ⟨row, hrow, -, hcells⟩ := hp.exists_row hrow'
  obtain ⟨c, hc, hk⟩ := hcells j d hj
  exact ⟨c, (cellAt?_eq hrow j).trans hc, hk⟩

include hp hfits hstar

theorem Prunes.edge_of_pass {r : String} (hq : m.states[i]? = some q) (hr : m.states[j]? = some r)
    (hc : cellAt? m.graph i j = some c) (hl : m.Lists c move) (hpass : P i move) : Edge { m with graph := g } q r := by
  obtain ⟨d, hd, hk⟩ := hp.exists_cell hc
  have hloop : ∀ {d : Cell}, cellAt? g i j = some d → d.isZero = false → (d.isAny = true → i = j) →
      Edge { m with graph := g } q r := by
    intro d hd hz hany
    refine hfits.edge_iff.2 ⟨i, j, d, hd, hz, hq, ?_⟩
    split
    · rename_i h
      rw [hany h]
      exact hr
    · exact hr
  cases hk with
  | zero => exact absurd hl.1 (by decide)
  | any => exact hloop hd rfl fun _ => hstar i j _ hc (by decide)
  | @emptied s hs hall => exact absurd hpass (hall move ((lists_text hs).1 hl))
  | @listed s t hs hsub hall _ _ =>
    refine hloop hd rfl fun hany => hstar i j _ hc ?_
    -- the cell is `*` now, so this is the joint action, and it has stood in the cell before
    have ht : t = "*" := by simpa [Cell.isAny] using hany
    have hmove := hall move ((lists_text hs).1 hl) hpass
    rw [ht] at hmove
    obtain rfl : move = "*" := mem_singleton.1 hmove
    exact star_mem_of_lists hl (by decide)

/-- Where a cell has become `*`, the coalition can stay: it has a part that stars only complete. -/
theorem Prunes.stay (hn : m.agentCount = .ok n) (hk : (k : Int) ∈ members) (hkn : (k : Int) < n)
    (hq : m.states[i]? = some q) (hd : cellAt? g i j = some d) (hany : d.isAny = true) :
    Edge { m with graph := g } q q ∧ ∃ c move, cellAt? m.graph i i = some c ∧ m.Lists c move ∧
      ∀ other : Move, other.ofCoalition members = move.ofCoalition members → '*' ∈ other.toList := by
  have hd' : d = .text "*" := by simpa [Cell.isAny] using hany
  subst hd'
  obtain ⟨c, hc, hkept⟩ := hp.exists_original hd
  -- a cell with a star is on the diagonal
  have hcell : ∀ move, m.Lists c move → '*' ∈ move.toList → i = j := fun move hl hs =>
    hstar i j c hc (star_mem_of_lists hl hs)
  have hstay : i = j → Edge { m with graph := g } q q := fun _ =>
    hfits.edge_iff.2 ⟨i, j, _, hd, rfl, hq, hq⟩
  have hcoalition : ∀ {move other : Move} {k : Nat}, (k : Int) ∈ members → move.toList[k]? = some '*' →
      other.ofCoalition members = move.ofCoalition members → '*' ∈ other.toList := by
    intro move other k hk hletter hsame
    rw [← letter_eq hk hsame] at hletter
    exact mem_of_getElem? hletter
  cases hkept with
  | any =>
    have hmoves : m.movesOf "*" = .ok [repeated "*" n.toNat] := by
      unfold movesOf
      rw [hn]
      rfl
    have hl : m.Lists (.text "*") (repeated "*" n.toNat) := ⟨rfl, _, hmoves, mem_singleton_self _⟩
    have hletter : (repeated "*" n.toNat).toList[k]? = some '*' := by
      rw [toList_repeated (show "*".toList = ['*'] by decide), getElem?_replicate, if_pos (by omega)]
    obtain rfl := hcell _ hl (mem_of_getElem? hletter)
    exact ⟨hstay rfl, _, _, hc, hl, fun other => hcoalition hk hletter⟩
  | @listed s t hs hsub _ _ hfirst =>
    have hl : m.Lists (.text s) "*" := (lists_text hs).2 (hsub "*" (mem_singleton_self _))
    obtain rfl := hcell _ hl (by decide)
    exact ⟨hstay rfl, _, _, hc, hl, fun other => hcoalition (k := 0) (hfirst rfl) rfl⟩

/-- What holds of all successors that are left, the coalition can force. -/
theorem Prunes.everyPred_subset_force (hrespects : ∀ i, Respects members (P i)) (hnodup : m.states.Nodup)
    (hrows : m.graph.length = m.states.length) (hnonzero : ∀ row ∈ g, ∃ c ∈ row, c.isZero = false)
    (hn : m.agentCount = .ok n) (hk : (k : Int) ∈ members) (hkn : (k : Int) < n) (X : Set String) :
    {q | q ∈ m.states} ∩ Checker.everyPred (Edge { m with graph := g }) X ⊆ (m.partGame members).force X := by
  rintro q ⟨hq, hX⟩
  obtain ⟨i, hi⟩ := mem_iff_getElem?.1 hq
  have hilt : i < g.length := by
    rw [hp.length, hrows]
    exact lt_of_getElem? hi
  obtain ⟨d, hdrow, hz⟩ := hnonzero g[i] (getElem_mem hilt)
  obtain ⟨j, hj⟩ := mem_iff_getElem?.1 hdrow
  have hd : cellAt? g i j = some d := (cellAt?_eq (getElem?_eq_getElem hilt) j).trans hj
  -- it is enough to find a joint action such that those with the same part are all left
  suffices h : ∃ x r, m.Leads q x r ∧ ∀ y r', m.Leads q y r' → y.ofCoalition members = x.ofCoalition members →
      Edge { m with graph := g } q r' by
    obtain ⟨x, r, hx, hall⟩ := h
    refine ⟨hq, x.ofCoalition members, ⟨r, x, hx, rfl⟩, ?_⟩
    rintro r' ⟨y, hy, hsame⟩
    exact hX r' (hall y r' hy hsame)
  have hrow : ∀ {y r'}, m.Leads q y r' →
      ∃ l c, m.states[l]? = some r' ∧ cellAt? m.graph i l = some c ∧ m.Lists c y := by
    rintro y r' ⟨i', l, c, hi', hl, hc, hlist⟩
    obtain rfl : i' = i := index_inj hnodup hi' hi
    exact ⟨l, c, hl, hc, hlist⟩
  by_cases hany : d.isAny = true
  · obtain ⟨hloop, c, move, hc, hl, hall⟩ := hp.stay hfits hstar hn hk hkn hi hd hany
    refine ⟨move, q, ⟨i, i, c, hi, hi, hc, hl⟩, fun y r' hy hsame => ?_⟩
    obtain ⟨l, c', hl', hc', hlist⟩ := hrow hy
    obtain rfl := hstar i l c' hc' (star_mem_of_lists hlist (hall y hsame))
    cases hi.symm.trans hl'
    exact hloop
  · obtain ⟨c, hc, hkept⟩ := hp.exists_original hd
    have hjlt : j < m.states.length := Nat.lt_of_lt_of_le (lt_of_getElem? hj)
      (hfits.cells g[i] (getElem_mem hilt))
    cases hkept with
    | zero => exact absurd hz (by decide)
    | any => exact absurd rfl hany
    | emptied => exact absurd hz (by decide)
    | @listed s t hs hsub _ hpass _ =>
      obtain ⟨x, hx⟩ := exists_mem_of_ne_nil _ (split_ne_nil "," t)
      have ht : t ≠ "*" := fun ht => hany (by rw [ht]; decide)
      refine ⟨x, m.states[j], ⟨i, j, _, hi, getElem?_eq_getElem hjlt, hc, (lists_text hs).2 (hsub x hx)⟩, ?_⟩
      intro y r' hy hsame
      obtain ⟨l, c', hl', hc', hlist⟩ := hrow hy
      exact hp.edge_of_pass hfits hstar hi hl' hc' hlist (hrespects i x y hsame.symm (hpass ht x hx))

end Rest

/-! ## Accepted profiles -/

theorem line_eq_accepted {b : Bool} :
    "Initial state " ++ q ++ ": " ++ Checker.Report.truth b = accepted ↔ q = "s0" ∧ b = true := by
  constructor
  · intro h
    have hlist := congrArg String.toList h
    simp only [accepted] at hlist
    cases b with
    | true =>
      have hcancel : "Initial state ".toList ++ q.toList ++ ": True".toList =
          "Initial state ".toList ++ "s0".toList ++ ": True".toList := by
        simpa [Checker.Report.truth] using hlist
      exact ⟨String.toList_injective (append_cancel_left (append_cancel_right hcancel)), rfl⟩
    | false =>
      have hlast := congrArg (fun cs : List Char => cs.reverse.take 2) hlist
      simp [Checker.Report.truth] at hlast
  · rintro ⟨rfl, rfl⟩
    decide

end Natural.Pruning

end Arena
