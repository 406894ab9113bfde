/-
Drawn grids, read back. The placements of the agents beside the obstacles are the states, each named and labelled once;
between two of them there is a transition just if each agent stays or goes to a neighbouring cell, and its letters say
which way. So no joint action leads from a state to two others.
-/
import Arena.Generator.Grid
import Arena.Proofs.Model.Priced
import Arena.Proofs.Natural.MemorylessSearch
import Arena.Proofs.Natural.TreeModel

namespace Arena.Generator.Grid

open List Text Model

variable {p : Plan} {obstacles s t : List Place} {c c' : Place} {l : Char}

/-! ## Placements -/

theorem mem_cells : c ∈ cells p ↔ (1 ≤ c.1 ∧ c.1 ≤ p.rows) ∧ 1 ≤ c.2 ∧ c.2 ≤ p.columns := by
  obtain ⟨r, k⟩ := c
  simp only [cells, mem_flatMap, mem_map, mem_range, Prod.mk.injEq]
  constructor
  · rintro ⟨i, hi, j, hj, rfl, rfl⟩
    omega
  · intro h
    exact ⟨(r - 1).toNat, by omega, (k - 1).toNat, by omega, by omega, by omega⟩

theorem nodup_cells (p : Plan) : (cells p).Nodup := by
  have hcells : cells p = (range p.rows.toNat ×ˢ range p.columns.toNat).map fun e => ((e.1 : Int) + 1, (e.2 : Int) + 1) := by
    simp [cells, SProd.sprod, product, map_flatMap, Function.comp_def]
  rw [hcells]
  refine (nodup_range.product nodup_range).map fun e f h => ?_
  simp only [Prod.mk.injEq] at h
  exact Prod.ext (by omega) (by omega)

theorem nodup_placements {cs : List Place} (h : cs.Nodup) : ∀ n, (placements cs n).Nodup
  | 0 => nodup_singleton []
  | n + 1 => by
    have hnext : placements cs (n + 1) = (placements cs n ×ˢ cs).map fun e => e.2 :: e.1 := by
      simp [placements, SProd.sprod, product, map_flatMap, Function.comp_def]
    rw [hnext]
    exact ((nodup_placements h n).product h).map fun e f he => Prod.ext (cons.inj he).2 (cons.inj he).1

theorem mem_placements {cs : List Place} : ∀ {n : Nat} {s : List Place},
    s ∈ placements cs n ↔ s.length = n ∧ ∀ c ∈ s, c ∈ cs
  | 0, s => by
    cases s <;> simp [placements]
  | n + 1, s => by
    cases s <;> simp [placements, mem_placements, and_left_comm]

/-! ## Moves -/

/-- A letter names the way from a cell to itself or a neighbour. -/
def Leads (l : Char) (a b : Place) : Prop :=
  (l, b.1 - a.1, b.2 - a.2) ∈ [('i', (0 : Int), (0 : Int)), ('N', 1, 0), ('S', -1, 0), ('E', 0, 1), ('W', 0, -1)]

/-- Letters name the ways of all agents. -/
def Steps (ls : List Char) (s t : List Place) : Prop := Forall₂ (fun l e => Leads l e.1 e.2) ls (s.zip t)

theorem step?_eq_some {w : String} : step? c c' = some w ↔ ∃ l, w = String.singleton l ∧ Leads l c c' := by
  have hdiff : c'.1 - c.1 = -(c.1 - c'.1) ∧ c'.2 - c.2 = -(c.2 - c'.2) := by omega
  unfold step? Leads
  rw [hdiff.1, hdiff.2]
  generalize c.1 - c'.1 = x
  generalize c.2 - c'.2 = y
  split
  case h_6 => grind
  all_goals simp; grind

theorem Steps.letter {ls : List Char} (h : Steps ls s t) (hl : l ∈ ls) : l ∈ ['i', 'N', 'S', 'E', 'W'] := by
  obtain ⟨e, -, he⟩ := exists_of_mem_forall₂ h.flip hl
  exact mem_map_of_mem (f := Prod.fst) he

theorem mapM_step?_eq_some : ∀ {es : List (Place × Place)} {ws : List String}, (es.mapM fun e => step? e.1 e.2) = some ws ↔
    ∃ ls : List Char, ws = ls.map String.singleton ∧ Forall₂ (fun l e => Leads l e.1 e.2) ls es
  | [], ws => by simp [eq_comm]
  | e :: es, ws => by
    simp only [mapM_cons, Option.bind_eq_bind, Option.bind_eq_some_iff, step?_eq_some, mapM_step?_eq_some,
      forall₂_cons_right_iff]
    constructor
    · rintro ⟨_, ⟨l, rfl, hl⟩, _, ⟨ls, rfl, hls⟩, h⟩
      cases h
      exact ⟨l :: ls, rfl, l, ls, hl, hls, rfl⟩
    · rintro ⟨_, rfl, l, ls, hl, hls, rfl⟩
      exact ⟨_, ⟨l, rfl, hl⟩, _, ⟨ls, rfl, hls⟩, rfl⟩

/-- Either all agents can move, and the letters of their moves are written, or not all of them can. -/
theorem moveBetween_eq (s t : List Place) :
    (∃ ls, Steps ls s t ∧ moveBetween s t = String.ofList ls) ∨ (∀ ls, ¬ Steps ls s t) ∧ moveBetween s t = "0" := by
  unfold moveBetween
  cases hmap : (s.zip t).mapM fun e => step? e.1 e.2 with
  | none =>
    refine .inr ⟨fun ls h => ?_, rfl⟩
    cases hmap.symm.trans (mapM_step?_eq_some.2 ⟨ls, rfl, h⟩)
  | some ws =>
    obtain ⟨ls, rfl, hls⟩ := mapM_step?_eq_some.1 hmap
    exact .inl ⟨ls, hls, String.toList_injective (by simp [String.toList_join, flatMap_map])⟩

theorem Steps.target : ∀ {ls : List Char} {s t t' : List Place}, s.length = t.length → s.length = t'.length →
    Steps ls s t → Steps ls s t' → t = t'
  | _, [], [], [], _, _, _, _ => rfl
  | _, a :: s, b :: t, b' :: t', ht, ht', .cons h hs, .cons h' hs' => by
    have hb : b = b' := by
      unfold Leads at h h'
      apply Prod.ext <;> grind
    rw [hb, Steps.target (Nat.succ.inj ht) (Nat.succ.inj ht') hs hs']

/-! ## Obstacles -/

theorem of_between {low high r : Int} {d d' : Draws} (h : (Draws.between low high).run.run d = (.ok r, d')) :
    low ≤ r ∧ r ≤ high := by
  obtain ⟨i, d₁, hi, hr⟩ := run_bind_eq_ok h
  cases hr
  rcases Nat.eq_zero_or_pos (high - low + 1).toNat with hn | hn
  · rw [hn] at hi
    cases hi
  · obtain ⟨j, d₂, hj, hlt⟩ := Drawing.gives_below hn d
    cases hi.symm.trans hj
    omega

/-- Obstacles stand on different cells behind the first row. -/
def Placed (p : Plan) (obstacles : List Place) : Prop := obstacles.Nodup ∧ ∀ o ∈ obstacles, 2 ≤ o.1 ∧ o ∈ cells p

theorem placed_drawFrom : ∀ {n : Nat} {found : List Place} {d d' : Draws}, Placed p found →
    (drawFrom p n found).run.run d = (.ok obstacles, d') → Placed p obstacles ∧ obstacles.length = p.obstacles
  | n + 1, found, d, d', hfound, h => by
    rw [drawFrom] at h
    split at h
    · cases h
      exact ⟨hfound, ‹_›⟩
    · obtain ⟨r, d₁, hr, h⟩ := run_bind_eq_ok h
      obtain ⟨k, d₂, hk, h⟩ := run_bind_eq_ok h
      refine placed_drawFrom ?_ h
      have hr := of_between hr
      have hk := of_between hk
      split
      · exact hfound
      · rename_i hnew
        refine ⟨nodup_append_comm.2 (nodup_cons.2 ⟨by simpa using hnew, hfound.1⟩), forall_mem_append.2 ⟨hfound.2, ?_⟩⟩
        exact forall_mem_singleton.2 ⟨hr.1, mem_cells.2 (by omega)⟩

/-! ## Names -/

theorem exists_nat (hc : c ∈ cells p) : ∃ i j : Nat, c = (↑i, ↑j) := by
  have := mem_cells.1 hc
  exact ⟨c.1.toNat, c.2.toNat, Prod.ext (by omega) (by omega)⟩

def agentName (k : Nat) : String := "a" ++ toString (k + 1)

/-- What a proposition can be about: the obstacles or one of nine agents. -/
def subjects : List String := "o" :: (range 9).map agentName

/-- The characters of moves, numerals and names of propositions. -/
def inks : List Char := ['i', 'N', 'S', 'E', 'W', 'a', 'o', '_'] ++ decimals

theorem nameable_propName {who : String} (hwho : who ∈ subjects) (hc : c ∈ cells p) : Nameable (propName who c) := by
  obtain ⟨i, j, rfl⟩ := exists_nat hc
  have hover : ∀ who ∈ subjects, Over inks who := by decide
  have hdigits : ∀ n : Nat, Over inks (toString n) := fun n => (over_toString n).mono (by decide)
  exact (nameable_iff _).2 (isWord_of_chars inks (by decide) (by simp [propName, String.append_eq_empty_iff])
    ((((hover who hwho).append (hdigits i)).append (by decide)).append (hdigits j)))

/-- The name of a proposition tells what it is about and where. -/
def Telling (p : Plan) : Prop := ∀ who ∈ subjects, ∀ who' ∈ subjects, ∀ c ∈ cells p, ∀ c' ∈ cells p,
  propName who c = propName who' c' → who = who' ∧ c = c'

theorem telling (p : Plan) : Telling p := by
  intro who hwho who' hwho' c hc c' hc' h
  obtain ⟨i, j, rfl⟩ := exists_nat hc
  obtain ⟨i', j', rfl⟩ := exists_nat hc'
  have hsubject : ∀ who ∈ subjects, '_' ∉ who.toList ∧ ∀ who' ∈ subjects, who.toList <+: who'.toList → who = who' := by
    decide
  have hlist : ∀ (who : String) (i j : Nat), (propName who (↑i, ↑j)).toList =
      (who.toList ++ (toString i).toList) ++ '_' :: (toString j).toList := by
    intro who i j
    simp only [propName, String.toList_append, append_assoc]
    rfl
  have hdigits : ∀ n : Nat, '_' ∉ (toString n).toList := fun n => (over_toString n).not_mem (by decide)
  have hparts := congrArg String.toList h
  have hmark : '_' ∉ who.toList ++ (toString i).toList := not_mem_append (hsubject who hwho).1 (hdigits i)
  rw [hlist, hlist, append_cons_inj_of_notMem hmark (hdigits j)] at hparts
  obtain ⟨hfront, -, hback⟩ := hparts
  -- no subject begins another one
  obtain rfl : who = who' := ( prefix_or_prefix_of_prefix ⟨_, hfront⟩ ⟨_, rfl⟩).elim ((hsubject who hwho).2 who' hwho')
    fun h => ((hsubject who' hwho').2 who hwho h).symm
  rw [toString_inj (String.toList_injective (append_cancel_left hfront)), toString_inj (String.toList_injective hback)]
  exact ⟨rfl, rfl⟩

theorem mem_agentProps {q : String} : q ∈ agentProps s ↔ ∃ k c, s[k]? = some c ∧ q = propName (agentName k) c := by
  unfold agentProps agentName
  rw [zip_range, mem_map, Prod.exists, exists_comm]
  simp only [mem_zipIdx_iff_getElem?, eq_comm]

/-! ## Texts -/

/-- The placements of the agents beside the obstacles, each once. -/
structure Lists (p : Plan) (obstacles : List Place) (ss : List (List Place)) : Prop where
  nodup : ss.Nodup
  mem : ∀ s, s ∈ ss ↔ s.length = p.agents.toNat ∧ ∀ c ∈ s, c ∈ cells p ∧ c ∉ obstacles

/-- A proposition says of a placement where an agent or an obstacle stands. -/
def Tells (obstacles s : List Place) (q : String) : Prop :=
  (∃ k c, s[k]? = some c ∧ q = propName (agentName k) c) ∨ ∃ o ∈ obstacles, q = propName "o" o

/-- A model in which agents walk over a grid: its states are placements, and its letters lead from one to another. -/
structure IsWalk (p : Plan) (obstacles : List Place) (ss : List (List Place)) (m : Model) : Prop where
  agents : m.agents = .number p.agents
  states : m.states = (range ss.length).map fun i : Nat => defaultName i
  initial : m.initial ∈ m.states
  labels : ∀ (i : Nat) s q, ss[i]? = some s → (m.Labelled q (defaultName i) ↔ Tells obstacles s q)
  moves : ∀ (i j : Nat) s t, ss[i]? = some s → ss[j]? = some t →
    (∃ ls, Steps ls s t ∧ cellAt? m.graph i j = some (.text (String.ofList ls))) ∨
      (∀ ls, ¬ Steps ls s t) ∧ cellAt? m.graph i j = some .zero
  deterministic : ∀ i j k c, cellAt? m.graph i j = some c → cellAt? m.graph i k = some c → c ≠ .zero → j = k

section Drawn

variable {ss : List (List Place)} {order : List (String × List String)} {i initial : Nat} {q : String}

def labelsOf (obstacles s : List Place) : List String := agentProps s ++ obstacles.map (propName "o")

/-- The propositions of the grid, each with its labels. -/
def columnsOf (obstacles : List Place) (ss : List (List Place)) : List (String × List String) :=
  (sorted (distinct (obstacles.map (propName "o") ++ (ss.map (labelsOf obstacles)).flatten))).map fun q =>
    (q, (ss.map (labelsOf obstacles)).map fun l => if l.contains q then "1" else "0")

/-- The rows of words that a grid is written in. -/
def blocksOf (p : Plan) (ss : List (List Place)) (order : List (String × List String)) (initial : Nat) :
    List (Section × List (List String)) :=
  [(.transition, ss.map fun s => ss.map (moveBetween s)), (.stateNames, [(range ss.length).map fun i : Nat => defaultName i]),
    (.initialState, [[defaultName initial]]), (.propositions, [order.map (·.1)]),
    (.labelling, (range ss.length).map fun i => order.map (·.2.getD i "")), (.agentCount, [[toString p.agents]])]

/-- These rows as a text, with a blank behind each row of the matrix. -/
def textOf (p : Plan) (ss : List (List Place)) (order : List (String × List String)) (initial : Nat) : String :=
  String.join ((blockLines ((blocksOf p ss order initial).map fun b =>
    (b.1, b.2.map (join " " · ++ if b.1 = .transition then " " else "")))).map (· ++ "\n"))

/-- The model that is read from a grid. -/
def modelOfGrid (p : Plan) (ss : List (List Place)) (order : List (String × List String)) (initial : Nat) : Model where
  graph := ss.map fun s => ss.map fun t => Cell.ofWord (moveBetween s t)
  states := (range ss.length).map fun i : Nat => defaultName i
  props := order.map (·.1)
  labels := (range ss.length).map fun i => order.map fun col => labelCell (col.2.getD i "")
  initial := defaultName initial
  agents := .number p.agents

theorem mem_labelsOf : q ∈ labelsOf obstacles s ↔ Tells obstacles s q := by
  simp only [labelsOf, Tells, mem_append, mem_agentProps, mem_map, eq_comm]

/-- A drawing that ends has drawn its obstacles, and its text is made of rows of words. -/
theorem of_draw {w : World} {d d' : Draws} (h : (draw p).run.run d = (.ok w, d')) :
    ∃ obstacles d₁ ss, ∃ initial < ss.length, (drawObstacles p).run.run d = (.ok obstacles, d₁) ∧ Lists p obstacles ss ∧
      w.columns = columnsOf obstacles ss ∧
        ∀ order, w.text ss.length order = textOf p ss order initial := by
  obtain ⟨obstacles, d₁, hobstacles, h⟩ := run_bind_eq_ok h
  obtain ⟨ss, d₂, hstates, h⟩ := run_bind_eq_ok h
  obtain ⟨i, d₃, hi, h⟩ := run_bind_eq_ok h
  have hrange := of_between hi
  obtain ⟨initial, rfl⟩ := Int.eq_ofNat_of_zero_le hrange.1
  have hss : ss = (placements (cells p) p.agents.toNat).filter fun s => s.all (!obstacles.contains ·) := by
    have hstates : states p obstacles = .ok ss := congrArg Prod.fst hstates
    unfold states at hstates
    simp only [Bool.and_eq_true] at hstates
    split_ifs at hstates <;> cases hstates
    rfl
  have hlists : Lists p obstacles ss := by
    refine ⟨hss ▸ (nodup_placements (nodup_cells p) _).filter _, fun s => ?_⟩
    simp [hss, mem_placements, and_assoc, forall_and]
  cases h
  refine ⟨obstacles, d₁, ss, initial, by omega, hobstacles, hlists, rfl, fun order => ?_⟩
  rw [World.text, join_append "\n" (by simp), join_append "\n" (by simp)]
  simp [textOf, blocksOf, blockLines, title, String.join_append, join, String.append_assoc, Function.comp_def, defaultName]
  rfl

section Read

variable (ha : 1 ≤ p.agents ∧ p.agents ≤ 9) (hp : Placed p obstacles) (hss : Lists p obstacles ss)
  (horder : order.Perm (columnsOf obstacles ss))

include horder in
theorem label_of_mem {col : String × List String} (hi : ss[i]? = some s) (hcol : col ∈ order) :
    col.2.getD i "" = if col.1 ∈ labelsOf obstacles s then "1" else "0" := by
  obtain ⟨q, -, rfl⟩ := mem_map.1 (horder.mem_iff.1 hcol)
  simp [hi]

include horder in
theorem mem_props : q ∈ order.map (·.1) ↔ (∃ s ∈ ss, q ∈ agentProps s) ∨ ∃ o ∈ obstacles, q = propName "o" o := by
  rw [(horder.map _).mem_iff]
  simp [columnsOf, labelsOf, Function.comp_def, mem_sorted, mem_distinct, @eq_comm _ q]
  grind

include ha hp hss horder in
theorem load_textOf : load .plain (textOf p ss order initial) = .ok (modelOfGrid p ss order initial) := by
  have hmove : ∀ s ∈ ss, ∀ t ∈ ss, Nameable (moveBetween s t) := by
    intro s hs t ht
    rcases moveBetween_eq s t with ⟨ls, hls, heq⟩ | ⟨-, heq⟩
    · rw [heq]
      refine (nameable_iff _).2 (isWord_of_chars inks (by decide) (fun hempty => ?_) fun c hc => ?_)
      · have hlen := hls.length_eq
        rw [length_zip, ((hss.mem s).1 hs).1, ((hss.mem t).1 ht).1, String.ofList_eq_empty_iff.1 hempty, length_nil] at hlen
        omega
      · rw [String.toList_ofList] at hc
        exact mem_append_left _ (mem_append_left ['a', 'o', '_'] (hls.letter hc))
    · rw [heq]
      decide
  have hprop : ∀ q ∈ order.map (·.1), Nameable q := by
    intro q hq
    rcases (mem_props horder).1 hq with ⟨s, hs, hq⟩ | ⟨o, ho, rfl⟩
    · obtain ⟨k, c, hk, rfl⟩ := mem_agentProps.1 hq
      obtain ⟨hlen, hcells⟩ := (hss.mem s).1 hs
      have hlt := lt_of_getElem? hk
      exact nameable_propName (mem_cons_of_mem _ (mem_map_of_mem (mem_range.2 (by omega)))) (hcells c (mem_of_getElem? hk)).1
    · exact nameable_propName mem_cons_self (hp.2 o ho).2
  have hlabel : ∀ i < ss.length, ∀ col ∈ order, Nameable (col.2.getD i "") := by
    intro i hi col hcol
    rw [label_of_mem horder (getElem?_eq_getElem hi) hcol]
    split <;> decide
  obtain ⟨n, hn⟩ := Int.eq_ofNat_of_zero_le (by omega : 0 ≤ p.agents)
  have hcount : readInt? p.agents.repr = some p.agents := by
    rw [hn]
    exact readInt?_toString (lt_pow_maxDigits (by omega))
  have hwords : ∀ b ∈ blocksOf p ss order initial, ∀ row ∈ b.2, ∀ w ∈ row, Nameable w := by
    simp only [blocksOf, forall_mem_cons, forall_mem_map, mem_range, not_mem_nil, false_implies, implies_true, and_true]
    refine ⟨hmove, fun i _ => nameable_defaultName i, nameable_defaultName initial, forall_mem_map.1 hprop, hlabel, ?_⟩
    rw [hn]
    exact (nameable_iff _).2 (isWord_numeral n)
  rw [textOf, load_words (fun s row => join " " row ++ if s = .transition then " " else "") rfl ?_
    (by simp [blocksOf, plainSections]) (fun b hb row hrow w hw => ⟨(hwords b hb row hrow w hw).word, (hwords b hb row hrow w hw).noHeader⟩) ?_]
  · simp [modelOfWords, blocksOf, modelOfGrid, hcount, join]
    exact ⟨fun i _ => (nameable_defaultName i).kept, fun q l h => (hprop q (mem_map_of_mem h)).kept⟩
  · intro s row
    split <;> simp
  · simp [blocksOf, Readable, join, hcount]

include horder in
theorem labelled_modelOfGrid (hi : ss[i]? = some s) :
    (modelOfGrid p ss order initial).Labelled q (defaultName i) ↔ q ∈ labelsOf obstacles s := by
  have hlt := lt_of_getElem? hi
  have hcell : ∀ k, (order.map (·.1)).idxOf? q = some k → cellAt? (modelOfGrid p ss order initial).labels i k =
      some (if q ∈ labelsOf obstacles s then .num 1 else .num 0) := by
    intro k hk
    obtain ⟨hk, hq, -⟩ := idxOf?_eq_some_iff.1 hk
    rw [length_map] at hk
    rw [getElem_map] at hq
    have hlabel := label_of_mem horder hi (getElem_mem hk)
    rw [hq] at hlabel
    simp only [cellAt?, modelOfGrid, getElem?_map, getElem?_range hlt, Option.map_some, Option.bind_some,
      getElem?_eq_getElem hk, hlabel]
    split <;> rfl
  have hname : (modelOfGrid p ss order initial).states[i]? = some (defaultName i) := by
    simp [modelOfGrid, getElem?_range hlt]
  rw [labelled_iff (nodup_range.map fun _ _ => Checker.defaultName_inj) hname]
  constructor
  · rintro ⟨k, hk, hlabel⟩
    rw [hcell k hk] at hlabel
    by_contra hq
    simp [hq] at hlabel
  · intro hq
    have hmem : q ∈ order.map (·.1) := (mem_props horder).2 ((mem_append.1 hq).imp (⟨s, mem_of_getElem? hi, ·⟩) (by simp [eq_comm]))
    obtain ⟨k, hk⟩ := Option.isSome_iff_exists.1 (isSome_idxOf?.2 hmem)
    exact ⟨k, hk, by rw [hcell k hk, if_pos hq]⟩

include hss horder in
theorem isWalk_modelOfGrid (hinitial : initial < ss.length) : IsWalk p obstacles ss (modelOfGrid p ss order initial) := by
  have hmoves : ∀ s t, (∃ ls, Steps ls s t ∧ Cell.ofWord (moveBetween s t) = .text (String.ofList ls)) ∨
      (∀ ls, ¬ Steps ls s t) ∧ Cell.ofWord (moveBetween s t) = .zero := by
    refine fun s t => (moveBetween_eq s t).imp (fun ⟨ls, hls, heq⟩ => ⟨ls, hls, ?_⟩) fun ⟨hstuck, heq⟩ => ⟨hstuck, heq ▸ rfl⟩
    rw [heq, Cell.ofWord, if_neg]
    intro hzero
    have hmem : '0' ∈ ls := by
      rw [← String.toList_ofList (l := ls), hzero]
      decide
    exact absurd (hls.letter hmem) (by decide)
  have hcell : ∀ i j, cellAt? (modelOfGrid p ss order initial).graph i j =
      ss[i]?.bind fun s => ss[j]?.map fun t => Cell.ofWord (moveBetween s t) := by
    intro i j
    simp only [cellAt?, modelOfGrid, getElem?_map]
    cases ss[i]? <;> simp
  refine ⟨rfl, rfl, mem_map_of_mem (mem_range.2 hinitial), fun i s q hi => (labelled_modelOfGrid horder hi).trans mem_labelsOf,
    fun i j s t hi hj => ?_, fun i j k c hj hk hc => ?_⟩
  · rw [hcell, hi, hj]
    simpa using hmoves s t
  · rw [hcell] at hj hk
    obtain ⟨s, hs, hj⟩ := Option.bind_eq_some_iff.1 hj
    rw [hs, Option.bind_some] at hk
    obtain ⟨t, ht, rfl⟩ := Option.map_eq_some_iff.1 hj
    obtain ⟨u, hu, heq⟩ := Option.map_eq_some_iff.1 hk
    have hlen : ∀ {i : Nat} {r}, ss[i]? = some r → r.length = p.agents.toNat := fun h => ((hss.mem _).1 (mem_of_getElem? h)).1
    obtain ⟨ls, hls, htext⟩ := (hmoves s t).resolve_right fun h => hc h.2
    obtain ⟨ls', hls', htext'⟩ := (hmoves s u).resolve_right fun h => hc (heq ▸ h.2)
    rw [htext, htext'] at heq
    cases String.ofList_injective (Cell.text.inj heq)
    have htu : t = u := hls.target ((hlen hs).trans (hlen ht).symm) ((hlen hs).trans (hlen hu).symm) hls'
    exact index_inj hss.nodup ht (htu ▸ hu)

end Read

/-- The text of a drawn grid is read as the game of the agents on the grid. Up to nine agents, the name of a proposition
tells who stands where. -/
theorem load_drawn (ha : 1 ≤ p.agents ∧ p.agents ≤ 9) {w : World} {d d' : Draws} (h : (draw p).run.run d = (.ok w, d')) :
    Telling p ∧ ∃ obstacles d₁ ss, (drawObstacles p).run.run d = (.ok obstacles, d₁) ∧ Placed p obstacles ∧
      obstacles.length = p.obstacles ∧ Lists p obstacles ss ∧ ∀ order, order.Perm w.columns →
        ∃ m, load .plain (w.text ss.length order) = .ok m ∧ IsWalk p obstacles ss m := by
  obtain ⟨obstacles, d₁, ss, initial, hinitial, hobstacles, hss, hcolumns, htext⟩ := of_draw h
  have hp : Placed p obstacles ∧ obstacles.length = p.obstacles := by
    have hdrawn := hobstacles
    unfold drawObstacles at hdrawn
    rw [run_bind_ok (show (get : Drawing Draws).run.run d = (.ok d, d) from rfl)] at hdrawn
    exact placed_drawFrom ⟨nodup_nil, by simp⟩ hdrawn
  refine ⟨telling p, obstacles, d₁, ss, hobstacles, hp.1, hp.2, hss, fun order horder => ?_⟩
  rw [hcolumns] at horder
  exact ⟨_, htext order ▸ load_textOf ha hp.1 hss horder, isWalk_modelOfGrid hss horder hinitial⟩

/-- Two agents on four cells with an obstacle. -/
theorem load_drawn_pair : ∃ w d' obstacles ss m, (draw { obstacles := 1 }).run.run {} = (.ok w, d') ∧
    Lists { obstacles := 1 } obstacles ss ∧ load .plain (w.text ss.length w.columns) = .ok m ∧
      IsWalk { obstacles := 1 } obstacles ss m := by
  obtain ⟨w, d', hw⟩ : ∃ w d', (draw { obstacles := 1 }).run.run {} = (.ok w, d') := ⟨_, _, rfl⟩
  obtain ⟨-, obstacles, _, ss, -, -, -, hss, hm⟩ := load_drawn (by decide) hw
  obtain ⟨m, hload, hwalk⟩ := hm _ (.refl _)
  exact ⟨w, d', obstacles, ss, m, hw, hss, hload, hwalk⟩

end Drawn

end Arena.Generator.Grid
