/-
The model that a tree comes to. Its states are the nodes and its transitions lead from a node to its children, so a
formula over all paths is checked as it stands in the tree: on the next step at the children of the root, on every step
at all nodes, and on some step of each infinite path nowhere.
-/
import Arena.Proofs.Checker.Propositional
import Arena.Proofs.Natural.Pruning
import Arena.Proofs.Natural.Unfolding

namespace Arena.Checker

open Branching List Model

variable {π : ℕ → Unfolding} {k : Formula.TokenKind} {row : List Cell} {p q : String} {move : Move} {o : String}

/-! ## Maps along which steps go forth and back -/

/-- From a set that no step leaves, a map takes each step to a step, and each step from an image is taken from one. -/
structure Unravels {α β : Type} (R : α → α → Prop) (S : β → β → Prop) (f : α → β) (D : Set α) : Prop where
  closed : ∀ x ∈ D, ∀ y, R x y → y ∈ D
  forth : ∀ x ∈ D, ∀ y, R x y → S (f x) (f y)
  back : ∀ x ∈ D, ∀ s, S (f x) s → ∃ y, R x y ∧ f y = s

namespace Unravels

variable {α β : Type} {R : α → α → Prop} {S : β → β → Prop} {f : α → β} {D : Set α} (h : Unravels R S f D) {x : α}
  {ρ : ℕ → α}

include h

theorem map_run {n : ℕ} (hx : x ∈ D) (hρ : IsRun R n x ρ) : IsRun S n (f x) (f ∘ ρ) := by
  refine ⟨congrArg f hρ.1, fun i hi => ?_⟩
  exact h.forth _ (hρ.mem h.closed hx i hi.le) _ (hρ.2 i hi)

theorem map_path (hx : x ∈ D) (hρ : IsPath R x ρ) : IsPath S (f x) (f ∘ ρ) :=
  ⟨congrArg f hρ.1, fun i => h.forth _ (hρ.mem h.closed hx i) _ (hρ.2 i)⟩

theorem exists_run : ∀ {n : ℕ} {x : α} {π : ℕ → β}, x ∈ D → IsRun S n (f x) π →
    ∃ ρ, IsRun R n x ρ ∧ ∀ i ≤ n, f (ρ i) = π i
  | 0, x, π, _, hπ => by
    refine ⟨fun _ => x, ⟨rfl, by simp⟩, fun i hi => ?_⟩
    rw [Nat.le_zero.1 hi, hπ.1]
  | n + 1, x, π, hx, hπ => by
    obtain ⟨hstep, htail⟩ := hπ.tail
    obtain ⟨y, hxy, hy⟩ := h.back x hx _ hstep
    rw [← hy] at htail
    obtain ⟨ρ, hρ, hmap⟩ := exists_run (h.closed x hx y hxy) htail
    refine ⟨cons x ρ, hρ.cons hxy, fun i hi => ?_⟩
    cases i with
    | zero => exact hπ.1.symm
    | succ i => exact hmap i (by omega)

theorem exists_path {π : ℕ → β} (hx : x ∈ D) (hπ : IsPath S (f x) π) : ∃ ρ, IsPath R x ρ ∧ ∀ i, f (ρ i) = π i := by
  -- a state is chosen together with its place
  let step (a b : α × ℕ) : Prop := R a.1 b.1 ∧ b.2 = a.2 + 1
  have hnext : ∀ a ∈ {a : α × ℕ | a.1 ∈ D ∧ f a.1 = π a.2}, ∃ b ∈ {a : α × ℕ | a.1 ∈ D ∧ f a.1 = π a.2}, step a b := by
    rintro ⟨y, i⟩ ⟨hy, hyi⟩
    obtain ⟨z, hyz, hz⟩ := h.back y hy (π (i + 1)) (hyi ▸ hπ.2 i)
    exact ⟨(z, i + 1), ⟨h.closed y hy z hyz, hz⟩, hyz, rfl⟩
  obtain ⟨ρ, hρ, hin⟩ := exists_isPath hnext (q := (x, 0)) ⟨hx, hπ.1.symm⟩
  have hplace : ∀ i, (ρ i).2 = i := by
    intro i
    induction i with
    | zero => rw [hρ.1]
    | succ i ih => rw [(hρ.2 i).2, ih]
  refine ⟨fun i => (ρ i).1, ⟨congrArg Prod.fst hρ.1, fun i => (hρ.2 i).1⟩, fun i => ?_⟩
  have hmap := (hin i).2
  rwa [hplace i] at hmap

theorem holds_iff {P : β → Prop} {Q : α → Prop} (hPQ : ∀ x ∈ D, P (f x) ↔ Q x) (hx : x ∈ D) {op : Unary}
    (hop : op ∈ [Unary.everyNext, .everyEventually, .everyGlobally]) : op.Holds S P (f x) ↔ op.Holds R Q x := by
  simp only [mem_cons, not_mem_nil, or_false] at hop
  rcases hop with rfl | rfl | rfl
  · constructor
    · intro hall y hxy
      exact (hPQ y (h.closed x hx y hxy)).1 (hall _ (h.forth x hx y hxy))
    · intro hall s hs
      obtain ⟨y, hxy, rfl⟩ := h.back x hx s hs
      exact (hPQ y (h.closed x hx y hxy)).2 (hall y hxy)
  · constructor
    · intro hall ρ hρ
      obtain ⟨i, hi⟩ := hall _ (h.map_path hx hρ)
      exact ⟨i, (hPQ _ (hρ.mem h.closed hx i)).1 hi⟩
    · intro hall π hπ
      obtain ⟨ρ, hρ, hmap⟩ := h.exists_path hx hπ
      obtain ⟨i, hi⟩ := hall ρ hρ
      exact ⟨i, hmap i ▸ (hPQ _ (hρ.mem h.closed hx i)).2 hi⟩
  · constructor
    · intro hall n ρ hρ
      exact (hPQ _ (hρ.mem h.closed hx n le_rfl)).1 (hall n _ (h.map_run hx hρ))
    · intro hall n π hπ
      obtain ⟨ρ, hρ, hmap⟩ := h.exists_run hx hπ
      exact hmap n le_rfl ▸ (hPQ _ (hρ.mem h.closed hx n le_rfl)).2 (hall n ρ hρ)

end Unravels

/-! ## Boolean formulas on label rows -/

def atomsOf : Formula → List String
  | .atom p => [p]
  | .hole => []
  | .unary _ f => atomsOf f
  | .binary _ f g => atomsOf f ++ atomsOf g
  | .starred f => atomsOf f

/-- Whether a formula without operators of time is true, given the label row of a state. -/
def trueIn (props : List String) (row : List Cell) : Formula → Bool
  | .atom p => (props.idxOf? p).any fun k => row[k]? == some (.num 1)
  | .unary _ f => !trueIn props row f
  | .binary l f g =>
    match Binary.of? l with
    | some .or => trueIn props row f || trueIn props row g
    | some .and => trueIn props row f && trueIn props row g
    | _ => !trueIn props row f || trueIn props row g
  | .hole => false
  | .starred _ => false

section Rows

variable {m : Model}

theorem mem_meaning_atom (hn : m.states.Nodup) {i : Nat} (hq : m.states[i]? = some q) (hrow : m.labels[i]? = some row) :
    q ∈ (Sentence.atom p).meaning m ↔ trueIn m.props row (.atom p) = true := by
  simp only [trueIn, Option.any_eq_true, beq_iff_eq, ← cellAt?_eq hrow]
  exact labelled_iff hn hq

/-- A Boolean formula over the propositions of a model is a sentence, which holds at a state exactly if the formula is
true in its label row. -/
theorem Boolean.exists_sentence (hn : m.states.Nodup) {f : Formula} (hb : Boolean f)
    (hknown : ∀ p ∈ atomsOf f, p ∈ m.props) : ∃ s : Sentence, s.Spelled m Unary.labels Binary.labels f ∧
      s.WithoutEveryUntil ∧ ∀ (i : Nat) q row, m.states[i]? = some q → m.labels[i]? = some row →
        (q ∈ s.meaning m ↔ trueIn m.props row f = true) := by
  induction hb with
  | atom p =>
    have hp : p ∈ m.props := hknown p (mem_singleton_self p)
    exact ⟨.atom p, .atom hp, trivial, fun i q row hq hrow => mem_meaning_atom hn hq hrow⟩
  | @not f _ ih =>
    obtain ⟨s, hs, hu, hmem⟩ := ih hknown
    refine ⟨.unary .not s, .unary (by decide) hs, hu, fun i q row hq hrow => ?_⟩
    have hstate : q ∈ m.states := mem_of_getElem? hq
    simp [Sentence.meaning, Unary.Holds, trueIn, hstate, hmem i q row hq hrow]
  | @binary op l f g hop hl _ _ ihf ihg =>
    obtain ⟨s, hs, hus, hmems⟩ := ihf fun p hp => hknown p (mem_append_left _ hp)
    obtain ⟨t, ht, hut, hmemt⟩ := ihg fun p hp => hknown p (mem_append_right _ hp)
    have hne : op ≠ .everyUntil := by
      rintro rfl
      exact absurd hop (by decide)
    refine ⟨.binary op s t, .binary hl hs ht, ⟨hne, hus, hut⟩, fun i q row hq hrow => ?_⟩
    have hstate : q ∈ m.states := mem_of_getElem? hq
    refine (and_iff_right hstate).trans ?_
    simp only [trueIn, Binary.of?_label l hl]
    simp only [connectives, mem_cons, not_mem_nil, or_false] at hop
    rcases hop with rfl | rfl | rfl
    · simp [Binary.Holds, hmems i q row hq hrow, hmemt i q row hq hrow]
    · simp [Binary.Holds, hmems i q row hq hrow, hmemt i q row hq hrow]
    · simp [Binary.Holds, hmems i q row hq hrow, hmemt i q row hq hrow, imp_iff_not_or]

theorem Boolean.exists_ground (hl : m.LabelsFit) {f : Formula} (hb : Boolean f) :
    ∃ t?, Tree.ground (atomText m) f = .ok t? ∧ (t?.isSome = true ↔ ∀ p ∈ atomsOf f, p ∈ m.props) := by
  induction hb with
  | atom p =>
    by_cases hp : p ∈ m.props
    · obtain ⟨T, hT, -⟩ := atomText_spec hl hp
      exact ⟨some (.leaf T.print), by simp only [Tree.ground, hT]; rfl, by simpa [atomsOf] using hp⟩
    · have hnone : m.statesOf p = .ok none := by
        unfold statesOf positionsOf propIndex?
        rw [idxOf?_eq_none_iff.2 hp]
        rfl
      exact ⟨none, by simp only [Tree.ground, atomText, hnone]; rfl, by simpa [atomsOf] using hp⟩
  | @not f _ ih =>
    obtain ⟨t?, ht, hiff⟩ := ih
    refine ⟨t?.map (.unary "!"), ?_, by simpa [atomsOf] using hiff⟩
    simp only [Tree.ground, ht]
    cases t? <;> rfl
  | @binary op l f g _ _ _ _ ihf ihg =>
    obtain ⟨t?, ht, hifft⟩ := ihf
    obtain ⟨u?, hu, hiffu⟩ := ihg
    refine ⟨t?.bind fun t => u?.map (.binary l t), ?_, ?_⟩
    · simp only [Tree.ground, ht, hu]
      cases t? <;> cases u? <;> rfl
    · simp only [atomsOf, forall_mem_append, ← hifft, ← hiffu]
      cases t? <;> cases u? <;> simp

end Rows

end Arena.Checker

/-! ## Default names in texts -/

namespace Arena.Model

theorem nameable_defaultName (i : Nat) : Nameable (defaultName i) :=
  (nameable_iff _).2 (isWord_of_chars ('s' :: Text.decimals) (by decide) (by simp [defaultName]) fun _ => Checker.mem_defaultName)

end Arena.Model

namespace Arena.Natural.Unfolding

open Checker Checker.Branching List Model Cell

variable {t : Unfolding} {f : Formula} {props : List String} {n depth : Nat} {l : Model.Layout}

/-! ## Formulas in trees -/

def IsChild (t c : Unfolding) : Prop := c ∈ t.children

theorem not_isPath {t : Unfolding} (h : IsPath IsChild t π) : False := not_isPath h.tail.2
termination_by sizeOf t
decreasing_by exact sizeOf_child h.tail.1

theorem exists_isRun {t x : Unfolding} (h : x ∈ t.nodes) : ∃ n π, IsRun IsChild n t π ∧ π n = x := by
  rcases mem_nodes.1 h with rfl | ⟨c, hc, hx⟩
  · exact ⟨0, fun _ => x, ⟨rfl, by simp⟩, rfl⟩
  · obtain ⟨n, π, hπ, hn⟩ := exists_isRun hx
    exact ⟨n + 1, cons t π, hπ.cons hc, hn⟩
termination_by sizeOf t
decreasing_by exact sizeOf_child hc

theorem mem_nodes_of_isRun {n : ℕ} (h : IsRun IsChild n t π) : π n ∈ t.nodes :=
  h.mem (U := {x | x ∈ t.nodes}) (fun _ hx _ hc => mem_nodes_of_child hx hc) (mem_nodes_self t) n le_rfl

def satisfies (props : List String) (f : Formula) (t : Unfolding) : Bool :=
  t.labels.any fun row => trueIn props row f

/-- Whether a formula over all paths, given by the letter of its operator and what it is about, holds at the root of a
tree. What has to hold some time on every infinite path always holds. -/
def passes (props : List String) (o : String) (f : Formula) (t : Unfolding) : Bool :=
  (atomsOf f).all props.contains &&
    match o with
    | "X" => t.children.all (satisfies props f)
    | "G" => t.nodes.all (satisfies props f)
    | _ => true

/-- The operator over all paths that a letter stands for. -/
def pathOperator : String → Unary
  | "X" => .everyNext
  | "G" => .everyGlobally
  | _ => .everyEventually

theorem passes_iff (ho : (o, k) ∈ temporal) :
    passes props o f t = true ↔ (∀ p ∈ atomsOf f, p ∈ props) ∧
      (pathOperator o).Holds IsChild (fun x => satisfies props f x = true) t := by
  have hknown : (atomsOf f).all props.contains = true ↔ ∀ p ∈ atomsOf f, p ∈ props := by
    simp
  simp only [temporal, mem_cons, not_mem_nil, or_false] at ho
  unfold passes
  rw [Bool.and_eq_true, hknown]
  refine and_congr_right fun _ => ?_
  rcases ho with ⟨rfl, -⟩ | ⟨rfl, -⟩ | ⟨rfl, -⟩
  · exact all_eq_true
  · exact ⟨fun _ π hπ => (not_isPath hπ).elim, fun _ => rfl⟩
  · refine all_eq_true.trans ⟨fun hall n π hπ => hall _ (mem_nodes_of_isRun hπ), fun hall x hx => ?_⟩
    obtain ⟨n, π, hπ, rfl⟩ := exists_isRun hx
    exact hall n π hπ

/-! ## Models of trees -/

/-- A model whose states are the nodes of a tree, with their label rows and with transitions to their children. -/
structure Renders (props : List String) (t : Unfolding) (m : Model) : Prop where
  known : m.props = props
  initial : m.initial = "s0"
  states : m.states = t.states
  names : ∀ q ∈ m.states, ∃ i : Nat, q = defaultName i
  nodup : m.states.Nodup
  fits : m.Fits
  labels : Forall₂ (fun x row => x.labels = some row ∧ Model.TruthRow props row) t.nodes m.labels
  edges : Unravels IsChild m.Edge state {x | x ∈ t.nodes}

theorem exists_row {m : Model} (hstates : m.states = t.states)
    (hlabels : Forall₂ (fun x row => x.labels = some row ∧ Model.TruthRow props row) t.nodes m.labels) {x : Unfolding}
    (hx : x ∈ t.nodes) : ∃ (i : Nat) (row : List Cell), m.states[i]? = some x.state ∧ m.labels[i]? = some row ∧
      x.labels = some row := by
  obtain ⟨i, hi⟩ := mem_iff_getElem?.1 hx
  have hlt : i < m.labels.length := hlabels.length_eq ▸ (lt_of_getElem? hi)
  have hget := (forall₂_iff_get.1 hlabels).2 i (lt_of_getElem? hi) hlt
  rw [get_eq_getElem, (List.getElem?_eq_some_iff.1 hi).2] at hget
  refine ⟨i, m.labels[i], ?_, getElem?_eq_getElem hlt, hget.1⟩
  rw [hstates, states_eq, getElem?_map, hi]
  rfl

section Renders

variable {m : Model} (h : Renders props t m)

include h

theorem Renders.labelsFit : m.LabelsFit where
  rows := by rw [← h.labels.length_eq, h.states, states_eq, length_map]
  cells row hrow := by
    obtain ⟨x, -, -, htruth⟩ := exists_of_mem_forall₂ h.labels hrow
    rw [h.known]
    exact htruth.length

theorem Renders.mem_meaning_iff {s : Sentence}
    (hs : ∀ (i : Nat) q row, m.states[i]? = some q → m.labels[i]? = some row →
      (q ∈ s.meaning m ↔ trueIn m.props row f = true)) :
    ∀ x ∈ t.nodes, x.state ∈ s.meaning m ↔ satisfies props f x = true := by
  intro x hx
  obtain ⟨i, row, hi, hrow, hlabels⟩ := exists_row h.states h.labels hx
  rw [hs i x.state row hi hrow, h.known, satisfies, hlabels]
  rfl

/-- The check of a formula over all paths accepts exactly if the formula holds at the root of the tree. -/
theorem Renders.exists_check (hroot : t.state = "s0") (ho : (o, k) ∈ temporal)
    {φ : String} (hφ : Propositional φ f) : ∃ report, checkModel .ctl m ("A" ++ o ++ φ) = .ok report ∧
      (report.initial? = some Pruning.accepted ↔ passes props o f t = true) := by
  have hparse := parse_path_unary hφ ho .missing
  have hlabel : "A" ++ o ∈ (pathOperator o).labels ∧
      pathOperator o ∈ [Unary.everyNext, .everyEventually, .everyGlobally] := by
    simp only [temporal, mem_cons, not_mem_nil, or_false] at ho
    rcases ho with ⟨rfl, -⟩ | ⟨rfl, -⟩ | ⟨rfl, -⟩ <;> decide
  by_cases hknown : ∀ p ∈ atomsOf f, p ∈ m.props
  · obtain ⟨s, hs, hu, hmem⟩ := hφ.boolean.exists_sentence h.nodup hknown
    have hplain : ∀ q ∈ m.states, Plain .ctl q := by
      intro q hq
      obtain ⟨i, rfl⟩ := h.names q hq
      exact plain_defaultName i
    obtain ⟨u, hground, T, hsolve, -, hT⟩ :=
      shows_meaning h.fits h.labelsFit hplain (Sentence.Spelled.unary hlabel.1 hs) hu
    have hverdict : Report.verdict m T.print = true ↔ "s0" ∈ T := by
      unfold Report.verdict
      rw [h.initial]
      refine contains_print fun q hq => h.names q ?_
      exact Sentence.meaning_subset m _ (hT.le hq)
    have hroots : "s0" ∈ m.states := by
      rw [h.states, ← hroot]
      exact state_mem_states (mem_nodes_self t)
    have hholds : "s0" ∈ T ↔ (pathOperator o).Holds m.Edge (· ∈ s.meaning m) t.state := by
      rw [hroot]
      exact (Set.ext_iff.1 hT "s0").trans (and_iff_right hroots)
    refine ⟨.solved m T.print, ?_, ?_⟩
    · unfold checkModel
      simp only [hparse, hground, hsolve, bind, Except.bind]
      rfl
    · rw [passes_iff ho, ← h.known, and_iff_right hknown, h.known,
        ← h.edges.holds_iff (h.mem_meaning_iff hmem) (mem_nodes_self t) hlabel.2, ← hholds, ← hverdict]
      change some _ = some _ ↔ _
      rw [Option.some.injEq, Pruning.line_eq_accepted, and_iff_right h.initial]
  · obtain ⟨u?, hground, hsome⟩ := hφ.boolean.exists_ground h.labelsFit
    obtain rfl : u? = none := by simpa using mt hsome.1 hknown
    refine ⟨.message "Errore di sintassi: l'atomo non esiste", ?_, ?_⟩
    · have hground : ground m (.unary ("A" ++ o) f) = .ok none := by
        unfold ground Tree.ground
        rw [hground]
        rfl
      unfold checkModel
      simp only [hparse, hground, bind, Except.bind]
      rfl
    · rw [passes_iff ho, ← h.known]
      simp only [hknown, false_and]
      decide

end Renders

/-! ## Writing a tree -/

section Written

variable {m : Model} (hgraph : m.graph = (table t.states (t.transitions depth)).map (·.map ofWord))
  (hstates : m.states = t.states)

include hgraph hstates in
theorem fits_of_table : m.Fits := by
  constructor <;> simp [hgraph, hstates, table]

variable (ht : Grown props n t) (hn : n ≤ depth)

include ht in
theorem Grown.listable_of_transition (h : (p, q, move) ∈ t.transitions depth) : Move.Listable move := by
  obtain ⟨x, hx, -, hmove, -⟩ := exists_of_mem_transitions h
  exact (ht.sound_of_mem x hx).moves move hmove

theorem split_listable (h : Move.Listable move) : Text.split "," move = [move] := by
  have hfree : ∀ p ∈ [move], ',' ∉ p.toList := by simpa using h.noComma
  exact Text.split_join (show ",".toList = ',' :: [] from rfl) (cons_ne_nil move []) hfree

include ht hgraph

theorem Grown.moves_of_table : ∀ cells ∈ m.graph, ∀ c ∈ cells, c.isZero = false →
    ∀ move ∈ Text.split "," c.write, Move.Listable move := by
  intro cells hcells c hc hzero move hmove
  rw [hgraph] at hcells
  simp only [table, map_map, mem_map] at hcells
  obtain ⟨p, -, rfl⟩ := hcells
  obtain ⟨_, hw, rfl⟩ := mem_map.1 hc
  obtain ⟨q, -, rfl⟩ := mem_map.1 hw
  rcases wordOf_spec (t.transitions depth) p q with hmem | ⟨hword, -⟩
  · have hlist := ht.listable_of_transition hmem
    rw [ofWord, if_neg hlist.ne_zero, write, split_listable hlist, mem_singleton] at hmove
    exact hmove ▸ hlist
  · rw [hword] at hzero
    cases hzero

include hstates

theorem Grown.edge_iff : m.Edge p q ↔ ∃ move, (p, q, move) ∈ t.transitions depth := by
  have hcell : ∀ i j, cellAt? m.graph i j = t.states[i]?.bind fun p => t.states[j]?.map fun q =>
      ofWord (wordOf (t.transitions depth) p q) := by
    intro i j
    cases hp : t.states[i]? <;> simp [cellAt?, hgraph, table, hp, Function.comp_def]
  have hplain : ∀ {p q : String}, (p, q, wordOf (t.transitions depth) p q) ∈ t.transitions depth →
      (ofWord (wordOf (t.transitions depth) p q)).isZero = false ∧
        (ofWord (wordOf (t.transitions depth) p q)).isAny = false := fun hmem => by
    have hlist := ht.listable_of_transition hmem
    rw [ofWord, if_neg hlist.ne_zero]
    exact ⟨rfl, by simpa [isAny] using hlist.ne_any⟩
  rw [(fits_of_table hgraph hstates).edge_iff, hstates]
  constructor
  · rintro ⟨i, j, c, hc, hzero, hp, hq⟩
    simp only [hcell, hp, Option.bind_some, Option.map_eq_some_iff] at hc
    obtain ⟨r, hr, rfl⟩ := hc
    rcases wordOf_spec (t.transitions depth) p r with hmem | ⟨hword, -⟩
    · rw [(hplain hmem).2] at hq
      cases hr.symm.trans hq
      exact ⟨_, hmem⟩
    · rw [hword] at hzero
      cases hzero
  · rintro ⟨move, hmem⟩
    have hword := hplain ((wordOf_spec (t.transitions depth) p q).resolve_right fun hnone => hnone.2 move hmem)
    obtain ⟨x, hx, rfl, -, c, hc, rfl⟩ := exists_of_mem_transitions hmem
    obtain ⟨i, hi⟩ := mem_iff_getElem?.1 (state_mem_states hx)
    obtain ⟨j, hj⟩ := mem_iff_getElem?.1 (state_mem_states (mem_nodes_of_child hx hc))
    exact ⟨i, j, _, by rw [hcell, hi, hj]; rfl, hword.1, hi, by rw [hword.2]; exact hj⟩

include hn in
theorem Grown.unravels (hnodup : t.states.Nodup) : Unravels IsChild m.Edge state {x | x ∈ t.nodes} where
  closed _ hx _ hc := mem_nodes_of_child hx hc
  forth x hx c hc := by
    have haligned : ∀ x ∈ t.nodes, x.moves.length = x.children.length := fun x hx => (ht.sound_of_mem x hx).aligned
    obtain ⟨move, hmove⟩ := exists_beside (haligned x hx) hc
    exact (ht.edge_iff hgraph hstates).2 ⟨move, (ht.mono hn).shallow.mem_transitions haligned hx hmove⟩
  back x hx s hs := by
    obtain ⟨move, hmem⟩ := (ht.edge_iff hgraph hstates).1 hs
    obtain ⟨y, hy, hstate, -, c, hc, rfl⟩ := exists_of_mem_transitions hmem
    obtain rfl := eq_of_state hnodup hy hx hstate
    exact ⟨c, hc, rfl⟩

end Written

/-- A node with a label row that is read back from its line, and with one word other than `0` for each child. -/
structure Writable (x : Unfolding) : Prop where
  row : ∃ row, x.labels = some row ∧ Model.Layout.IsLabelRow row
  moves : ∀ move ∈ x.moves, Text.IsWord move ∧ move ≠ "0"
  aligned : x.moves.length = x.children.length

theorem isLabelRow_of_truthRow (h : Model.TruthRow props row) : Model.Layout.IsLabelRow row := by
  have hcells : ∀ c ∈ row, (Text.IsWord c.write ∧ labelCell c.write = c) ∧ header? .plain c.write = none := by
    intro c hc
    rcases h.values c hc with rfl | rfl <;> decide
  refine ⟨fun c hc => (hcells c hc).1, (insertable_join ?_ ?_).noHeader⟩
  · simpa using fun c hc => (hcells c hc).1.1
  · simpa using fun c hc => (hcells c hc).2

theorem Sound.writable {x : Unfolding} (h : Sound props x) : Writable x where
  row := h.row.imp fun _ hrow => ⟨hrow.1, isLabelRow_of_truthRow hrow.2⟩
  moves move hmove := ⟨(h.moves move hmove).word, (h.moves move hmove).ne_zero⟩
  aligned := h.aligned

/-- A tree whose nodes have distinct default names is written into the text of a model, and what is read from there
has its nodes as states, with their label rows. -/
theorem exists_loaded {source : String} (hl : l.Cuts source) {m : Model} (hload : load .plain source = .ok m)
    (hnames : ∀ q ∈ t.states, ∃ i : Nat, q = defaultName i) (hnodup : t.states.Nodup)
    (hnodes : ∀ x ∈ t.nodes, Writable x) (depth : Nat) :
    ∃ labels text, Forall₂ (fun x row => x.labels = some row) t.nodes labels ∧
      t.modelText source t.distinctStates (table t.states (t.transitions depth)) = .ok text ∧
      load .plain text = .ok { m with
        graph := (table t.states (t.transitions depth)).map (·.map ofWord), states := t.states, labels := labels } := by
  have hrows : ∀ x ∈ t.nodes, ∃ row, orFault .shape x.labels = .ok row ∧ x.labels = some row ∧
      Model.Layout.IsLabelRow row := by
    intro x hx
    obtain ⟨row, hrow, hlabel⟩ := (hnodes x hx).row
    exact ⟨row, by rw [hrow]; rfl, hrow, hlabel⟩
  obtain ⟨labels, hlabels, hall⟩ := exists_mapM_forall₂ hrows
  have hwords : ∀ row ∈ table t.states (t.transitions depth),
      (∀ w ∈ row, Text.IsWord w) ∧ header? .plain (Text.join " " row) = none := by
    intro row hrow
    obtain ⟨p, hp, rfl⟩ := mem_map.1 hrow
    have hword : ∀ w ∈ t.states.map (wordOf (t.transitions depth) p), Text.IsWord w := by
      intro w hw
      obtain ⟨q, -, rfl⟩ := mem_map.1 hw
      rcases wordOf_spec (t.transitions depth) p q with hmem | ⟨hzero, -⟩
      · obtain ⟨x, hx, -, hmove, -⟩ := exists_of_mem_transitions hmem
        exact ((hnodes x hx).moves _ hmove).1
      · rw [hzero]
        decide
    refine ⟨hword, header?_join hword fun w hw => ?_⟩
    -- a tree of one node has no transitions
    obtain ⟨q, hq, rfl⟩ := map_eq_singleton_iff.1 hw
    obtain rfl : p = q := by simpa [hq] using hp
    rcases wordOf_spec (t.transitions depth) p p with hmem | ⟨hzero, -⟩
    · exact absurd rfl (ne_of_mem_transitions hnodup hmem)
    · rw [hzero]
      decide
  have hnameable : ∀ q ∈ t.states, Model.Nameable q := by
    intro q hq
    obtain ⟨i, rfl⟩ := hnames q hq
    exact nameable_defaultName i
  have hread : ∀ row ∈ labels, Model.Layout.IsLabelRow row := by
    intro row hrow
    obtain ⟨x, -, -, hlabel⟩ := exists_of_mem_forall₂ hall hrow
    exact hlabel
  obtain ⟨text, htext, hload'⟩ := hl.load_withStates hwords hnameable hread hload
  refine ⟨labels, text, hall.imp fun _ _ h => h.1, ?_, hload'⟩
  rw [modelText, distinctStates, Text.distinct_of_nodup hnodup, rows_eq, mapM_map]
  exact hlabels ▸ htext

theorem Grown.exists_written (hl : l.Proper) {m : Model} (hload : load .plain l.text = .ok m)
    (hinitial : m.initial = "s0") (ht : Grown m.props n t) (hn : n ≤ depth) (hroot : t.state = "s0") :
    ∃ text m', t.renamed.modelText l.text t.renamed.distinctStates
        (table t.renamed.states (t.renamed.transitions depth)) = .ok text ∧ load .plain text = .ok m' ∧
      Renders m.props t.renamed m' ∧ m'.Regular ∧
      m'.graph = (table t.renamed.states (t.renamed.transitions depth)).map (·.map ofWord) := by
  have hgrown := ht.renamed
  have hnodup := nodup_states_renamed hroot
  have hnames := exists_name_renamed hroot
  have hfirst : "s0" ∈ t.renamed.states := by
    have hmem := state_mem_states (mem_nodes_self t.renamed)
    rwa [state_renamed, hroot] at hmem
  generalize t.renamed = u at hgrown hnodup hnames hfirst
  obtain ⟨labels, text, hlabels, htext, hload'⟩ := exists_loaded hl.cuts hload hnames hnodup
    (fun x hx => (hgrown.sound_of_mem x hx).writable) depth
  have hall : Forall₂ (fun x row => x.labels = some row ∧ Model.TruthRow m.props row) u.nodes labels := by
    refine ((forall₂_and_left u.nodes labels).2 ⟨hgrown.sound_of_mem, hlabels⟩).imp fun x row ⟨hsound, hrow⟩ => ?_
    obtain ⟨row', hrow', htruth⟩ := hsound.row
    cases hrow.symm.trans hrow'
    exact ⟨hrow, htruth⟩
  have htruth : ∀ row ∈ labels, Model.TruthRow m.props row := by
    intro row hrow
    obtain ⟨x, -, -, htruth⟩ := exists_of_mem_forall₂ hall hrow
    exact htruth
  exact ⟨text, _, htext, hload', ⟨rfl, hinitial, rfl, hnames, hnodup, fits_of_table rfl rfl, hall,
    hgrown.unravels rfl rfl hn hnodup⟩, ⟨hfirst, htruth, hgrown.moves_of_table rfl⟩, rfl⟩

end Arena.Natural.Unfolding
