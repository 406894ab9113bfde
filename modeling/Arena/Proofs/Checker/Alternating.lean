/-
The checker for coalitions decides games: each temporal operator gives the states from which the coalition has a
strategy, one choice of letters per state, whose infinite plays all satisfy it. For the pseudo agent 0 and for all
agents it agrees with the checker for branching time.
-/
import Arena.Proofs.Checker.Branching
import Arena.Proofs.Checker.Forcing

namespace Arena.Checker.Alternating

open Coalition Text Model List Names Branching.Binary

variable {κ : Type} {X : Set String} {s t : Names} {l q r : String} {G : Game String κ}

variable {m : Model} {n : Nat} {agents : List Nat} {letter : String} {op : Binary}

/-! ## Loops -/

section Loops

variable (hp : G.Proper) (hG : G.states = {q | q ∈ m.states}) (hF : Computes m.stateSet (pre m (coalitionOf l)) G.force)

include hF

theorem yields_apply_next (hs : Within m s) : Yields (Unary.next.apply m l s) (G.force s.toSet) :=
  hF.value s hs.toSet_subset

theorem yields_apply_eventually (hs : Within m s) (hX : IsLeast {X | s.toSet ∪ G.force X ⊆ X} X) :
    Yields (Unary.eventually.apply m l s) X := by
  have hlen := length_stateSet m
  unfold Unary.apply rounds
  exact yields_grow hF Game.force_empty hs.1 hs.toSet_subset (by omega) hX

theorem yields_apply_untl (ht : Within m t) (hX : IsLeast {X | t.toSet ∪ G.force X ∩ s.toSet ⊆ X} X) :
    Yields (Binary.untl.apply m l s t) X := by
  have hlen := length_stateSet m
  have hempty : G.force ∅ ∩ s.toSet = ∅ := by rw [Game.force_empty, Set.empty_inter]
  unfold Binary.apply rounds
  exact yields_grow (hF.inter s) hempty ht.1 ht.toSet_subset (by omega) hX

include hp hG

theorem yields_apply_globally (hs : Within m s) (hX : IsGreatest {X | X ⊆ G.force X ∩ s.toSet} X) :
    Yields (Unary.globally.apply m l s) X := by
  have hlen := length_stateSet m
  have hfirst : G.force (toSet m.stateSet) ∩ s.toSet = s.toSet := by
    rw [toSet_stateSet, ← hG, hp.force_states, hG]
    exact Set.inter_eq_right.2 hs.2
  unfold Unary.apply rounds
  exact (yields_shrink (hF.inter s) (nodup_stateSet m) hs.1 hfirst (by omega) hX).1

end Loops

theorem computes_pre_part (h : m.Live) {coalition : String} {members : List Int}
    (hc : positions (names coalition) = .ok members) :
    Computes m.stateSet (pre m coalition) (m.partGame members).force where
  mono := Game.force_mono
  inside X := by
    rw [toSet_stateSet]
    exact Game.force_subset X
  value p hp := by
    rw [toSet_stateSet] at hp
    exact yields_pre h hc hp

theorem computes_pre (h : m.Playable n) (hne : agents ≠ []) (hlt : ∀ a ∈ agents, a < 10 ^ maxDigits)
    {operator : String} (hop : operator.toList.length = 1) :
    Computes m.stateSet (pre m (coalitionOf (label agents operator))) (m.game agents).force := by
  obtain ⟨members, hc, hm⟩ := positions_text hne hlt
  have hforce : (m.game agents).force = (m.partGame members).force := funext (h.force_eq_part hm)
  rw [coalitionOf_label hne hop, hforce]
  exact computes_pre_part h.live hc

/-! ## Checking -/

theorem one_print (h : ∀ q ∈ s, Unmarked q) : one m s.print none = .ok s.print := by
  simp only [one, alternating_of?_print h]

theorem Unary.of?_label (hne : agents ≠ []) {op : Unary}
    (h : of? (label [0] letter) = some op) : of? (label agents letter) = some op := by
  unfold of? at h ⊢
  rwa [kindsIn_label_eq hne]

theorem Binary.of?_label (hne : agents ≠ [])
    (h : of? (label [0] letter) = some op) : of? (label agents letter) = some op := by
  unfold of? at h ⊢
  rwa [kindsIn_label_eq hne]

theorem of?_untl (hne : agents ≠ []) : Binary.of? (label agents "U") = some .untl := Binary.of?_label hne (by decide)

theorem shows_one {op : Unary} (hl : Unary.of? l = some op) (hs : s.Nodup)
    (hX : Yields (op.apply m l (sorted s)) X) : Shows (one m l (some s.print)) X := by
  simp only [one, hl, argument, read_print hs]
  exact hX.shows

theorem shows_two (hl : Binary.of? l = some op) (hs : s.Nodup) (ht : t.Nodup)
    (hX : Yields (op.apply m l (sorted s) (sorted t)) X) : Shows (two m l s.print t.print) X := by
  simp only [two, hl, read_print hs, read_print ht]
  exact hX.shows

section Operators

variable (hne : agents ≠ [])
  (hF : ∀ {o : String}, o.toList.length = 1 → Computes m.stateSet (pre m (coalitionOf (label agents o))) G.force)
  (hs : Within m s)

include hne hF hs

theorem shows_next : Shows (one m (label agents "X") (some s.print)) (G.force s.toSet) := by
  have hnext := yields_apply_next (hF (o := "X") rfl) hs.sorted
  rw [toSet_sorted] at hnext
  exact shows_one (Unary.of?_label hne (by decide)) hs.1 hnext

theorem shows_eventually (hX : IsLeast {X | s.toSet ∪ G.force X ⊆ X} X) :
    Shows (one m (label agents "F") (some s.print)) X := by
  rw [← toSet_sorted s] at hX
  exact shows_one (Unary.of?_label hne (by decide)) hs.1 (yields_apply_eventually (hF rfl) hs.sorted hX)

theorem shows_globally (hp : G.Proper) (hG : G.states = {q | q ∈ m.states})
    (hX : IsGreatest {X | X ⊆ G.force X ∩ s.toSet} X) : Shows (one m (label agents "G") (some s.print)) X := by
  rw [← toSet_sorted s] at hX
  exact shows_one (Unary.of?_label hne (by decide)) hs.1 (yields_apply_globally hp hG (hF rfl) hs.sorted hX)

omit hs in
theorem shows_untl (hs : s.Nodup) (ht : Within m t) (hX : IsLeast {X | t.toSet ∪ G.force X ∩ s.toSet ⊆ X} X) :
    Shows (two m (label agents "U") s.print t.print) X := by
  rw [← toSet_sorted s, ← toSet_sorted t] at hX
  exact shows_two (of?_untl hne) hs ht.1 (yields_apply_untl (hF rfl) ht.sorted hX)

end Operators

/-- For every coalition and all sets of states, solving a temporal operator of the coalition gives the text
of the set of states from which the coalition has a strategy with which every infinite play satisfies the
operator. -/
theorem shows_enforced (h : m.Playable n) (hnames : ∀ q ∈ m.states, Unmarked q) (hne : agents ≠ [])
    (hlt : ∀ a ∈ agents, a < 10 ^ Text.maxDigits) {φ ψ : Names} (hφ : Within m φ) (hψ : Within m ψ) :
    ShowsEnforced (solve m) (label agents) (m.game agents) φ ψ := by
  have hp := h.proper agents
  have hφleaf := one_print (m := m) fun q hq => hnames q (hφ.2 q hq)
  have hψleaf := one_print (m := m) fun q hq => hnames q (hψ.2 q hq)
  have hF : ∀ {o : String}, o.toList.length = 1 → _ := computes_pre h hne hlt
  constructor <;> simp only [solve, Tree.solve_unary_leaf hφleaf, Tree.solve_binary_leaf hφleaf hψleaf]
  · exact hp.force_eq _ ▸ shows_next hne hF hφ
  · exact shows_globally hne hF hφ hp rfl (hp.isGreatest_globally hφ.2)
  · exact shows_eventually hne hF hφ (hp.isLeast_eventually hφ.2)
  · exact shows_untl hne hF hφ.1 hψ (hp.isLeast_until hψ.2)

/-- Two agents stay in a state as long as they choose the same letter; the other state has a loop. -/
def matching : Model where
  graph := [[.text "AA,BB", .text "AB,BA"], [.zero, .text "*"]]
  states := ["s0", "s1"]
  props := ["p"]
  labels := [[.num 0], [.num 1]]
  agents := .number 2

theorem matching_playable : matching.Playable 2 := by decide

theorem shows_enforced_matching :
    ShowsEnforced (solve matching) (label [1]) (matching.game [1]) ["s0"] ["s1"] :=
  shows_enforced matching_playable (by decide) (by decide)
    (fun a ha => mem_singleton.1 ha ▸ Nat.one_lt_pow (by decide) (by decide))
    ⟨by decide, by decide⟩ ⟨by decide, by decide⟩

/-! ## The two extreme coalitions -/

def everyone (n : Nat) : List Nat := (range n).map (· + 1)

theorem choice_nobody (move : Move) : move.choice [0] = fun _ => none := by
  funext a
  unfold Move.choice
  rw [if_neg]
  rintro ⟨ha, h1⟩
  rw [mem_singleton.1 ha] at h1
  omega

theorem choice_everyone {x y : Move} (hx : x.length = n) (hy : y.length = n)
    (h : x.choice (everyone n) = y.choice (everyone n)) : x = y := by
  rw [← String.length_toList] at hx hy
  refine String.toList_injective (ext_getElem? fun k => ?_)
  by_cases hk : k < n
  · have hmem : k + 1 ∈ everyone n ∧ 1 ≤ k + 1 := ⟨mem_map.2 ⟨k, mem_range.2 hk, rfl⟩, by omega⟩
    have hletter := congrFun h (k + 1)
    unfold Move.choice at hletter
    rwa [if_pos hmem, if_pos hmem] at hletter
  · rw [getElem?_eq_none (by omega), getElem?_eq_none (by omega)]

/-- The cell `*` stands on the diagonal only, and no joint action is listed in two cells of a row. -/
structure Deterministic (m : Model) : Prop where
  diagonal : ∀ i j c, cellAt? m.graph i j = some c → c.isAny = true → i = j
  unique : ∀ i j k c d move, cellAt? m.graph i j = some c → cellAt? m.graph i k = some d →
    m.Lists c move → m.Lists d move → j = k

section Extremes

variable (h : m.Playable n) (hd : Deterministic m) (hn : 1 ≤ n) (hlt : n < 10 ^ maxDigits)

include h hd

theorem target_unique {r' : String} {move : Move} (hr : m.Leads q move r) (hr' : m.Leads q move r') : r = r' := by
  obtain ⟨i, j, c, hi, hj, hc, hl⟩ := hr
  obtain ⟨i', k, d, hi', hk, hdk, hl'⟩ := hr'
  obtain rfl : i = i' := index_inj h.nodup hi hi'
  obtain rfl := hd.unique i j k c d move hc hdk hl hl'
  exact Option.some.inj (hj.symm.trans hk)

theorem edge_iff_leads : m.Edge q r ↔ ∃ move, m.Leads q move r := by
  have htarget : ∀ {i j c}, cellAt? m.graph i j = some c → (if c.isAny then i else j) = j := by
    intro i j c hc
    split
    · rename_i hany
      exact hd.diagonal i j c hc hany
    · rfl
  rw [h.fits.edge_iff]
  constructor
  · rintro ⟨i, j, c, hc, hz, hq, hr⟩
    rw [htarget hc] at hr
    obtain ⟨move, hmove⟩ := exists_lists h.agents hz
    exact ⟨move, i, j, c, hq, hr, hc, hmove⟩
  · rintro ⟨move, i, j, c, hq, hr, hc, hz, -⟩
    exact ⟨i, j, c, hc, hz, hq, by rwa [htarget hc]⟩

theorem exists_edge (hq : q ∈ m.states) : ∃ r, m.Edge q r := by
  obtain ⟨c, r, move, hmove, -⟩ := (h.proper [0]).moves q hq
  exact ⟨r, (edge_iff_leads h hd).2 ⟨move, hmove⟩⟩

theorem force_nobody (X : Set String) : (m.game [0]).force X = {q | q ∈ m.states} ∩ everyPred m.Edge X := by
  have hstep : ∀ {q c r}, (m.game [0]).step q c r ↔ m.Edge q r ∧ c = fun _ => none := by
    intro q c r
    simp only [game, choice_nobody, edge_iff_leads h hd, exists_and_right, eq_comm]
  ext q
  constructor
  · rintro ⟨hq, c, ⟨r, hr⟩, hX⟩
    refine ⟨hq, fun r' he => hX r' (hstep.2 ⟨he, (hstep.1 hr).2⟩)⟩
  · rintro ⟨hq, hX⟩
    obtain ⟨r, he⟩ := exists_edge h hd hq
    exact ⟨hq, _, ⟨r, hstep.2 ⟨he, rfl⟩⟩, fun r' hr' => hX r' (hstep.1 hr').1⟩

theorem force_everyone (X : Set String) : (m.game (everyone n)).force X = somePred m.Edge X := by
  ext q
  constructor
  · rintro ⟨-, c, ⟨r, hr⟩, hX⟩
    obtain ⟨move, hmove, -⟩ := id hr
    exact ⟨r, (edge_iff_leads h hd).2 ⟨move, hmove⟩, hX r hr⟩
  · rintro ⟨r, he, hr⟩
    obtain ⟨move, hmove⟩ := (edge_iff_leads h hd).1 he
    refine ⟨(h.fits.edge_mem he).1, move.choice (everyone n), ⟨r, move, hmove, rfl⟩, ?_⟩
    rintro r' ⟨other, hother, hsame⟩
    -- the choice of all agents is the whole joint action, and that has one target
    obtain rfl := choice_everyone (h.length_move hother) (h.length_move hmove) hsame
    exact target_unique h hd hmove hother ▸ hr

omit h hd

/-- The labels of the operators on one set: over every path nobody forces, over some path everyone does. -/
def extremeUnaries (n : Nat) : Branching.Unary → List String
  | .not => ["!"]
  | .someNext => [label (everyone n) "X"]
  | .everyNext => [label [0] "X"]
  | .someEventually => [label (everyone n) "F"]
  | .everyEventually => [label [0] "F"]
  | .someGlobally => [label (everyone n) "G"]
  | .everyGlobally => [label [0] "G"]

/-- The labels of the operators on two sets; there is none for the `until` over every path. -/
def extremeBinaries (n : Nat) : Branching.Binary → List String
  | .or => or.labels
  | .and => and.labels
  | .implies => implies.labels
  | .someUntil => [label (everyone n) "U"]
  | .everyUntil => []

theorem nobody_lt : ∀ a ∈ [0], a < 10 ^ maxDigits := by
  intro a ha
  rw [mem_singleton.1 ha]
  exact Nat.pow_pos (by decide)

include hn in
theorem everyone_ne_nil : everyone n ≠ [] := by
  have : (everyone n).length = n := by simp [everyone]
  intro hnil
  rw [hnil] at this
  exact absurd this (by simp; omega)

include hlt in
theorem everyone_lt : ∀ a ∈ everyone n, a < 10 ^ maxDigits := by
  intro a ha
  obtain ⟨k, hk, rfl⟩ := mem_map.1 ha
  rw [mem_range] at hk
  omega

include h hd

theorem force_everyone_inter (X : Set String) :
    (m.game (everyone n)).force X ∩ s.toSet = s.toSet ∩ somePred m.Edge X := by
  rw [force_everyone h hd, Set.inter_comm]

theorem force_nobody_inter (hsU : ∀ q ∈ s, q ∈ m.states) (X : Set String) :
    (m.game [0]).force X ∩ s.toSet = s.toSet ∩ everyPred m.Edge X := by
  have hin : s.toSet ∩ {q | q ∈ m.states} = s.toSet := Set.inter_eq_left.2 hsU
  rw [force_nobody h hd, Set.inter_comm, ← Set.inter_assoc, hin]

include hn hlt

/-- Each branching-time operator on one set is computed at its label for an extreme coalition. -/
theorem shows_extreme_one (hs : Within m s) (op : Branching.Unary) (hl : l ∈ extremeUnaries n op) :
    Shows (one m l (some s.print)) {q | q ∈ m.states ∧ op.Holds m.Edge (· ∈ s.toSet) q} := by
  have hall := everyone_ne_nil hn
  have hne : [0] ≠ [] := cons_ne_nil 0 []
  have hF : ∀ {o : String}, o.toList.length = 1 → _ := computes_pre h hall (everyone_lt hlt)
  have hF₀ : ∀ {o : String}, o.toList.length = 1 → _ := computes_pre h hne nobody_lt
  have hstay : ∀ q ∈ {q | q ∈ m.states}, ∀ r, m.Edge q r → r ∈ {q | q ∈ m.states} := fun q _ r he =>
    (h.fits.edge_mem he).2
  cases op <;> obtain rfl := mem_singleton.1 hl
  case not =>
    refine shows_one (show _ = some Unary.not by decide) hs.1 ?_
    rw [← toSet_sorted s]
    exact (yields_ok.2 ⟨hs.sorted.1, rfl⟩).compl fun q _ => Iff.rfl
  case someNext =>
    rw [inside_eq fun q ⟨r, he, _⟩ => (h.fits.edge_mem he).1]
    have hnext := shows_next hall hF hs
    rw [force_everyone h hd] at hnext
    exact hnext
  case everyNext =>
    have hnext := shows_next hne hF₀ hs
    rw [force_nobody h hd] at hnext
    exact hnext
  case someEventually =>
    rw [inside_eq fun q => Branching.mem_of_someEventually h.fits hs.2]
    refine shows_eventually hall hF hs ?_
    simp only [force_everyone h hd]
    exact isLeast_someEventually _
  case everyEventually =>
    -- no complement is taken here, so it matters that every state has a successor
    refine shows_eventually hne hF₀ hs ?_
    simp only [force_nobody h hd]
    exact isLeast_everyEventually hstay (fun q hq => exists_edge h hd hq) hs.2
  case someGlobally =>
    rw [inside_eq fun q => Branching.mem_of_someGlobally h.fits]
    refine shows_globally hall hF hs (h.proper _) rfl ?_
    simp only [force_everyone_inter h hd]
    exact isGreatest_someGlobally _
  case everyGlobally =>
    rw [inside_eq fun q hq => hs.2 q (hq 0 (fun _ => q) ⟨rfl, by simp⟩)]
    refine shows_globally hne hF₀ hs (h.proper _) rfl ?_
    simp only [force_nobody_inter h hd hs.2]
    exact isGreatest_everyGlobally _

theorem shows_extreme_two (hs : Within m s) (ht : Within m t) (op : Branching.Binary) (hop : op ≠ .everyUntil)
    (hl : l ∈ extremeBinaries n op) :
    Shows (two m l s.print t.print) {q | q ∈ m.states ∧ op.Holds m.Edge (· ∈ s.toSet) (· ∈ t.toSet) q} := by
  -- the Boolean operators are those of the checker for branching time
  have hbool := yields_apply h.fits hs.sorted ht.sorted op hop
  rw [toSet_sorted, toSet_sorted] at hbool
  cases op with
  | or =>
    have hof : ∀ l ∈ or.labels, Binary.of? l = some .or := by decide
    exact shows_two (hof l hl) hs.1 ht.1 hbool
  | and =>
    have hof : ∀ l ∈ and.labels, Binary.of? l = some .and := by decide
    exact shows_two (hof l hl) hs.1 ht.1 hbool
  | implies =>
    have hof : ∀ l ∈ implies.labels, Binary.of? l = some .implies := by decide
    exact shows_two (hof l hl) hs.1 ht.1 hbool
  | someUntil =>
    obtain rfl := mem_singleton.1 hl
    rw [inside_eq fun q => Branching.mem_of_someUntil h.fits ht.2]
    refine shows_untl (everyone_ne_nil hn) (computes_pre h (everyone_ne_nil hn) (everyone_lt hlt)) hs.1 ht ?_
    simp only [force_everyone_inter h hd]
    exact isLeast_someUntil _ _
  | everyUntil => exact absurd rfl hop

theorem decides (hnames : ∀ q ∈ m.states, Unmarked q) :
    Decides m (extremeUnaries n) (extremeBinaries n) (one m) (two m) where
  leaf _ hsU := one_print fun q hq => hnames q (hsU q hq)
  unary op _ hl _ hs hsU := shows_extreme_one h hd hn hlt ⟨hs, hsU⟩ op hl
  binary op hop _ hl _ _ hs hsU ht htU := shows_extreme_two h hd hn hlt ⟨hs, hsU⟩ ⟨ht, htU⟩ op hop hl

end Extremes

/-- On a deterministic model, a sentence without an `until` over every path, spelled for the checker of
coalitions with the pseudo agent 0 in place of every path and with all agents in place of some path, is
answered as the checker for branching time answers it. -/
theorem solve_extremes_eq (h : m.Playable n) (hl : m.LabelsFit) (hd : Deterministic m)
    (hnames : ∀ q ∈ m.states, ∃ i : Nat, q = Model.defaultName i) (hn : 1 ≤ n) (hlt : n < 10 ^ Text.maxDigits)
    {s : Sentence} {f g : Formula} (hf : s.Spelled m Branching.Unary.labels labels f)
    (hg : s.Spelled m (extremeUnaries n) (extremeBinaries n) g) (hs : s.WithoutEveryUntil) :
    ∃ t u, Branching.ground m f = .ok (some t) ∧ ground m g = .ok (some u) ∧
      solve m u = Branching.solve m t ∧ Shows (solve m u) (s.meaning m) := by
  have hplain : ∀ q ∈ m.states, Plain .ctl q := fun q hq => by
    obtain ⟨i, rfl⟩ := hnames q hq
    exact plain_defaultName i
  have hunmarked : ∀ q ∈ m.states, Unmarked q := fun q hq => by
    obtain ⟨i, rfl⟩ := hnames q hq
    exact unmarked_defaultName i
  obtain ⟨t, ht, hshow⟩ := (Branching.decides h.fits hplain).solve hl hf hs
  obtain ⟨u, hu, hshow'⟩ := (decides h hd hn hlt hunmarked).solve hl hg hs
  exact ⟨t, u, ht, hu, hshow'.unique hshow, hshow'⟩

theorem Deterministic.of_cells (hany : ∀ i j c, cellAt? m.graph i j = some c → c.isAny = true → i = j)
    (h : ∀ i j c, cellAt? m.graph i j = some c → ∀ i' k d, cellAt? m.graph i' k = some d → i = i' →
      ∀ move, m.Lists c move → m.Lists d move → j = k) : Deterministic m :=
  ⟨hany, fun i j k c d move hc hd => h i j c hc i k d hd rfl move⟩

theorem matching_deterministic : Deterministic matching := .of_cells (by decide) (by decide)

theorem matching_names : ∀ q ∈ matching.states, ∃ i : Nat, q = defaultName i := by
  have hnames : ∀ q ∈ matching.states, ∃ i ∈ [0, 1], q = defaultName (i : Nat) := by decide
  exact fun q hq => (hnames q hq).imp fun _ h => h.2

theorem solve_extremes_eq_matching :
    ∃ t u, Branching.ground matching (.unary "AF" (.binary "or" (.atom "p") (.unary "EG" (.unary "!" (.atom "p"))))) =
        .ok (some t) ∧
      ground matching (.unary (label [0] "F") (.binary "or" (.atom "p")
        (.unary (label (everyone 2) "G") (.unary "!" (.atom "p"))))) = .ok (some u) ∧
      solve matching u = Branching.solve matching t ∧
      Shows (solve matching u) (Sentence.meaning matching (.unary .everyEventually (.binary .or (.atom "p")
        (.unary .someGlobally (.unary .not (.atom "p")))))) :=
  solve_extremes_eq matching_playable ⟨by decide, by decide⟩ matching_deterministic matching_names (by decide) (Text.lt_pow_maxDigits (by decide))
    (.unary (by decide) (.binary (by decide) (.atom (by decide))
      (.unary (by decide) (.unary (by decide) (.atom (by decide))))))
    (.unary (by decide) (.binary (by decide) (.atom (by decide))
      (.unary (by decide) (.unary (by decide) (.atom (by decide))))))
    ⟨by decide, trivial, trivial⟩

end Arena.Checker.Alternating
