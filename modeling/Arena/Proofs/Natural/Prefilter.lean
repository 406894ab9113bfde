/-
Checking coalitions before their strategies. What firm pruning leaves of a model is a choice of the coalition in each
state, so what holds on all paths that are left the coalition can enforce, and a formula for which some strategies are
accepted is not lost when its translation without the bound is checked first.
-/
import Arena.Proofs.Natural.Headings
import Arena.Proofs.Natural.PrunedText

namespace Arena.Checker

open Branching.Unary Coalition Formula Report

variable {o : String} {reader : Logic} {k : Formula.TokenKind} {report : Report}

/-! ## Paths that a player can impose -/

namespace Game

variable {α κ : Type}

/-- A relation between the states of a game that the player can impose: what holds of all successors, the player can
force. -/
structure Imposed (G : Game α κ) (R : α → α → Prop) : Prop where
  stays : ∀ q ∈ G.states, ∀ r, R q r → r ∈ G.states
  total : ∀ q ∈ G.states, ∃ r, R q r
  force : ∀ X, G.states ∩ everyPred R X ⊆ G.force X

variable {G : Game α κ} {R : α → α → Prop} (h : G.Imposed R) {φ X : Set α}

include h

theorem Imposed.eventually_subset (hφ : φ ⊆ G.states) (hX : IsLeast {X | φ ∪ G.force X ⊆ X} X) :
    {q | q ∈ G.states ∧ everyEventually.Holds R (· ∈ φ) q} ⊆ X := by
  have hclosed : φ ∪ G.states ∩ everyPred R X ⊆ X :=
    (Set.union_subset_union_right φ (h.force X)).trans hX.1
  exact (isLeast_everyEventually h.stays h.total hφ).2 hclosed

theorem Imposed.globally_subset (hX : IsGreatest {X | X ⊆ G.force X ∩ φ} X) :
    {q | q ∈ G.states ∧ everyGlobally.Holds R (· ∈ φ) q} ⊆ X := by
  refine hX.2 ?_
  rintro q ⟨hq, hglobally⟩
  obtain ⟨hφ, hnext⟩ := (isGreatest_everyGlobally (R := R) φ).1 hglobally
  exact ⟨h.force _ ⟨hq, fun r hr => ⟨h.stays q hq r hr, hnext r hr⟩⟩, hφ⟩

end Game

/-! ## What the check of a coalition finds -/

namespace Alternating

section Imposed

variable {m : Model} (hlive : m.Live) {agents : List Nat} (hne : agents ≠ []) {members : List Int}
  (hc : positions (names (text agents)) = .ok members) {R : String → String → Prop}
  (hR : (m.partGame members).Imposed R) {S T : Names} (hS : S.Nodup) (hT : Within m T)

include hlive hne hc

theorem computes_pre_label (ho : o.toList.length = 1) :
    Computes m.stateSet (pre m (coalitionOf (label agents o))) (m.partGame members).force := by
  rw [coalitionOf_label hne ho]
  exact computes_pre_part hlive hc

include hT

include hR in
/-- What holds on all paths that a coalition imposes is found by the check of the coalition. -/
theorem exists_shows_temporal {k : TokenKind} (ho : (o, k) ∈ temporal) :
    ∃ op X, of? ("A" ++ o) = some op ∧
      Shows (one m (label agents o) (some T.print)) X ∧ X ⊆ {q | q ∈ m.states} ∧
      {q | q ∈ m.states ∧ op.Holds R (· ∈ T.toSet) q} ⊆ X := by
  have hF : ∀ {o : String}, o.toList.length = 1 → _ := computes_pre_label hlive hne hc
  have hproper := hlive.proper members
  simp only [temporal, List.mem_cons, Prod.mk.injEq, List.not_mem_nil, or_false] at ho
  rcases ho with ⟨rfl, -⟩ | ⟨rfl, -⟩ | ⟨rfl, -⟩
  · exact ⟨.everyNext, _, of?_label _ (by decide), shows_next hne hF hT, Game.force_subset _, hR.force T.toSet⟩
  · have hleast := hproper.isLeast_eventually hT.2
    exact ⟨.everyEventually, _, of?_label _ (by decide), shows_eventually hne hF hT hleast, fun q hq => hq.1,
      hR.eventually_subset hT.2 hleast⟩
  · have hgreatest := hproper.isGreatest_globally hT.2
    exact ⟨.everyGlobally, _, of?_label _ (by decide), shows_globally hne hF hT hproper rfl hgreatest,
      fun q hq => hq.1, hR.globally_subset hgreatest⟩

include hS in
theorem exists_shows_untl :
    ∃ X, Shows (two m (label agents "U") S.print T.print) X ∧ X ⊆ {q | q ∈ m.states} ∧ T.toSet ⊆ X := by
  have hleast := (hlive.proper members).isLeast_until (φ := S.toSet) hT.2
  exact ⟨_, shows_untl hne (computes_pre_label hlive hne hc) hS hT hleast, fun q hq => hq.1,
    Set.subset_union_left.trans hleast.1⟩

end Imposed

end Alternating

/-! ## Reports that accept -/

theorem isBlankFormula_coalition (agents : List Nat) (rest : String) :
    isBlankFormula ("<" ++ text agents ++ ">" ++ rest) = false :=
  Text.isEmpty_trim_of_mem (c := '<') (by simp) (by decide)

theorem Branching.check_of_load {source formula : String} {m : Model}
    (hload : Model.load .plain source = .ok m) (hblank : isBlankFormula formula = false) :
    check reader source formula = checkModel reader m formula := by
  unfold check
  rw [if_neg (by simp [hblank]), hload]
  rfl

theorem Branching.exists_of_check {source formula : String} {m : Model} {f : Formula}
    (hload : Model.load .plain source = .ok m) (hinit : m.initial = "s0")
    (hparse : parse reader .ctl .missing formula = .ok (some f))
    (h : check reader source formula = .ok report) (haccept : report.initial? = some "Initial state s0: True") :
    ∃ t result, ground m f = .ok (some t) ∧ solve m t = .ok result ∧ Text.contains result "s0" = true := by
  unfold check at h
  by_cases hblank : isBlankFormula formula = true
  · rw [if_pos hblank] at h
    cases h
    exact absurd haccept (by decide)
  rw [if_neg hblank, hload] at h
  have h : checkModel reader m formula = .ok report := h
  unfold checkModel at h
  obtain ⟨f?, hf, h⟩ := bind_eq_ok.1 h
  cases hparse.symm.trans hf
  obtain ⟨t?, ht, h⟩ := bind_eq_ok.1 h
  cases t? with
  | none =>
    cases h
    exact absurd haccept (by decide)
  | some t =>
    obtain ⟨result, hresult, h⟩ := bind_eq_ok.1 h
    cases h
    refine ⟨t, result, ht, hresult, ?_⟩
    by_contra hs0
    have hfalse : verdict m result = false := by
      unfold verdict
      rw [hinit]
      simpa using hs0
    unfold solved at haccept
    simp only [hinit, hfalse] at haccept
    exact absurd haccept (by decide)

theorem Alternating.exists_check {source formula : String} {m : Model} {f : Formula} {n : Int}
    {t : Tree} {result : String} (hload : Model.load .plain source = .ok m) (hinit : m.initial = "s0")
    (hn : m.agentCount = .ok n) (hblank : isBlankFormula formula = false)
    (hparse : parse reader .atl (.ofInt n) formula = .ok (some f)) (hground : ground m f = .ok (some t))
    (hsolve : solve m t = .ok result) (hresult : Text.contains result "s0" = true) :
    ∃ report, check reader source formula = .ok report ∧ report.initial? = some "Initial state s0: True" := by
  have hcount : m.agents.forFormula = .ok (.ofInt n) := by
    unfold Model.agentCount at hn
    cases hm : m.agents with
    | number k =>
      rw [hm] at hn
      cases hn
      rfl
    | text s =>
      rw [hm, Count.get] at hn
      rw [Count.forFormula, hn]
      rfl
  refine ⟨.solved m result, ?_, ?_⟩
  · unfold check
    rw [if_neg (by simp [hblank]), hload]
    simp only [bind, Except.bind, hcount, hparse, hground, hsolve]
    rfl
  · unfold solved verdict
    simp only [hinit, hresult]
    decide

end Arena.Checker

namespace Arena.Natural.Pruning

open Checker Model List Heading Alternating Text Tree Coalition

variable {formula reason φ : String} {plans : List Plan} {size : Nat} {g : Matrix}

/-! ## Models -/

/-- A model text that can be pruned and written anew, of a model whose states have their default names, the first is
the initial state, and joint actions with stars are loops. -/
structure Prunable (source : String) (m : Model) (size : Nat) (n : Int) : Prop extends Rewritable source m where
  states : m.states = (range size).map fun i : Nat => defaultName i
  initial : m.initial = "s0"
  rows : m.graph.length = size
  cells : ∀ row ∈ m.graph, row.length ≤ size
  agents : m.agentCount = .ok n
  stars : ∀ i j c, cellAt? m.graph i j = some c → '*' ∈ c.write.toList → i = j

/-! ## Verdicts -/

theorem firmVerdict_eq_true {reader : Formula.Logic} {source : String} {m : Model} {agents : List Int}
    (hload : load .plain source = .ok m) (h : firmVerdict reader source agents formula plans = .ok (true, reason)) :
    ∃ g n, firmPlans reader source m (sourceNames m.graph) agents 1 plans m.graph = .ok (.ok g) ∧
      m.agentCount = .ok n ∧ checkMoves { m with graph := g } n = .ok () ∧
      ∃ text report, withMatrix source (some g) = .ok text ∧ Branching.check reader text formula = .ok report ∧
        report.initial? = some accepted := by
  obtain ⟨m', hm', h⟩ := bind_eq_ok.1 h
  cases hload.symm.trans hm'
  obtain ⟨pruned, hpruned, h⟩ := bind_eq_ok.1 h
  obtain ⟨m', hm', hpruned⟩ := bind_eq_ok.1 hpruned
  cases hload.symm.trans hm'
  obtain ⟨_, -, hplans⟩ := bind_eq_ok.1 hpruned
  cases pruned with
  | error reason => cases h
  | ok g =>
    simp only at h
    split at h
    · cases h
    · rename_i hcheck
      obtain ⟨n, hn, hmoves⟩ := bind_eq_ok.1 hcheck
      obtain ⟨text, htext, h⟩ := bind_eq_ok.1 h
      obtain ⟨report, hreport, h⟩ := bind_eq_ok.1 h
      refine ⟨g, n, hplans, hn, hmoves, text, report, htext, hreport, ?_⟩
      by_cases hverdict : report.initial?.getD "" = accepted
      · cases hinitial : report.initial? with
        | none =>
          rw [hinitial] at hverdict
          exact absurd hverdict (by decide)
        | some verdict =>
          rw [hinitial] at hverdict
          exact congrArg some hverdict
      · simp only [if_neg hverdict] at h
        cases h

section Prunable

variable {source : String} {m : Model} {n : Int} (hm : Prunable source m size n)

include hm

theorem Prunable.nodup : m.states.Nodup := by
  rw [hm.states]
  exact nodup_range.map fun i j => defaultName_inj

theorem Prunable.exists_name : ∀ q ∈ m.states, ∃ i : Nat, q = defaultName i := by
  intro q hq
  rw [hm.states] at hq
  obtain ⟨i, -, rfl⟩ := mem_map.1 hq
  exact ⟨i, rfl⟩

theorem Prunable.length : m.states.length = size := by
  rw [hm.states, length_map, length_range]

variable {members : List Int} {P : Nat → Move → Prop} (hp : Prunes members P m.graph g)
  (hcheck : checkMoves { m with graph := g } n = .ok ())

include hp

theorem Prunable.fits : Fits { m with graph := g } := by
  refine ⟨?_, fun row' hrow' => ?_⟩
  · rw [hp.length, hm.rows, ← hm.length]
  · obtain ⟨i, hi⟩ := mem_iff_getElem?.1 hrow'
    obtain ⟨row, hrow, hlen, -⟩ := hp.exists_row hi
    exact hlen.le.trans ((hm.cells row (mem_of_getElem? hrow)).trans hm.length.ge)

include hcheck

theorem Prunable.live : m.Live := by
  refine ⟨hm.nodup, hm.rows.trans hm.length.symm, fun row hrow => ?_, fun row hrow => ?_, n, hm.agents⟩
  · exact (hm.cells row hrow).trans hm.length.ge
  · -- a transition that is left was one before
    obtain ⟨i, hi⟩ := mem_iff_getElem?.1 hrow
    obtain ⟨row', hrow', hlen, hcells⟩ := hp.rows i row hi
    obtain ⟨d, hd, hz⟩ := (checkMoves_spec hcheck (mem_of_getElem? hrow')).1
    obtain ⟨j, hj⟩ := mem_iff_getElem?.1 hd
    have hlt : j < row.length := hlen ▸ (lt_of_getElem? hj)
    obtain ⟨d', hd', hk⟩ := hcells j row[j] (getElem?_eq_getElem hlt)
    cases hj.symm.trans hd'
    refine ⟨row[j], getElem_mem hlt, ?_⟩
    generalize row[j] = c at hk
    cases hk with
    | zero => exact hz
    | any | emptied | listed => rfl

theorem Prunable.imposed (hP : ∀ i, Respects members (P i)) {k : Nat} (hk : (k : Int) ∈ members) (hkn : (k : Int) < n) :
    (m.partGame members).Imposed (Edge { m with graph := g }) where
  stays q _ r hr := ((hm.fits hp).edge_mem hr).2
  total q hq := by
    obtain ⟨i, hi⟩ := mem_iff_getElem?.1 hq
    have hlt : i < g.length := by
      rw [hp.length, hm.rows, ← hm.length]
      exact lt_of_getElem? hi
    obtain ⟨d, hd, hz⟩ := (checkMoves_spec hcheck (getElem_mem hlt)).1
    obtain ⟨j, hj⟩ := mem_iff_getElem?.1 hd
    have hjlt : (if d.isAny then i else j) < m.states.length := by
      split
      · exact lt_of_getElem? hi
      · exact Nat.lt_of_lt_of_le (lt_of_getElem? hj) ((hm.fits hp).cells g[i] (getElem_mem hlt))
    have hcell : cellAt? g i j = some d := (cellAt?_eq (getElem?_eq_getElem hlt) j).trans hj
    exact ⟨_, (hm.fits hp).edge_iff.2 ⟨i, j, d, hcell, hz, hi, getElem?_eq_getElem hjlt⟩⟩
  force X := hp.everyPred_subset_force (hm.fits hp) hm.stars hP hm.nodup (hm.rows.trans hm.length.symm)
    (fun row hrow => (checkMoves_spec hcheck hrow).1) hm.agents hk hkn X

end Prunable

theorem temporal_spec (ho : (o, k) ∈ temporal) :
    (∃ c, o.toList.getLast? = some c ∧ isBlank c = false) ∧ '<' ∉ o.toList := by
  simp only [temporal, mem_cons, not_mem_nil, or_false] at ho
  rcases ho with ⟨rfl, -⟩ | ⟨rfl, -⟩ | ⟨rfl, -⟩
  · exact ⟨⟨'X', by decide, by decide⟩, by decide⟩
  · exact ⟨⟨'F', by decide, by decide⟩, by decide⟩
  · exact ⟨⟨'G', by decide, by decide⟩, by decide⟩

theorem not_mem_chars {f : Formula} (h : Propositional φ f) : '<' ∉ φ.toList := fun hmem =>
  (h.chars '<' hmem).ne (by decide) rfl

section Accepted

variable {source : String} {m : Model} {n : Int} (hm : Prunable source m size n) {agents : List Nat} (hne : agents ≠ [])
  (hagents : ∀ a ∈ agents, 1 ≤ a ∧ (a : Int) ≤ n) {members : List Int}
  (hmembers : ∀ i, i ∈ members ↔ ∃ a ∈ agents, i = (a : Int) - 1)

include hm hne hagents hmembers

/-- Strategies that are accepted leave a model whose transitions the coalition imposes and where the formula holds in
the initial state. -/
theorem Prunable.exists_pruned
    (h : firmVerdict .ctl source (agents.map fun a : Nat => (a : Int)) formula plans = .ok (true, reason)) :
    m.Live ∧ ∃ g, (m.partGame members).Imposed (Edge { m with graph := g }) ∧
      Fits { m with graph := g } ∧ ∃ text report, load .plain text = .ok { m with graph := g } ∧
        Branching.check .ctl text formula = .ok report ∧ report.initial? = some accepted := by
  have hplaces : ∀ a ∈ agents.map fun a : Nat => (a : Int), ∃ k : Nat, a - 1 = k ∧ (k : Int) ∈ members := by
    intro a ha
    obtain ⟨b, hb, rfl⟩ := mem_map.1 ha
    have := (hagents b hb).1
    exact ⟨b - 1, by omega, (hmembers _).2 ⟨b, hb, by omega⟩⟩
  obtain ⟨a, ha⟩ := exists_mem_of_ne_nil agents hne
  have hrange := hagents a ha
  obtain ⟨g, n', hplans, hn', hcheck, text, report, htext, hreport, haccept⟩ := firmVerdict_eq_true hm.load h
  cases hm.agents.symm.trans hn'
  obtain ⟨P, hP, hp⟩ := prunes_of_firmPlans hm.load hplaces hplans
  obtain ⟨text', htext', hload⟩ := hm.load_withMatrix hp (by omega) hcheck
  cases htext.symm.trans htext'
  refine ⟨hm.live hp hcheck, g, ?_, hm.fits hp, text, report, hload, hreport, haccept⟩
  exact hm.imposed hp hcheck hP (k := a - 1) ((hmembers _).2 ⟨a, ha, by omega⟩) (by omega)

omit hne hagents hmembers in
theorem Prunable.contains_print {V : Names} (hV : ∀ q ∈ V, q ∈ m.states) : contains V.print "s0" = true ↔ "s0" ∈ V :=
  Checker.contains_print fun q hq => hm.exists_name q (hV q hq)

omit hne hagents hmembers in
theorem Prunable.solve_boolean {f : Formula} (hf : Boolean f) {t : Tree} (ht : ground (atomText m) f = .ok (some t)) :
    ∃ T, Within m T ∧
      Branching.solve { m with graph := g } t = .ok T.print ∧ solve m t = .ok T.print := by
  obtain ⟨T, hT, hboth⟩ := hf.solve ht
  refine ⟨T, hT, hboth _ _ (computesBoolean_branching (m := { m with graph := g }) fun q hq => ?_),
    hboth _ _ (computesBoolean_alternating fun q hq => ?_)⟩
  · obtain ⟨i, rfl⟩ := hm.exists_name q hq
    exact plain_defaultName i
  · obtain ⟨i, rfl⟩ := hm.exists_name q hq
    exact unmarked_defaultName i

variable (hlt : ∀ a ∈ agents, a < 10 ^ maxDigits) (hc : positions (names (text agents)) = .ok members) {ψ : String}
  {f g : Formula} (hφ : Propositional φ f) (hψ : Propositional ψ g) {bound : Nat}

include hlt hc

include hφ in
theorem Prunable.accepts_temporal (ho : (o, k) ∈ temporal)
    (h : firmVerdict .ctl source (agents.map fun a : Nat => (a : Int)) ("A" ++ trimRight (o ++ φ)) plans =
      .ok (true, reason)) :
    ∃ report, check .atl source (toAlternating (heading agents bound ++ (o ++ φ))) =
      .ok report ∧ report.initial? = some accepted := by
  obtain ⟨⟨c, hlast, hblank⟩, hopen⟩ := temporal_spec ho
  rw [trimRight_append hlast hblank, ← String.append_assoc] at h
  rw [toAlternating_heading hne bound (by simpa [hopen] using not_mem_chars hφ)]
  obtain ⟨hlive, g, himposed, hfits, text, report, hload, hreport, haccept⟩ :=
    hm.exists_pruned hne hagents hmembers h
  obtain ⟨t, result, hground, hsolve, hs0⟩ :=
    Branching.exists_of_check hload hm.initial (parse_path_unary hφ.trimRight ho _) hreport haccept
  obtain ⟨u, rfl, hu⟩ := exists_of_ground_unary hground
  obtain ⟨T, hT, hbranching, halternating⟩ := hm.solve_boolean (g := g) hφ.boolean hu
  obtain ⟨op, X, hop, ⟨V, hV, -, rfl⟩, hVU, hsub⟩ :=
    exists_shows_temporal hlive hne hc himposed hT ho
  obtain ⟨W, hW, -, hWset⟩ := Branching.shows_one hfits hop hT
  have hresult : result = W.print := Except.ok.inj (hsolve.symm.trans ((solve_unary hbranching).trans hW))
  rw [hresult, hm.contains_print fun q hq => (hWset.le hq).1] at hs0
  have hparse := parse_coalition_unary hφ hne (fun a ha => ⟨hlt a ha, (hagents a ha).2⟩) ho
  rw [label, String.append_assoc] at hparse
  refine exists_check hm.load hm.initial hm.agents (isBlankFormula_coalition agents _) hparse
    (ground_unary hu) ((solve_unary halternating).trans hV) ?_
  rw [hm.contains_print hVU]
  exact hsub (hWset.le hs0)

include hφ hψ in
theorem Prunable.accepts_untl
    (h : firmVerdict .ctl source (agents.map fun a : Nat => (a : Int)) ("A" ++ trimRight (φ ++ "U" ++ ψ)) plans =
      .ok (true, reason)) :
    ∃ report, check .atl source (toAlternating (heading agents bound ++ (φ ++ "U" ++ ψ))) =
      .ok report ∧ report.initial? = some accepted := by
  have hlast : (φ ++ "U").toList.getLast? = some 'U' := by simp
  rw [trimRight_append hlast (by decide), ← String.append_assoc, ← String.append_assoc] at h
  rw [toAlternating_heading hne bound (by simpa using ⟨not_mem_chars hφ, not_mem_chars hψ⟩)]
  obtain ⟨hlive, pruned, -, hfits, text, report, hload, hreport, haccept⟩ := hm.exists_pruned hne hagents hmembers h
  obtain ⟨t, result, hground, hsolve, hs0⟩ :=
    Branching.exists_of_check hload hm.initial (parse_path_untl hφ hψ.trimRight _) hreport haccept
  obtain ⟨u, v, rfl, hu, hv⟩ := exists_of_ground_binary hground
  obtain ⟨S, hS, hbranchingS, halternatingS⟩ := hm.solve_boolean (g := pruned) hφ.boolean hu
  obtain ⟨T, hT, hbranchingT, halternatingT⟩ := hm.solve_boolean (g := pruned) hψ.boolean hv
  obtain ⟨X, ⟨V, hV, -, rfl⟩, hVU, hsub⟩ := exists_shows_untl hlive hne hc hS.1 hT
  -- on all paths only the second formula is asked for
  obtain ⟨W, hW, -, hWset⟩ := Branching.shows_two_everyUntil hfits (l := "AU") (by decide) hS.1 hT
  have hresult : result = W.print :=
    Except.ok.inj (hsolve.symm.trans ((solve_binary hbranchingS hbranchingT).trans hW))
  rw [hresult, hm.contains_print fun q hq => hT.2 q (hWset.le hq)] at hs0
  refine exists_check hm.load hm.initial hm.agents (isBlankFormula_coalition agents _)
    (parse_coalition_untl hφ hψ hne fun a ha => ⟨hlt a ha, (hagents a ha).2⟩) (ground_binary hu hv)
    ((solve_binary halternatingS halternatingT).trans hV) ?_
  rw [hm.contains_print hVU]
  exact hsub (hWset.le hs0)

end Accepted

/-- A formula for which strategies of the coalition are accepted is not lost by checking first, without the bound,
what the coalition can enforce. -/
theorem check_of_firmVerdict {source : String} {m : Model} {size : Nat} {n : Int} (hm : Prunable source m size n)
    {agents : List Nat} (hne : agents ≠ []) (hagents : ∀ a ∈ agents, 1 ≤ a ∧ (a : Int) ≤ n) {φ ψ : String}
    {f g : Formula} (hφ : Propositional φ f) (hψ : Propositional ψ g) (bound : Nat) (plans : List Plan) {body : String}
    (hbody : body ∈ ["X" ++ φ, "F" ++ φ, "G" ++ φ, φ ++ "U" ++ ψ]) :
    ∃ formula, toBranching (some (heading agents bound ++ body)) = .ok formula ∧
      ∀ reason, firmVerdict .ctl source (agents.map fun a : Nat => (a : Int)) formula plans = .ok (true, reason) →
        ∃ report, check .atl source (toAlternating (heading agents bound ++ body)) =
          .ok report ∧ report.initial? = some accepted := by
  have hlt : ∀ a ∈ agents, a < 10 ^ maxDigits := by
    intro a ha
    have hlast : (a : Int) < 10 ^ maxDigits :=
      lt_of_le_of_lt (hagents a ha).2 (Model.agentCount_lt hm.load hm.agents)
    exact_mod_cast hlast
  obtain ⟨members, hc, hmembers⟩ := positions_text hne hlt
  refine ⟨_, toBranching_heading hne bound body, fun reason h => ?_⟩
  simp only [mem_cons, not_mem_nil, or_false] at hbody
  rcases hbody with rfl | rfl | rfl | rfl
  · exact hm.accepts_temporal hne hagents hmembers hlt hc hφ (k := .next) (by decide) h
  · exact hm.accepts_temporal hne hagents hmembers hlt hc hφ (k := .eventually) (by decide) h
  · exact hm.accepts_temporal hne hagents hmembers hlt hc hφ (k := .globally) (by decide) h
  · exact hm.accepts_untl hne hagents hmembers hlt hc hφ hψ h

/-! ## Two models -/

section Rewritable

variable {source : String} {m : Model} (hm : Rewritable source m) {n : Int} (hn : 0 < n) {agents : List Int}
  (hagents : ∀ a ∈ agents, 1 ≤ a)
  (hplans : firmPlans .ctl source m (sourceNames m.graph) agents 1 plans m.graph = .ok (.ok g))
  (hcheck : checkMoves { m with graph := g } n = .ok ())

include hm hn hagents hplans hcheck

theorem Rewritable.load_firmPlans : ∃ text, withMatrix source (some g) = .ok text ∧
    Model.load .plain text = .ok { m with graph := g } := by
  have hplaces : ∀ a ∈ agents, ∃ k : Nat, a - 1 = k ∧ (k : Int) ∈ agents.map (· - 1) := by
    intro a ha
    have := hagents a ha
    exact ⟨(a - 1).toNat, by omega, mem_map.2 ⟨a, ha, by omega⟩⟩
  obtain ⟨P, -, hp⟩ := prunes_of_firmPlans hm.load hplaces hplans
  exact hm.load_withMatrix hp hn hcheck

end Rewritable

/-- The verdict on the strategy of a single agent, from what it leaves of the matrix and what is found there. -/
theorem Rewritable.firmVerdict_eq {source : String} {m : Model} (hm : Rewritable source m)
    (hcount : m.agentCount = .ok 1) (hletters : ∃ letters, m.actions [1] = .ok letters) (g : Matrix)
    (hplans : firmPlans .ctl source m (sourceNames m.graph) [1] 1 plans m.graph = .ok (.ok g))
    (hmoves : checkMoves { m with graph := g } 1 = .ok ()) (hblank : isBlankFormula formula = false) (report : Report)
    (hreport : Branching.checkModel .ctl { m with graph := g } formula = .ok report) :
    firmVerdict .ctl source [1] formula plans = .ok (if report.initial?.getD "" = accepted then (true, "")
      else (false, "Formula non soddisfatta nello stato iniziale: " ++ report.initial?.getD "")) := by
  obtain ⟨text, htext, hload⟩ := hm.load_firmPlans (by decide) (by decide) hplans hmoves
  obtain ⟨letters, hletters⟩ := hletters
  have hmatrix : firmMatrix .ctl source [1] plans = .ok (.ok g) := by
    unfold firmMatrix
    rw [hm.load]
    simp only [bind, Except.bind, hletters]
    exact hplans
  have hcheck : Branching.check .ctl text formula = .ok report :=
    (Branching.check_of_load hload hblank).trans hreport
  unfold firmVerdict
  rw [hm.load]
  simp only [bind, Except.bind, hmatrix, hcount, hmoves, htext, hcheck]
  split <;> rfl

/-- The text of a model with one agent and two states; `A` changes the state, idling does not. -/
def toggleText : String :=
  "Transition\nI A\nA I\nUnkown_Transition_by\nName_State\ns0 s1\nInitial_State\ns0\n" ++
    "Atomic_propositions\np q untilq\nLabelling\n0 1 0\n1 0 0\nNumber_of_agents\n1\n"

def toggle : Model where
  graph := [[.text "I", .text "A"], [.text "A", .text "I"]]
  states := ["s0", "s1"]
  props := ["p", "q", "untilq"]
  labels := [[.num 0, .num 1, .num 0], [.num 1, .num 0, .num 0]]
  initial := "s0"
  agents := .number 1

def toggleLines : List String :=
  ["Transition", "I A", "A I", "Unkown_Transition_by", "Name_State", "s0 s1", "Initial_State", "s0",
    "Atomic_propositions", "p q untilq", "Labelling", "0 1 0", "1 0 0", "Number_of_agents", "1"]

theorem toggle_lines : trimmedLines toggleText = toggleLines := by
  have htext : toggleText = String.join (toggleLines.map (· ++ "\n")) := by decide +kernel
  rw [htext]
  exact trimmedLines_join (by decide)

theorem toggle_load : load .plain toggleText = .ok toggle :=
  load_of_lines toggle_lines (by decide) (by decide) (by decide)

theorem toggle_prunable : Prunable toggleText toggle 2 1 where
  load := toggle_load
  layout := by
    refine ⟨[], ["I A", "A I"], _, ⟨toggle_lines, ?_, ?_, ?_, ?_⟩, ?_⟩
    · decide
    · decide
    · decide
    · rintro line hline
      cases hline
      decide
    · rintro line hline
      cases hline
      rfl
  moves := by decide
  states := by decide
  initial := rfl
  rows := rfl
  cells := by decide
  agents := rfl
  stars := by decide

def alternate : List Plan := [some [⟨"T", "A"⟩]]

theorem toggle_actions : toggle.actions [1] = .ok [("agent1", ["A"])] := by decide +kernel

theorem toggle_firmVerdict (hblank : isBlankFormula formula = false)
    (hreport : Branching.checkModel .ctl { toggle with graph := [[.zero, .text "A"], [.text "A", .zero]] } formula =
      .ok ⟨"Result: \x7b's0'\x7d", some accepted⟩) :
    firmVerdict .ctl toggleText [1] formula alternate = .ok (true, "") :=
  toggle_prunable.toRewritable.firmVerdict_eq rfl ⟨_, toggle_actions⟩ _ (by decide) (by decide) hblank _ hreport

theorem propositional_p : Propositional "p" (.atom "p") where
  chars := by decide
  alike := by decide
  reads := by rfl

theorem check_of_firmVerdict_toggle :
    firmVerdict .ctl toggleText [1] "AXp" alternate = .ok (true, "") ∧
      ∃ report, check .atl toggleText (toAlternating "<\x7b1\x7d,3>Xp") = .ok report ∧
        report.initial? = some accepted := by
  have haccept : firmVerdict .ctl toggleText [1] "AXp" alternate = .ok (true, "") :=
    toggle_firmVerdict (by decide) (by decide +kernel)
  have hne : [1] ≠ ([] : List Nat) := by decide
  have hbody : "Xp" ∈ ["X" ++ "p", "F" ++ "p", "G" ++ "p", "p" ++ "U" ++ "p"] := by decide
  obtain ⟨formula, hformula, hcheck⟩ := check_of_firmVerdict toggle_prunable hne (by decide) propositional_p
    propositional_p 3 alternate hbody
  have hbranching : toBranching (some (heading [1] 3 ++ "Xp")) = .ok "AXp" :=
    by decide
  cases hbranching.symm.trans hformula
  exact ⟨haccept, hcheck "" haccept⟩

/-- An atom that begins with a word of branching time is lost there, and the strategy is accepted for the rest. -/
theorem firmVerdict_keyword_toggle :
    toBranching (some "<\x7b1\x7d,3>Funtilq") = .ok "AFuntilq" ∧
      firmVerdict .ctl toggleText [1] "AFuntilq" alternate = .ok (true, "") ∧
      check .atl toggleText (toAlternating "<\x7b1\x7d,3>Funtilq") =
        .ok ⟨"Result: set()", some "Initial state s0: False"⟩ := by
  refine ⟨by decide +kernel, ?_, ?_⟩
  · exact toggle_firmVerdict (by decide) (by decide +kernel)
  · unfold check
    decide +kernel

end Arena.Natural.Pruning
