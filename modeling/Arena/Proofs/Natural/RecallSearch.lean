/-
What a search with recall finds. A profile is accepted exactly if its rules are admitted and the tree that they leave
passes a test: that a formula on the next step holds at all children of the root, one on every step at all nodes, and
for one on some step only that its atoms are known. So the coalition need not be able to enforce what is found.
-/
import Arena.Proofs.Natural.MemorylessSearch
import Arena.Proofs.Natural.Recall

namespace Arena.Natural

open Heading Unfolding Pruning Natural.Task Model

variable {α β : Type} {m m' : Model} {formula source : String} {t : Task} {d d' : Draws} {tree : Unfolding}
  {accepts : Task → List Plan → Step (Option Bool)} {k : Formula.TokenKind} {s : Strategy} {φ : String} {f : Formula}
  {o : String} {e : Fault} {x : Model} {a : α}

def Task.withRecall (source formula : String) : Outcome Task := do
  let m ← load .plain source
  start (fun m => do
    let n ← m.agentCount
    m.graph.checkIdle n
    m.graph.checkTree n) m formula

namespace Recall

open Checker

/-! ## Searches -/

/-- The strategies of the agents at a complexity, which the draws determine. -/
def strategiesDrawn (t : Task) (i : Int) : Drawing (List (List Strategy)) := do
  let guards ← Guard.expressions i t.model.props
  let (found, _) ← stagesFrom Guard.storyComplexity i 0 (ruleTable t.actionLists guards)
    (List.replicate t.agents.length [])
  return found

namespace Searching

/-- Two computations that agree from every model with a property, and leave such a model and a value with another one
when they succeed. -/
def Agree (J : Model → Prop) (Q : α → Prop) (x y : Searching α) : Prop :=
  ∀ m, J m → ∀ d, (x.run m).run.run d = (y.run m).run.run d ∧
    ∀ a m' d', (x.run m).run.run d = (.ok (a, m'), d') → J m' ∧ Q a

variable {J : Model → Prop} {Q : α → Prop} {R : β → Prop}

theorem agree_refl {x : Searching α}
    (h : ∀ m, J m → ∀ d a m' d', (x.run m).run.run d = (.ok (a, m'), d') → J m' ∧ Q a) : Agree J Q x x :=
  fun m hm d => ⟨rfl, h m hm d⟩

theorem agree_any (x : Searching α) : Agree (fun _ => True) (fun _ => True) x x :=
  agree_refl fun _ _ _ _ _ _ _ => ⟨trivial, trivial⟩

section Bind

variable {x : Searching α} {k : α → Searching β}

theorem bind_ok (h : (x.run m).run.run d = (.ok (a, m'), d')) :
    ((x >>= k).run m).run.run d = ((k a).run m').run.run d' := Arena.run_bind_ok h

theorem bind_error (h : (x.run m).run.run d = (.error e, d')) : ((x >>= k).run m).run.run d = (.error e, d') :=
  Arena.run_bind_error h

theorem exists_run_bind {b : β} (h : ((x >>= k).run m).run.run d = (.ok (b, m'), d')) :
    ∃ a m₁ d₁, (x.run m).run.run d = (.ok (a, m₁), d₁) ∧ ((k a).run m₁).run.run d₁ = (.ok (b, m'), d') := by
  obtain ⟨⟨a, m₁⟩, d₁, hx, hk⟩ := run_bind_eq_ok h
  exact ⟨a, m₁, d₁, hx, hk⟩

theorem run'_bind_congr {l : α → Searching β}
    (h : ∀ {a m' d d'}, (x.run m).run.run d = (.ok (a, m'), d') → ((k a).run m').run.run d' = ((l a).run m').run.run d') :
    (x >>= k).run' m = (x >>= l).run' m := by
  refine congrArg (Prod.fst <$> ·) (funext fun d => ?_ : (x >>= k).run m = (x >>= l).run m)
  rcases hx : (x.run m).run.run d with ⟨r, d'⟩
  cases r with
  | error e => exact (bind_error hx).trans (bind_error hx).symm
  | ok r => exact (bind_ok hx).trans ((h hx).trans (bind_ok hx).symm)

end Bind

theorem run_get (m : Model) (d : Draws) : ((get : Searching Model).run m).run.run d = (.ok (m, m), d) := rfl

theorem agree_pure (ha : Q a) : Agree J Q (pure a) (pure a) := by
  intro m hm d
  refine ⟨rfl, fun b m' d' h => ?_⟩
  cases h
  exact ⟨hm, ha⟩

theorem Agree.bind {x y : Searching α} {k k' : α → Searching β} (h : Agree J Q x y)
    (hk : ∀ a, Q a → Agree J R (k a) (k' a)) : Agree J R (x >>= k) (y >>= k') := by
  intro m hm d
  obtain ⟨heq, hpost⟩ := h m hm d
  rcases hx : (x.run m).run.run d with ⟨r, d₁⟩
  cases r with
  | error e =>
    rw [bind_error hx, bind_error (heq ▸ hx)]
    refine ⟨rfl, fun b m' d' hb => ?_⟩
    cases hb
  | ok am =>
    obtain ⟨a, m₁⟩ := am
    obtain ⟨hm₁, ha⟩ := hpost a m₁ d₁ hx
    rw [bind_ok hx, bind_ok (heq ▸ hx)]
    exact hk a ha m₁ hm₁ d₁

theorem Agree.climb {level level' : Int → Searching (Option α)} {Q : Option α → Prop} (hnone : Q none)
    (h : ∀ i, Agree J Q (level i) (level' i)) : ∀ (n : Nat) (i : Int), Agree J Q (climb level n i) (climb level' n i)
  | 0, i => agree_pure hnone
  | n + 1, i => by
    refine (h i).bind fun a ha => ?_
    cases a with
    | none => exact Agree.climb hnone h n (i + 1)
    | some a => exact agree_pure ha

theorem Agree.examine {test test' : Profile → Searching (Option α)} {Q : Option α → Prop} (hnone : Q none)
    (h : ∀ p, Agree J Q (test p) (test' p)) :
    ∀ (sss : List (List Strategy)) (chosen : Profile), Agree J Q (examine test sss chosen) (examine test' sss chosen)
  | [], chosen => by
    rw [Natural.examine, Natural.examine]
    exact h chosen.reverse
  | ss :: rest, chosen => by
    rw [Natural.examine, Natural.examine]
    induction ss with
    | nil =>
      rw [examine.go, examine.go]
      exact agree_pure hnone
    | cons s more ih =>
      rw [examine.go, examine.go]
      refine (Agree.examine hnone h rest (s :: chosen)).bind fun a ha => ?_
      cases a with
      | none => exact ih
      | some a => exact agree_pure ha

theorem run_lift (x : Drawing α) (m : Model) (d : Draws) : ((liftM x : Searching α).run m).run.run d =
    ((x.run.run d).1.map fun a => (a, m), (x.run.run d).2) := by
  change ((x >>= fun a => pure (a, m) : Drawing (α × Model)).run).run d = _
  rw [ExceptT.run_bind, StateT.run_bind]
  rcases x.run.run d with ⟨r, d₁⟩
  cases r <;> rfl

theorem agree_lift (x : Drawing α) : Agree J (fun _ => True) (liftM x : Searching α) (liftM x) := by
  refine agree_refl fun m hm d a m' d' h => ?_
  rw [run_lift] at h
  rcases hx : x.run.run d with ⟨r, d₁⟩
  rw [hx] at h
  cases r with
  | error e => cases h
  | ok b =>
    cases h
    exact ⟨hm, trivial⟩

theorem strategiesAt_eq (t : Task) (i : Int) : strategiesAt t i = liftM (strategiesDrawn t i) := by
  simp only [strategiesDrawn, liftM_bind]
  rfl

theorem run_strategiesAt {i : Int} {ss : List (List Strategy)} (h : (strategiesDrawn t i).run.run d = (.ok ss, d'))
    (x : Model) : ((strategiesAt t i).run x).run.run d = (.ok (ss, x), d') := by
  rw [strategiesAt_eq, run_lift, h]
  rfl

theorem agree_strategiesAt (t : Task) (i : Int) : Agree J (fun _ => True) (strategiesAt t i) (strategiesAt t i) := by
  rw [strategiesAt_eq]
  exact agree_lift _

theorem run_unfold (height : Int) (m : Model) (d : Draws) : ((unfold height).run m).run.run d =
    ((ofModel m m.states height).map fun t => (t, m), d) := by
  unfold unfold
  rw [bind_ok (run_get m d), bind_ok (run_get m d)]
  cases ofModel m m.states height <;> rfl

theorem run_unfold_eq_ok {height : Int} (h : ((unfold height).run m).run.run d = (.ok (tree, m'), d')) :
    ofModel m m.states height = .ok tree ∧ m' = m ∧ d' = d := by
  rw [run_unfold] at h
  cases ht : ofModel m m.states height with
  | error e =>
    rw [ht] at h
    cases h
  | ok t =>
    rw [ht] at h
    cases h
    exact ⟨rfl, rfl, rfl⟩

theorem agree_unfold (props : List String) : Agree (fun m => m.Regular ∧ m.props = props)
    (fun t => t.Grown props 3 ∧ t.state = "s0") (unfold 4) (unfold 4) := by
  refine agree_refl fun m hm d t m' d' h => ?_
  obtain ⟨ht, rfl, -⟩ := run_unfold_eq_ok h
  exact ⟨hm, hm.2 ▸ grown_build hm.1 hm.1.first ht⟩

theorem run_onTree_ok {step : Step α} {s : Scene} (h : step.run.run ⟨m, tree⟩ = (.ok a, s)) (d : Draws) :
    ((onTree tree step).run m).run.run d = (.ok ((a, s.tree), s.model), d) := by
  unfold onTree
  rw [bind_ok (run_get m d)]
  simp only [h]
  rfl

theorem run_onTree_error {step : Step α} {s : Scene} (h : step.run.run ⟨m, tree⟩ = (.error e, s))
    (d : Draws) : ((onTree tree step).run m).run.run d = (.error e, d) := by
  unfold onTree
  rw [bind_ok (run_get m d)]
  simp only [h]
  rfl

theorem agree_onTree {step step' : Step α} (h : ∀ m, J m → step.run.run ⟨m, tree⟩ = step'.run.run ⟨m, tree⟩)
    (hpost : ∀ m, J m → ∀ a s, step'.run.run ⟨m, tree⟩ = (.ok a, s) → J s.model) :
    Agree J (fun _ => True) (onTree tree step) (onTree tree step') := by
  intro m hm d
  rcases hstep : step'.run.run ⟨m, tree⟩ with ⟨r, s⟩
  have hstep' := (h m hm).trans hstep
  cases r with
  | error e =>
    rw [run_onTree_error hstep, run_onTree_error hstep']
    refine ⟨rfl, fun a m' d' heq => ?_⟩
    cases heq
  | ok a =>
    rw [run_onTree_ok hstep, run_onTree_ok hstep']
    refine ⟨rfl, fun b m' d' heq => ?_⟩
    cases heq
    exact ⟨hpost m hm a s hstep, trivial⟩

theorem agree_search {props : List String} (t : Task)
    {test test' : Unfolding → Int → Profile → Searching (Option Finding)}
    (h : ∀ tree : Unfolding, tree.Grown props 3 → tree.state = "s0" → ∀ i p,
      Agree (fun m => m.Regular ∧ m.props = props) (fun _ => True) (test tree i p) (test' tree i p)) :
    Agree (fun m => m.Regular ∧ m.props = props) (fun _ => True) (search t 4 test) (search t 4 test') := by
  refine Agree.bind (Agree.climb (Q := fun _ => True) trivial (fun i => ?_) _ _) fun found _ => ?_
  · refine (agree_unfold props).bind fun tree htree => (agree_strategiesAt t i).bind fun strategies _ => ?_
    exact Agree.examine (Q := fun _ => True) trivial (fun p => h tree htree.1 htree.2 i p) strategies []
  · cases found with
    | none => exact agree_pure trivial
    | some f => exact agree_pure trivial

theorem run_examine {test : Profile → Searching (Option α)} (h : ((test [s]).run m).run.run d = (.ok (some a, m'), d'))
    (more : List Strategy) : ((examine test [s :: more] []).run m).run.run d = (.ok (some a, m'), d') := by
  rw [examine, examine.go, examine, List.reverse_singleton, bind_ok h]
  rfl

end Searching

/-- The search for a profile that a step accepts. -/
def searchBy (source formula : String) (accepts : Task → List Plan → Step (Option Bool)) : Searching Finding := do
  let t ← task source formula
  search t 4 fun tree i p => do
    let (holds, _) ← onTree tree (accepts t (p.map some))
    if holds != some true then return none
    return some { satisfied := .bool true, bound? := some i, profile? := some p }

theorem run_searchBy {x m₁ m₂ : Model} {d₁ d₂ d₃ : Draws}
    (htask : ((task source formula).run x).run.run d = (.ok (t, m), d₁)) {n : Nat} (hbound : t.bound.toNat = n + 1)
    (htree : ((unfold 4).run m).run.run d₁ = (.ok (tree, m₁), d₂)) {more : List Strategy}
    (hstrategies : ((strategiesAt t 1).run m₁).run.run d₂ = (.ok ([s :: more], m₂), d₃)) {scene : Scene}
    (haccepts : (accepts t [some s]).run.run ⟨m₂, tree⟩ = (.ok (some true), scene)) :
    ((searchBy source formula accepts).run x).run.run d =
      (.ok ({ satisfied := .bool true, bound? := some 1, profile? := some [s] }, scene.model), d₃) := by
  unfold searchBy
  rw [Searching.bind_ok htask]
  unfold search
  dsimp only
  rw [hbound, climb, bind_assoc, bind_assoc, Searching.bind_ok htree, bind_assoc, Searching.bind_ok hstrategies]
  refine (Searching.bind_ok (Searching.run_examine ?_ more)).trans rfl
  exact (Searching.bind_ok (Searching.run_onTree_ok haccepts d₃)).trans rfl

/-- The search for a profile under which the pruned tree passes a test. -/
def findByTest (test : Unfolding → Bool) (source formula : String) : Drawing Finding :=
  (searchBy source formula fun _ => testVerdict ⟨.ctl, source, none⟩ 4 test).run' {}

section Find

open Searching

theorem task_eq (source formula : String) : task source formula = do
    let t ← (liftM (withRecall source formula) : Searching Task)
    set t.model
    return t := rfl

theorem run_task_withRecall (ht : withRecall source formula = .ok t) (x : Model) (d : Draws) :
    ((task source formula).run x).run.run d = (.ok (t, t.model), d) := by
  rw [task_eq, ht]
  rfl

theorem of_run_task (h : ((task source formula).run x).run.run d = (.ok (t, m'), d')) :
    withRecall source formula = .ok t ∧ m' = t.model := by
  cases ht : withRecall source formula with
  | error e =>
    rw [task_eq, ht] at h
    cases h
  | ok t' =>
    rw [run_task_withRecall ht] at h
    cases h
    exact ⟨rfl, rfl⟩

theorem run_task (hload : load .plain source = .ok m)
    (h : ((task source formula).run x).run.run d = (.ok (t, m'), d')) :
    m' = m ∧ toBranching (some formula) = .ok t.formula := by
  obtain ⟨ht, rfl⟩ := of_run_task h
  obtain ⟨m₁, hm, hstart⟩ := bind_eq_ok.1 ht
  cases hload.symm.trans hm
  exact ⟨(of_start hstart).1, (of_start hstart).2.1⟩

variable (h : Stage source m)

include h

theorem agree_verdict (htree : tree.Grown m.props 3) (hroot : tree.state = "s0")
    (ho : (o, k) ∈ temporal) (hφ : Propositional φ f) (plans : List Plan) :
    Searching.Agree (fun x => x.Regular ∧ x.props = m.props) (fun _ => True)
      (onTree tree (verdict ⟨.ctl, source, none⟩ 4 ("A" ++ o ++ φ) plans))
      (onTree tree (testVerdict ⟨.ctl, source, none⟩ 4 (passes m.props o f) plans)) := by
  have hset : Stage (Setting.source ⟨.ctl, source, none⟩) m := h
  have hs : ∀ x : Model, x.Regular ∧ x.props = m.props → Staged m.props ⟨x, tree⟩ := fun x hx =>
    ⟨htree, hroot, hx.1, hx.2⟩
  refine agree_onTree (fun x hx => ?_) fun x hx a s hrun => ?_
  · exact run_verdict hset (hs x hx) rfl 4 (by decide) ho hφ plans
  · have hstaged := staged_testVerdict hset (hs x hx) 4 (by decide) hrun
    exact ⟨hstaged.model, hstaged.known⟩

/-- A search for a profile under which a formula over all paths holds is a search in the pruned trees themselves. -/
theorem find_eq_findByTest {agents : List Nat} (hne : agents ≠ []) (bound : Nat)
    (ho : (o, k) ∈ temporal) (hφ : Propositional φ f) :
    find .ctl source (heading agents bound ++ (o ++ φ)) =
      findByTest (passes m.props o f) source (heading agents bound ++ (o ++ φ)) := by
  have hstart : toBranching (some (heading agents bound ++ (o ++ φ))) =
      .ok ("A" ++ o ++ Text.trimRight φ) := by
    obtain ⟨⟨c, hlast, hblank⟩, -⟩ := temporal_spec ho
    rw [toBranching_heading hne, Text.trimRight_append hlast hblank, String.append_assoc]
  refine run'_bind_congr fun {t m₁ d d₁} htask => ?_
  obtain ⟨rfl, hformula⟩ := run_task h.load htask
  rw [← Except.ok.inj (hstart.symm.trans hformula)]
  refine (agree_search t (fun tree htree hroot i p => ?_) m₁ ⟨h.regular, rfl⟩ d₁).1
  refine (agree_verdict h htree hroot ho hφ.trimRight _).bind fun holds _ => ?_
  dsimp only
  split
  · exact agree_pure trivial
  · exact agree_pure trivial

end Find

end Recall

/-! ## Filtered searches -/

theorem outcome_bind_ok {x : Outcome α} (h : x = .ok a) (k : α → Drawing β) (d : Draws) :
    ((liftM x : Drawing α) >>= k).outcome d = (k a).outcome d := by
  rw [h]
  rfl

theorem outcome_findFiltered {reader : Formula.Logic} {report : Checker.Report}
    (hblank : Checker.isBlankFormula (toAlternating formula) = false)
    (h : Checker.Alternating.check reader source (toAlternating formula) = .ok report)
    (find : Drawing Finding) (d : Draws) :
    (findFiltered reader source formula find).outcome d =
      if report.initial? = some accepted then find.outcome d else .ok { satisfied := .bool false } := by
  have hcheck := h
  unfold Checker.Alternating.check at hcheck
  rw [if_neg (by simp [hblank])] at hcheck
  obtain ⟨m, hload, hcheck⟩ := bind_eq_ok.1 hcheck
  obtain ⟨agents, hagents, hcheck⟩ := bind_eq_ok.1 hcheck
  obtain ⟨f?, hparse, -⟩ := bind_eq_ok.1 hcheck
  refine (outcome_bind_ok hload _ d).trans ((outcome_bind_ok hagents _ d).trans ((outcome_bind_ok hparse _ d).trans
    ((outcome_bind_ok h _ d).trans ?_)))
  split
  · rfl
  · rfl

namespace Recall

open Checker Searching

theorem outcome_run' (x : Searching α) (m : Model) (d : Draws) :
    Drawing.outcome (x.run' m) d = ((x.run m).run.run d).1.map Prod.fst := by
  change ((Prod.fst <$> x.run m : Drawing α).run.run d).1 = _
  rw [ExceptT.run_map, StateT.run_map]
  rcases (x.run m).run.run d with ⟨r, d'⟩
  cases r <;> rfl

theorem satisfied_of_searchBy {finding : Finding}
    (h : Drawing.outcome ((searchBy source formula accepts).run' {}) d = .ok finding) :
    finding.satisfied = .bool true ∨ finding.satisfied = .bool false := by
  have hsearch : Searching.Agree (fun _ => True)
      (fun f : Finding => f.satisfied = .bool true ∨ f.satisfied = .bool false)
      (searchBy source formula accepts) (searchBy source formula accepts) := by
    refine (agree_any _).bind fun t _ => Searching.Agree.bind (Q := fun found => ∀ f ∈ found, f.satisfied = .bool true)
      (Searching.Agree.climb (by simp) (fun i => (agree_any _).bind fun tree _ => (agree_any _).bind fun strategies _ =>
        Searching.Agree.examine (by simp) (fun p => (agree_any _).bind fun holds _ => ?_) strategies []) _ _)
        fun found hfound => ?_
    · dsimp only
      split
      · exact agree_pure (by simp)
      · exact agree_pure (by simp)
    · cases found with
      | none => exact agree_pure (.inr rfl)
      | some f => exact agree_pure (.inl (hfound f rfl))
  rw [outcome_run'] at h
  rcases hrun : ((searchBy source formula accepts).run {}).run.run d with ⟨r, d'⟩
  rw [hrun] at h
  cases r with
  | error e => cases h
  | ok a =>
    cases h
    exact ((hsearch {} trivial d).2 a.1 a.2 d' hrun).2

/-! ## A model -/

/-- The text of a model with one agent and two states, in neither of which `p` holds. -/
def barrenLayout : Layout where
  front := []
  rows := ["I A", "A I"]
  unknown := []
  names := ["s0 s1"]
  middle := ["s0", "Atomic_propositions", "p"]
  labels := ["0", "0"]
  back := ["1"]

def barren : Model where
  graph := [[.text "I", .text "A"], [.text "A", .text "I"]]
  states := ["s0", "s1"]
  props := ["p"]
  labels := [[.num 0], [.num 0]]
  initial := "s0"
  agents := .number 1

theorem barren_load : load .plain barrenLayout.text = .ok barren := load_join (by decide) (by decide)

theorem stage_barren : Stage barrenLayout.text barren := ⟨⟨barrenLayout, by decide, rfl⟩, barren_load, by decide, rfl⟩

def barrenTask : Task := ⟨barren, "AFp", 1, [1], [("actions_agent1", ["A"])]⟩

theorem withRecall_barren : withRecall barrenLayout.text "<\x7b1\x7d,1>Fp" = .ok barrenTask := by
  have hactions : barren.actions [1] = .ok [("agent1", ["A"])] := by decide +kernel
  exact bind_eq_ok.2 ⟨barren, barren_load, start_eq (by decide) hactions (by decide)⟩

theorem run_strategiesAt_barren (x : Model) :
    ((strategiesAt barrenTask 1).run x).run.run {} = (.ok ([[[⟨"p", "A"⟩]]], x), {}) :=
  run_strategiesAt (Prod.ext (by decide +kernel) (by decide +kernel)) x

theorem exists_testVerdict_barren : ∃ tree s, ofModel barren barren.states 4 = .ok tree ∧
    (testVerdict ⟨.ctl, barrenLayout.text, none⟩ 4 (passes barren.props "F" (.atom "p"))
      [some [⟨"p", "A"⟩]]).run.run ⟨barren, tree⟩ = (.ok (some true), s) := by
  obtain ⟨tree, left, htree, happly, -⟩ := exists_applyPlans ⟨.ctl, barrenLayout.text, none⟩ barren 4
    [some [⟨"p", "A"⟩]] (fun _ _ => true) (by decide +kernel)
  obtain ⟨hgrown, hroot⟩ := grown_build stage_barren.regular stage_barren.regular.first htree
  have hscene : Staged barren.props ⟨barren, tree⟩ := ⟨hgrown, hroot, stage_barren.regular, rfl⟩
  have hstage : Stage (Setting.source ⟨.ctl, barrenLayout.text, none⟩) barren := stage_barren
  obtain ⟨x, hrun⟩ := run_testVerdict hstage hscene 4 (by decide) happly rfl _
  exact ⟨tree, _, htree, hrun⟩

theorem heading_barren : heading [1] 1 ++ ("F" ++ "p") = "<\x7b1\x7d,1>Fp" := by decide

theorem find_barren : (find .ctl barrenLayout.text "<\x7b1\x7d,1>Fp").outcome {} =
    .ok { satisfied := .bool true, bound? := some 1, profile? := some [[⟨"p", "A"⟩]] } := by
  obtain ⟨tree, s, htree, hverdict⟩ := exists_testVerdict_barren
  have hunfold : ((unfold 4).run barren).run.run {} = (.ok (tree, barren), {}) := by
    rw [run_unfold, htree]
    rfl
  have hrun : ((searchBy barrenLayout.text "<\x7b1\x7d,1>Fp" fun _ => testVerdict ⟨.ctl, barrenLayout.text, none⟩ 4
      (passes barren.props "F" (.atom "p"))).run {}).run.run {} =
      (.ok ({ satisfied := .bool true, bound? := some 1, profile? := some [[⟨"p", "A"⟩]] }, s.model), {}) :=
    run_searchBy (run_task_withRecall withRecall_barren {} {}) (n := 0) rfl hunfold (run_strategiesAt_barren barren) hverdict
  have hne : [1] ≠ ([] : List Nat) := by decide
  have hfind := find_eq_findByTest stage_barren hne 1 (o := "F") (k := .eventually) (by decide) propositional_p
  rw [heading_barren] at hfind
  rw [hfind, findByTest, outcome_run', hrun]
  rfl

theorem check_barren : Alternating.check .atl barrenLayout.text (toAlternating "<\x7b1\x7d,1>Fp") =
    .ok ⟨"Result: set()", some "Initial state s0: False"⟩ := by
  unfold Alternating.check
  rw [barren_load]
  decide

/-! ## What is found -/

/-- The search finds what the tree that rules leave passes, and a search that is filtered by what the coalition can
enforce reports the same just if the coalition can enforce what is found. -/
theorem find_temporal {source : String} {m : Model} (h : Stage source m) {agents : List Nat} (hne : agents ≠ [])
    (bound : Nat) {o : String} {k : Formula.TokenKind} (ho : (o, k) ∈ temporal) {φ : String} {f : Formula}
    (hφ : Propositional φ f) {formula : String} (hformula : formula = heading agents bound ++ (o ++ φ)) :
    find .ctl source formula = findByTest (Unfolding.passes m.props o f) source formula ∧
      ∀ d finding report, (find .ctl source formula).outcome d = .ok finding →
        Alternating.check .atl source (toAlternating formula) = .ok report →
        ∃ filtered, (findFiltered .atl source formula (find .ctl source formula)).outcome d = .ok filtered ∧
          (filtered.satisfied = finding.satisfied ↔
            (finding.satisfied = .bool true → report.initial? = some Pruning.accepted)) := by
  subst hformula
  refine ⟨find_eq_findByTest h hne bound ho hφ, fun d finding report hfinding hreport => ?_⟩
  obtain ⟨-, hopen⟩ := Pruning.temporal_spec ho
  have hblank : isBlankFormula (toAlternating (heading agents bound ++ (o ++ φ))) = false := by
    rw [toAlternating_heading hne bound (by simpa [hopen] using Pruning.not_mem_chars hφ)]
    exact isBlankFormula_coalition agents _
  have hfiltered := outcome_findFiltered hblank hreport
    (find .ctl source (heading agents bound ++ (o ++ φ))) d
  split at hfiltered
  · rename_i haccept
    exact ⟨finding, hfiltered.trans hfinding, fun _ _ => haccept, fun _ => rfl⟩
  · rename_i hreject
    refine ⟨_, hfiltered, ?_⟩
    rcases satisfied_of_searchBy hfinding with htrue | hfalse
    · simp [htrue, hreject]
    · simp [hfalse]

theorem find_temporal_barren : find .ctl barrenLayout.text "<\x7b1\x7d,1>Fp" =
      findByTest (Unfolding.passes ["p"] "F" (.atom "p")) barrenLayout.text "<\x7b1\x7d,1>Fp" ∧
    ∃ filtered, (findFiltered .atl barrenLayout.text "<\x7b1\x7d,1>Fp"
        (find .ctl barrenLayout.text "<\x7b1\x7d,1>Fp")).outcome {} = .ok filtered ∧
      filtered.satisfied ≠ .bool true := by
  have hne : [1] ≠ ([] : List Nat) := by decide
  obtain ⟨hfind, hfiltered⟩ := find_temporal stage_barren hne 1 (o := "F") (k := .eventually) (by decide)
    Pruning.propositional_p heading_barren.symm
  obtain ⟨filtered, houtcome, hsame⟩ := hfiltered {} _ _ find_barren check_barren
  refine ⟨hfind, filtered, houtcome, fun htrue => ?_⟩
  have haccept := hsame.1 htrue rfl
  exact absurd haccept (by decide)

/-- In a model without `p` a rule is found under which `p` holds some time on all paths of the tree, of which there are
none; the coalition cannot enforce it. -/
theorem find_ne_findFiltered :
    (find .ctl barrenLayout.text "<\x7b1\x7d,1>Fp").outcome {} =
        .ok { satisfied := .bool true, bound? := some 1, profile? := some [[⟨"p", "A"⟩]] } ∧
      (findFiltered .atl barrenLayout.text "<\x7b1\x7d,1>Fp"
        (find .ctl barrenLayout.text "<\x7b1\x7d,1>Fp")).outcome {} = .ok { satisfied := .bool false } := by
  refine ⟨find_barren, ?_⟩
  rw [outcome_findFiltered (by decide) check_barren]
  rfl

end Recall

end Arena.Natural
