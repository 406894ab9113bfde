/-
How universal agents answer on a tree. Each of their profiles prunes, unmarks and renames the tree that the next one is
tried on, so a tree stands against the answers just if each profile is accepted in the scene that those before it have
left. That is the same as on the given tree only where the trials leave it.
-/
import Arena.Natural.Quantified
import Arena.Proofs.Natural.Completeness
import Arena.Proofs.Natural.RecallLevels
import Arena.Proofs.Natural.RecallOffers

namespace Arena.Natural.Quantified

open Recall Drawing Searching Unfolding List Model Natural.Task Formula

variable {p : Profile} {tree : Unfolding} {action source formula : String} {states : Names} {s s' : Scene} {index : Int}
  {m : Model} {t : Task}

/-! ## Trials -/

/-- What trying a profile in a scene comes to: whether the formula of a task holds in the pruned tree, and the scene
that is left. -/
def trial (source : String) (t : Task) (p : Profile) (s : Scene) : Outcome (Bool × Scene) :=
  match (verdict (setting source) height t.formula (p.map some)).run.run s with
  | (.ok holds, s') => .ok (holds == some true, s')
  | (.error f, _) => .error f

def Accepts (source : String) (t : Task) (p : Profile) (s : Scene) : Prop := ∃ s', trial source t p s = .ok (true, s')

/-- Tries profiles in turn, each in the scene that the one before it has left, until one is not accepted. -/
def inTurn (source : String) (t : Task) : List Profile → Scene → Outcome (Bool × Scene)
  | [], s => .ok (true, s)
  | p :: ps, s => do
    let (accepted, s) ← trial source t p s
    if accepted then inTurn source t ps s else return (false, s)

/-- Profiles that are accepted in turn, each in the scene that the one before it has left. -/
inductive Stands (source : String) (t : Task) : List Profile → Scene → Prop
  | nil (s : Scene) : Stands source t [] s
  | cons {p : Profile} {ps : List Profile} {s s' : Scene} (accepted : trial source t p s = .ok (true, s'))
      (rest : Stands source t ps s') : Stands source t (p :: ps) s

theorem run_test (source : String) (t : Task) (tree : Unfolding) (p : Profile) (x : Model) (d : Draws) :
    ((test source t tree p).run x).run.run d =
      ((trial source t p ⟨x, tree⟩).map fun r => ((r.1, r.2.tree), r.2.model), d) := by
  unfold test trial
  rcases hrun : (verdict (setting source) height t.formula (p.map some)).run.run ⟨x, tree⟩ with ⟨r, s⟩
  cases r with
  | error f => exact bind_error (run_onTree_error hrun d)
  | ok holds => exact bind_ok (run_onTree_ok hrun d)

theorem inTurn_accepted (h : trial source t p s = .ok (true, s')) (ps : List Profile) :
    inTurn source t (p :: ps) s = inTurn source t ps s' := by
  rw [inTurn, h]
  rfl

theorem inTurn_rejected (h : trial source t p s = .ok (false, s')) (ps : List Profile) :
    inTurn source t (p :: ps) s = .ok (false, s') := by
  rw [inTurn, h]
  rfl

theorem inTurn_append (qs : List Profile) : ∀ (ps : List Profile) (s : Scene), inTurn source t (ps ++ qs) s = do
    let r ← inTurn source t ps s
    if r.1 then inTurn source t qs r.2 else return r
  | [], s => rfl
  | p :: ps, s => by
    rw [cons_append, inTurn, inTurn, bind_assoc]
    refine bind_congr fun r => ?_
    obtain ⟨accepted, s'⟩ := r
    cases accepted with
    | true => exact inTurn_append qs ps s'
    | false => rfl

theorem exists_inTurn_iff : ∀ {ps : List Profile} {s : Scene},
    (∃ s', inTurn source t ps s = .ok (true, s')) ↔ Stands source t ps s
  | [], s => ⟨fun _ => .nil s, fun _ => ⟨s, rfl⟩⟩
  | p :: ps, s => by
    constructor
    · rintro ⟨s', h⟩
      obtain ⟨⟨accepted, s₁⟩, htrial, h⟩ := bind_eq_ok.1 h
      cases accepted with
      | false => cases h
      | true => exact .cons htrial (exists_inTurn_iff.1 ⟨s', h⟩)
    · rintro (_ | ⟨htrial, hrest⟩)
      obtain ⟨s', hs'⟩ := exists_inTurn_iff.2 hrest
      exact ⟨s', bind_eq_ok.2 ⟨_, htrial, hs'⟩⟩

/-! ## Profiles that read the model -/

/-- A step that does not depend on the model that was read last. -/
def Fresh {α : Type} (x : Step α) : Prop := ∀ m m' tree, x.run.run ⟨m, tree⟩ = x.run.run ⟨m', tree⟩

theorem fresh_read (source : String) : Fresh (Step.read source) := fun _ _ _ => rfl

theorem Fresh.bind {α β : Type} {x : Step α} (h : Fresh x) (k : α → Step β) : Fresh (x >>= k) := by
  intro m m' tree
  rw [ExceptT.run_bind, StateT.run_bind, h m m' tree]
  rfl

/-- A profile whose first rule has a condition on one state: the model is read before anything else happens. A rule with
a story would look at the model that was read last, which may be one that an earlier trial has left. -/
def Plain (p : Profile) : Prop := ∃ r rules rest, p = (r :: rules) :: rest ∧ Story.isStory r.condition = false

theorem fresh_verdict (hp : Plain p) (set : Setting) (height : Int) (formula : String) :
    Fresh (verdict set height formula (p.map some)) := by
  obtain ⟨r, rules, rest, rfl, hstory⟩ := hp
  have hlegitimate : Fresh (isLegitimate set r.condition r.action 1) := by
    unfold isLegitimate
    rw [hstory]
    exact (fresh_read set.source).bind _
  have hrules : Fresh (applyRules set (pure true) height 1 (r :: rules) false) := hlegitimate.bind _
  have hplans : Fresh (applyPlans set (pure true) height 1 (((r :: rules) :: rest).map some) false) := hrules.bind _
  exact hplans.bind _

theorem trial_plain (hp : Plain p) (m m' : Model) (tree : Unfolding) :
    trial source t p ⟨m, tree⟩ = trial source t p ⟨m', tree⟩ := by
  unfold trial
  rw [fresh_verdict hp (setting source) height t.formula m m' tree]

/-- Where the trials before the last one leave the tree, profiles stand in turn just if each is accepted on the tree as
it was given. -/
theorem stands_iff_forall : ∀ {ps : List Profile} {m : Model},
    (∀ p ∈ ps, Plain p) → (∀ p ∈ ps.dropLast, ∀ s, trial source t p ⟨m, tree⟩ = .ok (true, s) → s.tree = tree) →
    (Stands source t ps ⟨m, tree⟩ ↔ ∀ p ∈ ps, Accepts source t p ⟨m, tree⟩)
  | [], m, _, _ => ⟨fun _ p hp => (not_mem_nil hp).elim, fun _ => .nil _⟩
  | [p], m, _, _ => by
    rw [forall_mem_singleton]
    constructor
    · rintro (_ | ⟨htrial, -⟩)
      exact ⟨_, htrial⟩
    · rintro ⟨s, htrial⟩
      exact .cons htrial (.nil s)
  | p :: q :: ps, m, hplain, hleaves => by
    rw [forall_mem_cons] at hplain
    rw [dropLast_cons_cons, forall_mem_cons] at hleaves
    have hrest : ∀ m', Stands source t (q :: ps) ⟨m', tree⟩ ↔ ∀ p ∈ q :: ps, Accepts source t p ⟨m, tree⟩ := by
      intro m'
      have hfresh : ∀ p ∈ q :: ps, trial source t p ⟨m', tree⟩ = trial source t p ⟨m, tree⟩ := fun p hp =>
        trial_plain (hplain.2 p hp) m' m tree
      rw [stands_iff_forall hplain.2 fun p hp s htrial =>
        hleaves.2 p hp s ((hfresh p (dropLast_subset _ hp)).symm.trans htrial)]
      refine forall₂_congr fun p hp => ?_
      rw [Accepts, Accepts, hfresh p hp]
    rw [forall_mem_cons, ← hrest m]
    constructor
    · rintro (_ | ⟨htrial, hstands⟩)
      rename_i s
      obtain ⟨m', tree'⟩ := s
      obtain rfl : tree' = tree := hleaves.1 _ htrial
      exact ⟨⟨_, htrial⟩, (hrest m).2 ((hrest m').1 hstands)⟩
    · rintro ⟨⟨⟨m', tree'⟩, htrial⟩, hstands⟩
      obtain rfl : tree' = tree := hleaves.1 _ htrial
      exact .cons htrial ((hrest m').2 ((hrest m).1 hstands))

/-! ## Runs -/

/-- The trial of a profile on a tree that is passed on; an answer is a failure. -/
def attack (source : String) (t : Task) (p : Profile) : StateT Unfolding Searching (Option Unit) := do
  let (holds, tree) ← test source t (← get) p
  set tree
  return if holds then none else some ()

theorem run_attack (source : String) (t : Task) (p : Profile) (tree : Unfolding) (x : Model) (d : Draws) :
    (((attack source t p).run tree).run x).run.run d =
      ((trial source t p ⟨x, tree⟩).map fun r => ((if r.1 then none else some (), r.2.tree), r.2.model), d) := by
  have hrun : (attack source t p).run tree = test source t tree p >>= fun r =>
      pure (if r.1 then none else some (), r.2) := by
    simp [attack]
  have htest := run_test source t tree p x d
  rw [hrun]
  cases htrial : trial source t p ⟨x, tree⟩ with
  | error f =>
    rw [htrial] at htest
    exact bind_error htest
  | ok r =>
    rw [htrial] at htest
    exact bind_ok htest

theorem run_firstAccepted_attack (source : String) (t : Task) : ∀ (ps : List Profile) (tree : Unfolding) (x : Model)
    (d : Draws),
    (((firstAccepted (attack source t) ps).run tree).run x).run.run d =
      ((inTurn source t ps ⟨x, tree⟩).map fun r => ((if r.1 then none else some (), r.2.tree), r.2.model), d)
  | [], _, _, _ => rfl
  | p :: ps, tree, x, d => by
    have hattack := run_attack source t p tree x d
    rw [firstAccepted, StateT.run_bind, inTurn]
    cases htrial : trial source t p ⟨x, tree⟩ with
    | error f =>
      rw [htrial] at hattack
      exact bind_error hattack
    | ok r =>
      rw [htrial] at hattack
      obtain ⟨accepted, s⟩ := r
      refine (bind_ok hattack).trans ?_
      cases accepted with
      | true => exact run_firstAccepted_attack source t ps s.tree s.model d
      | false => rfl

theorem run_failsOn (source : String) (t : Task) (ss : List (List Strategy)) (tree : Unfolding) (x : Model)
    (d : Draws) : ((failsOn source t ss tree).run x).run.run d =
      ((inTurn source t (profiles ss) ⟨x, tree⟩).map fun r => ((!r.1, r.2.tree), r.2.model), d) := by
  have hrun := run_firstAccepted_attack source t (profiles ss) tree x d
  have hfails : failsOn source t ss tree = (examine (attack source t) ss []).run tree >>= fun r =>
      pure (r.1.isSome, r.2) := rfl
  rw [hfails, examine_nil]
  cases hturn : inTurn source t (profiles ss) ⟨x, tree⟩ with
  | error f =>
    rw [hturn] at hrun
    exact bind_error hrun
  | ok r =>
    rw [hturn] at hrun
    refine (bind_ok hrun).trans ?_
    obtain ⟨accepted, s⟩ := r
    cases accepted <;> rfl

theorem outcome_answersFrom (source : String) (ht : t.actions.length ≤ t.agents.length) : ∀ (n : Nat) (i : Int)
    (tree : Unfolding) (x : Model) (d : Draws), ∃ ps d', (offeredFrom (Recall.offersAt t) n i).run.run d = (.ok ps, d') ∧
      outcome ((answersFrom source t n i tree).run' x) d =
        Prod.fst <$> inTurn source t (ps.map Prod.snd) ⟨x, tree⟩
  | 0, _, _, _, d => ⟨[], d, rfl, rfl⟩
  | n + 1, i, tree, x, d => by
    obtain ⟨ss, d₁, hss, -⟩ := gives_strategiesDrawn ht i d
    have hhere : (Recall.offersAt t i).run.run d = (.ok (profiles ss), d₁) := run_bind_ok hss
    have hfails := run_failsOn source t ss tree x d₁
    have hturn : ∀ later : List (Int × Profile),
        inTurn source t (((profiles ss).map (i, ·) ++ later).map Prod.snd) ⟨x, tree⟩ = do
          let r ← inTurn source t (profiles ss) ⟨x, tree⟩
          if r.1 then inTurn source t (later.map Prod.snd) r.2 else return r := by
      intro later
      have hsnd : ((profiles ss).map (i, ·)).map Prod.snd = profiles ss := by simp
      rw [map_append, hsnd, inTurn_append]
    -- Which scene the next complexity starts from matters only if all profiles of this one are accepted.
    have hoffered : ∀ (tree' : Unfolding) (x' : Model), ∃ ps d',
        (offeredFrom (Recall.offersAt t) (n + 1) i).run.run d = (.ok ((profiles ss).map (i, ·) ++ ps), d') ∧
          outcome ((answersFrom source t n (i + 1) tree').run' x') d₁ =
            Prod.fst <$> inTurn source t (ps.map Prod.snd) ⟨x', tree'⟩ := by
      intro tree' x'
      obtain ⟨later, d₂, hlater, hrest⟩ := outcome_answersFrom source ht n (i + 1) tree' x' d₁
      refine ⟨later, d₂, ?_, hrest⟩
      rw [offeredFrom, run_bind_ok hhere, run_bind_ok hlater]
      rfl
    rw [outcome_run', answersFrom, bind_ok (Searching.run_strategiesAt hss x)]
    cases hhold : inTurn source t (profiles ss) ⟨x, tree⟩ with
    | error f =>
      obtain ⟨later, d₂, hlater, -⟩ := hoffered tree x
      rw [hhold] at hfails
      refine ⟨_, d₂, hlater, ?_⟩
      rw [hturn, hhold, bind_error hfails]
      rfl
    | ok r =>
      obtain ⟨holds, s⟩ := r
      obtain ⟨later, d₂, hlater, hrest⟩ := hoffered s.tree s.model
      rw [hhold] at hfails
      refine ⟨_, d₂, hlater, ?_⟩
      rw [hturn, hhold, bind_ok hfails]
      cases holds with
      | false => rfl
      | true =>
        rw [outcome_run'] at hrest
        exact hrest

theorem outcome_answers (ht : withRecall source formula = .ok t) (tree : Unfolding) (x : Model) (d : Draws) :
    ∃ ps, (offeredFrom (Recall.offersAt t) t.bound.toNat 1).outcome d = .ok ps ∧
      outcome ((answers source formula tree).run' x) d =
        Prod.fst <$> inTurn source t (ps.map Prod.snd) ⟨t.model, tree⟩ := by
  obtain ⟨-, hactions⟩ := load_of_withRecall ht
  obtain ⟨ps, d', hps, hrun⟩ := outcome_answersFrom source hactions t.bound.toNat 1 tree t.model d
  refine ⟨ps, congrArg Prod.fst hps, ?_⟩
  rw [outcome_run'] at hrun
  rw [outcome_run', answers, bind_ok (run_task_withRecall ht x d), hrun]

/-! ## Trials of one rule -/

theorem playedIn_congr : ∀ {children children' : List Unfolding} {moves : List Move},
    children.length = children'.length →
    playedIn index action children moves = playedIn index action children' moves
  | [], [], _, _ => rfl
  | _ :: _, _ :: _, [], _ => rfl
  | _ :: children, _ :: children', _ :: moves, h => by
    rw [playedIn, playedIn, playedIn_congr (Nat.succ.inj h)]

theorem admits_renamed
    (hroot : states.contains tree.state = true)
    (h : playedIn index action tree.children tree.moves = .ok false) :
    tree.renamed.admits states index action = .ok false := by
  obtain ⟨n, -, hmoves, hchildren⟩ := renumbered_number 1 tree
  have hplayed : playedIn index action tree.renamed.children tree.renamed.moves = .ok false := by
    rw [← h, renamed, hmoves, hchildren]
    exact playedIn_congr (forall₂_numberAll tree.children n).length_eq.symm
  have hstate := state_renamed tree
  cases hrenamed : tree.renamed with
  | node q old action' before l pruned children moves =>
    rw [hrenamed] at hplayed hstate
    obtain rfl : q = tree.state := hstate
    rw [admits, if_pos hroot]
    simp only [Unfolding.children, Unfolding.moves] at hplayed
    rw [hplayed]
    rfl

theorem trial_refused (hload : load .plain source = .ok m) {condition : String}
    (hstory : Story.isStory condition = false)
    (hwhere : ∀ s, (statesWhere (setting source) condition).run.run s = (.ok states, { s with model := m }))
    (h : (if states.isEmpty then .ok true else s.tree.admits states 1 action) = .ok false) (t : Task) :
    trial source t [[⟨condition, action⟩]] s = .ok (false, { s with model := m }) := by
  have hset : load .plain (setting source).source = .ok m := hload
  have hplan : (Step.ofOutcome (Plan.rules (some [⟨condition, action⟩]))).run.run s = (.ok [⟨condition, action⟩], s) := rfl
  have hrules := run_applyRules_refused hset hstory hwhere height false h []
  unfold trial verdict
  rw [map_singleton, applyPlans, bind_assoc, run_bind_ok hplan, bind_assoc, run_bind_ok hrules]
  rfl

theorem trial_of_admitted (h : Stage source m) {s₁ : Scene} (hs : Staged m.props s) {o φ : String}
    (hformula : t.formula = "A" ++ o ++ φ) (hreader : parse .natSL .ctl .missing
      ("A" ++ o ++ φ) = parse .ctl .ctl .missing ("A" ++ o ++ φ)) {k : TokenKind} (ho : (o, k) ∈ Checker.temporal)
    {f : Formula} (hφ : Checker.Propositional φ f)
    (hplans : (applyPlans (setting source) (pure true) height 1 (p.map some) false).run.run s = (.ok true, s₁))
    {n : Int} (hcount : s₁.model.agentCount = .ok n) :
    ∃ m', trial source t p s = .ok (passes m.props o f s₁.tree.renamed, ⟨m', s₁.tree.renamed⟩) := by
  have hset : Stage (setting source).source m := h
  have hheight : height = ((3 : Nat) : Int) := rfl
  obtain ⟨m', hrun⟩ := run_testVerdict hset hs 3 (Nat.le_refl 3) hplans hcount (passes m.props o f)
  rw [← run_verdict hset hs hreader 3 (Nat.le_refl 3) ho hφ] at hrun
  refine ⟨m', ?_⟩
  unfold trial
  rw [hformula, hheight]
  simp only [hrun]
  cases passes m.props o f s₁.tree.renamed <;> rfl

/-! ## A model -/

/-- The text of a model in which the first agent has two ways to stay in the initial state, where `a` holds. -/
def forkLayout : Layout where
  front := []
  rows := ["II,AI,BI IC", "0 II"]
  unknown := []
  names := ["s0 s1"]
  middle := ["s0", "Atomic_propositions", "a"]
  labels := ["1", "0"]
  back := ["2"]

def fork : Model where
  graph := [[.text "II,AI,BI", .text "IC"], [.num 0, .text "II"]]
  states := ["s0", "s1"]
  props := ["a"]
  labels := [[.num 1], [.num 0]]
  initial := "s0"
  agents := .number 2

def forkTree : Unfolding := (ofModel fork fork.states height).toOption.get (by decide +kernel)

theorem unfold_fork : ofModel fork fork.states height = .ok forkTree :=
  eq_ok_of_toOption (Option.some_get _).symm

theorem fork_load : load .plain forkLayout.text = .ok fork := load_join (by decide) (by decide)

theorem stage_fork : Stage forkLayout.text fork := ⟨⟨forkLayout, by decide, rfl⟩, fork_load, by decide, rfl⟩

def forkTask (agent : Int) (name : String) (actions : List String) : Task :=
  ⟨fork, "AFa", 1, [agent], [("actions_" ++ name, actions)]⟩

theorem withRecall_fork {name : String} {agent : Int} {actions : List String}
    (hheading : Heading.toBranching (some formula) = .ok "AFa" ∧ Heading.boundOf (some formula) = .ok 1 ∧
      Heading.agentsOf (some formula) none = .ok [agent]) (hactions : fork.actions [agent] = .ok [(name, actions)]) :
    withRecall forkLayout.text formula = .ok (forkTask agent name actions) :=
  bind_eq_ok.2 ⟨fork, fork_load, start_eq (by decide) hactions hheading⟩

def forkFirst : Task := forkTask 1 "agent1" ["A", "B"]

def forkSecond : Task := forkTask 2 "agent2" ["C"]

theorem tasks_fork : withRecall forkLayout.text "<\x7b1\x7d, 1>Fa" = .ok forkFirst ∧
    withRecall forkLayout.text "<\x7b2\x7d, 1>Fa" = .ok forkSecond :=
  ⟨withRecall_fork (by decide) (actions_eq (by decide)), withRecall_fork (by decide) (actions_eq (by decide))⟩

theorem strategiesDrawn_fork : strategiesDrawn forkFirst 1 = pure [[[⟨"a", "A"⟩], [⟨"a", "B"⟩]]] ∧
    strategiesDrawn forkSecond 1 = pure [[[⟨"a", "C"⟩]]] :=
  ⟨strategiesDrawn_eq (by decide) (by decide +kernel),
    strategiesDrawn_eq (by decide) (by decide +kernel)⟩

theorem offers_forkFirst : (offeredFrom (Recall.offersAt forkFirst) forkFirst.bound.toNat 1).outcome {} =
    .ok [(1, [[⟨"a", "A"⟩]]), (1, [[⟨"a", "B"⟩]])] := by
  change (offeredFrom (Recall.offersAt forkFirst) 1 1).outcome {} = _
  rw [offeredFrom, offersAt_eq strategiesDrawn_fork.1]
  rfl

theorem offers_forkSecond : (offeredFrom (Recall.offersAt forkSecond) forkSecond.bound.toNat 1).outcome {} =
    .ok [(1, [[⟨"a", "C"⟩]])] := by
  change (offeredFrom (Recall.offersAt forkSecond) 1 1).outcome {} = _
  rw [offeredFrom, offersAt_eq strategiesDrawn_fork.2]
  rfl

theorem statesWhere_fork (s : Scene) : (statesWhere (setting forkLayout.text) "a").run.run s =
    (.ok ["s0"], { s with model := fork }) := by
  have hreport : Checker.Branching.checkModel .natSL fork "a" =
      .ok ⟨"Result: \x7b's0'\x7d", some "Initial state s0: True"⟩ := by decide +kernel
  have hload : load .plain (setting forkLayout.text).source = .ok fork := fork_load
  exact run_statesWhere hload (by decide) hreport names_s0 s

theorem propositional_a : Checker.Propositional "a" (.atom "a") where
  chars := by decide
  alike := by decide
  reads := by rfl

theorem staged_fork : Staged fork.props ⟨fork, forkTree⟩ := by
  obtain ⟨hgrown, hroot⟩ := grown_build stage_fork.regular stage_fork.regular.first unfold_fork
  exact ⟨hgrown.mono (by decide), hroot, stage_fork.regular, rfl⟩

/-- The first agent is accepted with either action on the tree of the model; what the first action leaves of the tree
refuses the second. The second agent is refused. -/
theorem exists_trials_fork : ∃ sA sB,
    trial forkLayout.text forkFirst [[⟨"a", "A"⟩]] ⟨fork, forkTree⟩ = .ok (true, sA) ∧
    trial forkLayout.text forkFirst [[⟨"a", "B"⟩]] ⟨fork, forkTree⟩ = .ok (true, sB) ∧
    trial forkLayout.text forkFirst [[⟨"a", "B"⟩]] sA = .ok (false, { sA with model := fork }) ∧
    trial forkLayout.text forkSecond [[⟨"a", "C"⟩]] ⟨fork, forkTree⟩ = .ok (false, ⟨fork, forkTree⟩) := by
  have hparse : ∀ reader ∈ [Logic.natSL, .ctl],
      parse reader .ctl .missing ("A" ++ "F" ++ "a") = .ok (some (.unary "AF" (.atom "a"))) := by decide +kernel
  have hreader := (hparse .natSL (by decide)).trans (hparse .ctl (by decide)).symm
  -- what either action leaves of the tree refuses the other
  have hplayed : ∀ e ∈ [("A", "B"), ("B", "A")],
      let r := (applyPlans (setting forkLayout.text) (pure true) height 1 ([[⟨"a", e.1⟩]].map some) false).run.run
        ⟨fork, forkTree⟩
      r.1 = .ok true ∧ r.2.model = fork ∧ r.2.tree.state = "s0" ∧
        playedIn 1 e.2 r.2.tree.children r.2.tree.moves = .ok false := by decide +kernel
  have hrefused : forkTree.admits ["s0"] 1 "C" = .ok false := by decide +kernel
  have hstaged := staged_fork
  -- From here on the tree is only what these facts say, so that no later step computes it.
  generalize forkTree = tree at hplayed hrefused hstaged ⊢
  have htrial : ∀ e ∈ [("A", "B"), ("B", "A")], ∃ s, trial forkLayout.text forkFirst [[⟨"a", e.1⟩]] ⟨fork, tree⟩ =
      .ok (true, s) ∧ s.tree.admits ["s0"] 1 e.2 = .ok false := by
    intro e he
    obtain ⟨hadmitted, hmodel, hroot, hplayed⟩ := hplayed e he
    obtain ⟨m, hm⟩ := trial_of_admitted (t := forkFirst) stage_fork hstaged (by decide) hreader (k := .eventually)
      (by decide) propositional_a (Prod.mk.eta.symm.trans (congrArg (·, _) hadmitted)) (n := 2) (by rw [hmodel]; rfl)
    exact ⟨_, hm, admits_renamed (by rw [hroot]; rfl) hplayed⟩
  obtain ⟨sA, hA, hleft⟩ := htrial ("A", "B") (by decide)
  obtain ⟨sB, hB, -⟩ := htrial ("B", "A") (by decide)
  refine ⟨sA, sB, hA, hB, ?_, ?_⟩
  · exact trial_refused fork_load (by decide) statesWhere_fork hleft _
  · exact trial_refused (s := ⟨fork, tree⟩) fork_load (by decide) statesWhere_fork hrefused _

/-! ## Answers -/

/-- The universal agents are answered on a tree just if their profiles are accepted in turn, each in the scene that
those before it have left. On copies of the tree the answer is the same if the trials leave it. -/
theorem answers_iff {source formula : String} {t : Task} (ht : Task.withRecall source formula = .ok t)
    (tree : Unfolding) (x : Model) (d : Draws) :
    ∃ ps, (offeredFrom (Recall.offersAt t) t.bound.toNat 1).outcome d = .ok ps ∧
      outcome ((answers source formula tree).run' x) d =
        Prod.fst <$> inTurn source t (ps.map Prod.snd) ⟨t.model, tree⟩ ∧
      (outcome ((answers source formula tree).run' x) d = .ok true ↔
        Stands source t (ps.map Prod.snd) ⟨t.model, tree⟩) ∧
      ((∀ e ∈ ps, Plain e.2) →
        (∀ e ∈ ps.dropLast, ∀ s, trial source t e.2 ⟨t.model, tree⟩ = .ok (true, s) → s.tree = tree) →
        (outcome ((answers source formula tree).run' x) d = .ok true ↔
          ∀ e ∈ ps, Accepts source t e.2 ⟨t.model, tree⟩)) := by
  obtain ⟨ps, hps, hrun⟩ := outcome_answers ht tree x d
  have hstands : outcome ((answers source formula tree).run' x) d = .ok true ↔
      Stands source t (ps.map Prod.snd) ⟨t.model, tree⟩ := by
    rw [hrun, ← exists_inTurn_iff]
    cases inTurn source t (ps.map Prod.snd) ⟨t.model, tree⟩ with
    | error f => simp
    | ok r => simp [Prod.ext_iff]
  refine ⟨ps, hps, hrun, hstands, fun hplain hleaves => ?_⟩
  rw [← forall_mem_map (P := fun p => ∀ s, trial source t p ⟨t.model, tree⟩ = .ok (true, s) → s.tree = tree),
    map_dropLast] at hleaves
  rw [hstands, stands_iff_forall (forall_mem_map.2 hplain) hleaves, forall_mem_map]

/-- The second agent has one rule, which it cannot play; so its trial leaves the tree, and the answer is the same on a
copy of it. The first agent has two, and the trial of the second rule is made on what the first one leaves. -/
theorem answers_iff_forkTree : Task.withRecall forkLayout.text "<\x7b2\x7d, 1>Fa" = .ok forkSecond ∧
    ¬ Accepts forkLayout.text forkSecond [[⟨"a", "C"⟩]] ⟨fork, forkTree⟩ ∧
    outcome ((answers forkLayout.text "<\x7b2\x7d, 1>Fa" forkTree).run' {}) {} ≠ .ok true ∧
    Task.withRecall forkLayout.text "<\x7b1\x7d, 1>Fa" = .ok forkFirst ∧
    (∃ s, trial forkLayout.text forkFirst [[⟨"a", "A"⟩]] ⟨fork, forkTree⟩ = .ok (true, s) ∧
      ¬ Accepts forkLayout.text forkFirst [[⟨"a", "B"⟩]] s) ∧
    outcome ((answers forkLayout.text "<\x7b1\x7d, 1>Fa" forkTree).run' {}) {} ≠ .ok true := by
  obtain ⟨sA, _, hA, -, hthen, hrefused⟩ := exists_trials_fork
  have hnot : ¬ Accepts forkLayout.text forkSecond [[⟨"a", "C"⟩]] ⟨fork, forkTree⟩ := by
    rintro ⟨s, hs⟩
    cases hrefused.symm.trans hs
  have hlater : ¬ Accepts forkLayout.text forkFirst [[⟨"a", "B"⟩]] sA := by
    rintro ⟨s, hs⟩
    cases hthen.symm.trans hs
  refine ⟨tasks_fork.2, hnot, fun htrue => hnot ?_, tasks_fork.1, ⟨sA, hA, hlater⟩, fun htrue => ?_⟩
  · obtain ⟨ps, hps, -, -, hcopies⟩ := answers_iff tasks_fork.2 forkTree {} {}
    cases offers_forkSecond.symm.trans hps
    have hplain : ∀ e ∈ [((1 : Int), [[(⟨"a", "C"⟩ : Rule)]])], Plain e.2 := by
      simp [Plain, show Story.isStory "a" = false by decide]
    exact (hcopies hplain (by simp)).1 htrue (1, [[⟨"a", "C"⟩]]) mem_cons_self
  · obtain ⟨ps, hps, -, hstands, -⟩ := answers_iff tasks_fork.1 forkTree {} {}
    cases offers_forkFirst.symm.trans hps
    obtain _ | ⟨haccepted, hrest⟩ := hstands.1 htrue
    cases hA.symm.trans haccepted
    obtain _ | ⟨haccepted, -⟩ := hrest
    exact hlater ⟨_, haccepted⟩

/-- Two profiles that are each accepted on the tree as it was given, but not one after the other. -/
theorem answers_fork : ∃ ps, (offeredFrom (Recall.offersAt forkFirst) forkFirst.bound.toNat 1).outcome {} = .ok ps ∧
    (∀ e ∈ ps, Accepts forkLayout.text forkFirst e.2 ⟨fork, forkTree⟩) ∧
    outcome ((answers forkLayout.text "<\x7b1\x7d, 1>Fa" forkTree).run' {}) {} = .ok false := by
  obtain ⟨sA, sB, hA, hB, hthen, -⟩ := exists_trials_fork
  obtain ⟨ps, hps, hrun⟩ := outcome_answers tasks_fork.1 forkTree {} {}
  refine ⟨ps, hps, ?_, ?_⟩
  · cases offers_forkFirst.symm.trans hps
    intro e he
    rcases mem_cons.1 he with rfl | he
    · exact ⟨sA, hA⟩
    · obtain rfl := mem_singleton.1 he
      exact ⟨sB, hB⟩
  · cases offers_forkFirst.symm.trans hps
    have hturn : inTurn forkLayout.text forkFirst [[[⟨"a", "A"⟩]], [[⟨"a", "B"⟩]]] ⟨fork, forkTree⟩ =
        .ok (false, { sA with model := fork }) := by
      rw [inTurn_accepted hA, inTurn_rejected hthen]
    exact hrun.trans (congrArg (Prod.fst <$> ·) hturn)

end Arena.Natural.Quantified
