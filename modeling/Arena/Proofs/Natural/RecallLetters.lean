/-
Whose letters pruning with recall reads. The plan at a place is compared with the letter of the agent of that number,
whoever it was made for. So letters behind those of the first agents make no difference, and a coalition is pruned by
its own letters just if it consists of the first agents in their order.
-/
import Arena.Proofs.Natural.RecallSearch

namespace Arena.Natural

open Unfolding List Names

variable {agent index : Int} {α β : Type} {action : String} {f : Move → Move}

theorem kept_map (f : α → β) : ∀ (mask : List Bool) (xs : List α),
    kept mask (xs.map f) = (kept mask xs).map f
  | [], xs => by rw [kept, kept]
  | _ :: _, [] => rfl
  | true :: mask, x :: xs => by
    rw [map_cons, kept, kept, if_pos rfl, if_pos rfl, map_cons, kept_map f mask xs]
  | false :: mask, x :: xs => by
    rw [map_cons, kept, kept, if_neg Bool.false_ne_true, if_neg Bool.false_ne_true, kept_map f mask xs]

namespace Unfolding

/-! ## Other letters -/

mutual

/-- The tree with other joint actions. -/
def relabel (f : Move → Move) : Unfolding → Unfolding
  | node q old action before l pruned children moves =>
    node q old (action.map f) before l pruned (relabelAll f children) (moves.map f)

def relabelAll (f : Move → Move) : List Unfolding → List Unfolding
  | [] => []
  | t :: rest => relabel f t :: relabelAll f rest

end

theorem relabelAll_eq (f : Move → Move) (ts : List Unfolding) : relabelAll f ts = ts.map (relabel f) := by
  induction ts with
  | nil => rw [relabelAll, map_nil]
  | cons t rest ih => rw [relabelAll, map_cons, ih]

theorem children_relabel (f : Move → Move) (t : Unfolding) : (t.relabel f).children = t.children.map (relabel f) := by
  cases t
  rw [← relabelAll_eq]
  rfl

section Relabel

variable (hf : ∀ move, letterAt (f move) (index - 1) = letterAt move (index - 1))

include hf

theorem stays_relabel (pruned : Bool) (action : String) : ∀ (ts : List Unfolding) (moves : List Move),
    stays pruned index action (ts.map (relabel f)) (moves.map f) = stays pruned index action ts moves
  | [], _ => by rw [stays, stays] <;> simp
  | _ :: _, [] => by rw [stays, stays] <;> simp
  | t :: ts, move :: moves => by
    rw [map_cons, map_cons, stays, stays, hf, stays_relabel pruned action ts moves]

theorem playedIn_relabel (action : String) : ∀ (ts : List Unfolding) (moves : List Move),
    playedIn index action (ts.map (relabel f)) (moves.map f) = playedIn index action ts moves
  | [], _ => by rw [playedIn, playedIn] <;> simp
  | _ :: _, [] => by rw [playedIn, playedIn] <;> simp
  | t :: ts, move :: moves => by
    rw [map_cons, map_cons, playedIn, playedIn, hf, playedIn_relabel action ts moves]

omit hf in
theorem changeKept_relabel {change : Unfolding → Unfolding × Outcome Bool} : ∀ (ts : List Unfolding) (mask : List Bool),
    (∀ t ∈ ts, change (t.relabel f) = ((change t).1.relabel f, (change t).2)) →
    changeKept change (ts.map (relabel f)) mask =
      ((changeKept change ts mask).1.map (relabel f), (changeKept change ts mask).2)
  | [], mask, _ => by rw [map_nil, changeKept, map_nil]
  | t :: rest, mask, h => by
    obtain ⟨ht, hrest⟩ := forall_mem_cons.1 h
    rw [map_cons, changeKept, changeKept, ht, changeKept_relabel rest mask.tail hrest]
    split
    · rcases change t with ⟨t', r⟩
      cases r with
      | error e => simp only [map_cons, kept_map]
      | ok b => simp only [map_cons]
    · rfl

theorem prune_relabel (applies : String → Bool) (action : String) (t : Unfolding) :
    (t.relabel f).prune applies index action =
      ((t.prune applies index action).1.relabel f, (t.prune applies index action).2) := by
  have hkept := fun mask => changeKept_relabel t.children mask fun c hc => prune_relabel applies action c
  obtain ⟨q, old, by_, before, l, pruned, children, moves⟩ := t
  dsimp only [Unfolding.children] at hkept
  rw [relabel, relabelAll_eq, prune, prune, stays_relabel hf]
  simp only [pruneKept_eq, hkept]
  split
  · split
    · rw [relabel, relabelAll_eq]
    · rw [relabel, relabelAll_eq, kept_map]
  · rw [relabel, relabelAll_eq]
termination_by sizeOf t
decreasing_by exact sizeOf_child hc

theorem prunePath_relabel (action : String) : ∀ (path : List String) (t : Unfolding),
    (t.relabel f).prunePath index action path =
      ((t.prunePath index action path).1.relabel f, (t.prunePath index action path).2)
  | path, node q old by_ before l pruned children moves => by
    have hkept := fun mask => changeKept_relabel children mask fun t ht => prunePath_relabel action path.tail t
    rw [relabel, relabelAll_eq, prunePath, prunePath, stays_relabel hf]
    simp only [prunePathKept_eq, hkept]
    split
    · split
      · rw [relabel, relabelAll_eq]
      · rw [relabel, relabelAll_eq, kept_map]
    · rw [relabel, relabelAll_eq]
termination_by _ t => sizeOf t
decreasing_by exact sizeOf_child ht

end Relabel

mutual

theorem admits_relabel (hf : ∀ move, letterAt (f move) (index - 1) = letterAt move (index - 1)) (states : Names)
    (action : String) :
    ∀ t : Unfolding, (t.relabel f).admits states index action = t.admits states index action
  | node q old by_ before l pruned children moves => by
    rw [relabel, admits, admits, visit_relabel hf states action children, relabelAll_eq, playedIn_relabel hf]

theorem visit_relabel (hf : ∀ move, letterAt (f move) (index - 1) = letterAt move (index - 1)) (states : Names)
    (action : String) :
    ∀ ts : List Unfolding, visit states index action (relabelAll f ts) = visit states index action ts
  | [] => by rw [relabelAll]
  | t :: rest => by
    rw [relabelAll, visit, visit, admits_relabel hf states action t, visit_relabel hf states action rest]

end

section Read

variable (f : Move → Move)

mutual

theorem meets_relabel (props : List String) : ∀ (word : List String) (depth : Int) (t : Unfolding),
    (t.relabel f).meets props word depth = t.meets props word depth
  | word, depth, node q old by_ before l pruned children moves => by
    cases word with
    | nil => rw [relabel, meets, meets]
    | cons w rest => rw [relabel, meets, meets, meetsBelow_relabel props rest (depth - 1) children]

theorem meetsBelow_relabel (props : List String) :
    ∀ (word : List String) (depth : Int) (ts : List Unfolding),
      meetsBelow props word depth (relabelAll f ts) = meetsBelow props word depth ts
  | _, _, [] => by rw [relabelAll]
  | word, depth, t :: rest => by
    rw [relabelAll, meetsBelow, meetsBelow, meets_relabel props word depth t, meetsBelow_relabel props word depth rest]

end

theorem meetsStory_relabel (props : List String) (t : Unfolding) (story : String)
    (length depth : Int) :
    (t.relabel f).meetsStory props story length depth = t.meetsStory props story length depth := by
  unfold meetsStory
  induction Story.wordsOf story length with
  | nil => rw [meetsOne, meetsOne]
  | cons w rest ih => rw [meetsOne, meetsOne, meets_relabel, ih]

mutual

theorem unmarked_relabel : ∀ t : Unfolding, (t.relabel f).unmarked = t.unmarked.relabel f
  | node q old by_ before l pruned children moves => by
    rw [relabel, unmarked, unmarked, relabel, unmarkedAll_relabel children]

theorem unmarkedAll_relabel : ∀ ts : List Unfolding,
    unmarkedAll (relabelAll f ts) = relabelAll f (unmarkedAll ts)
  | [] => by rw [relabelAll, unmarkedAll, relabelAll]
  | t :: rest => by
    rw [relabelAll, unmarkedAll, unmarkedAll, relabelAll, unmarked_relabel t, unmarkedAll_relabel rest]

end

mutual

theorem allMarked_relabel : ∀ t : Unfolding, (t.relabel f).allMarked = t.allMarked
  | node q old by_ before l pruned children moves => by
    rw [relabel, allMarked, allMarked, allMarkedIn_relabel children]

theorem allMarkedIn_relabel : ∀ ts : List Unfolding, allMarkedIn (relabelAll f ts) = allMarkedIn ts
  | [] => by rw [relabelAll]
  | t :: rest => by rw [relabelAll, allMarkedIn, allMarkedIn, allMarked_relabel t, allMarkedIn_relabel rest]

end

end Read

end Unfolding

def Scene.relabel (f : Move → Move) (s : Scene) : Scene := { s with tree := s.tree.relabel f }

namespace Step

/-! ## Steps on relabelled trees -/

/-- A step that answers the same on the tree with other joint actions, and leaves the same tree with them. -/
def Commutes {α : Type} (f : Move → Move) (x : Step α) : Prop :=
  ∀ s, x.run.run (s.relabel f) = ((x.run.run s).1, (x.run.run s).2.relabel f)

end Step

namespace Recall

open Step

variable {x : Move} {letter formula : String}

/-! ## Applying plans to relabelled trees -/

theorem simulates_relabel (hf : ∀ move, letterAt (f move) (index - 1) = letterAt move (index - 1)) :
    Simulates index fun t u => u = t.relabel f where
  size := by rintro t _ rfl; rw [children_relabel, length_map]
  meets := by rintro t _ rfl props; exact funext fun _ => funext₂ fun _ _ => (meetsStory_relabel ..).symm
  admits := by rintro t _ rfl _ _; exact (admits_relabel hf ..).symm
  marked := by rintro t _ rfl; exact (allMarked_relabel f t).symm
  prune := by rintro t _ rfl _ _; rw [prune_relabel hf]; exact ⟨rfl, rfl⟩
  prunePath := by rintro t _ rfl _ _; rw [prunePath_relabel hf]; exact ⟨rfl, rfl⟩
  unmarked := by rintro t _ rfl; exact unmarked_relabel f t

theorem commutes_applyPlans (set : Setting) (height : Int) (plans : List Plan) (flag : Bool)
    (hf : ∀ i : Int, 1 ≤ i → i ≤ plans.length → ∀ move, letterAt (f move) (i - 1) = letterAt move (i - 1)) :
    Commutes f (applyPlans set (pure true) height 1 plans flag) := by
  intro s
  obtain ⟨hsame, hmodel, -, htree⟩ := respects_applyPlans (M := fun _ => True) trivial (respects_pure true) height plans 1
    flag (fun i hle hlt => simulates_relabel (hf i hle (by omega))) s (s.relabel f) ⟨rfl, trivial, rfl⟩
  exact Prod.ext hsame.symm (congrArg₂ Scene.mk hmodel.symm htree)

/-! ## Plans of numbered agents -/

/-- Applies the plans of agents that are given by their numbers, each by the letters of its own agent. -/
def applyAssigned (set : Setting) (within : Step Bool) (height : Int) : List (Int × Plan) → Bool → Step Bool
  | [], _ => return true
  | (agent, p) :: rest, flag => do
    match ← applyRules set within height agent (← ofOutcome p.rules) flag with
    | none => return false
    | some flag =>
      let flag ← if flag then pure true
        else pruneIdle set (ofList (← get).model.states) "I" agent
      modify fun scene => { scene with tree := scene.tree.unmarked }
      applyAssigned set within height rest flag

/-- The numbers of `n` agents, from the `k`-th on. -/
def agentsFrom (k n : Nat) : List Int := (range' k n).map fun i : Nat => (i : Int)

theorem agentsFrom_succ (k n : Nat) : agentsFrom k (n + 1) = (k : Int) :: agentsFrom (k + 1) n := by
  rfl

/-- Plans are applied as if they were those of the agents in their order. -/
theorem applyPlans_eq_applyAssigned (set : Setting) (within : Step Bool) (height : Int) :
    ∀ (plans : List Plan) (k : Nat) (flag : Bool), applyPlans set within height k plans flag =
      applyAssigned set within height ((agentsFrom k plans.length).zip plans) flag
  | [], k, flag => by rw [applyPlans, zip_nil_right, applyAssigned]
  | p :: rest, k, flag => by
    have hrest : ∀ flag, applyPlans set within height (k + 1) rest flag =
        applyAssigned set within height ((agentsFrom (k + 1) rest.length).zip rest) flag := fun flag =>
      applyPlans_eq_applyAssigned set within height rest (k + 1) flag
    refine bind_congr fun rules => bind_congr fun flag? => ?_
    cases flag? with
    | none => rfl
    | some flag =>
      dsimp only
      split
      · exact bind_congr fun flag => bind_congr fun _ => hrest flag
      · exact bind_congr fun _ => bind_congr fun flag => bind_congr fun _ => hrest flag

/-- An agent whose rules are admitted and have not pruned all nodes idles at the others. -/
theorem run_applyAssigned_cons {set : Setting} {within : Step Bool} {height : Int} {rules : Strategy} {flag : Bool}
    {s s₁ s₂ : Scene} (hrules : (applyRules set within height agent rules flag).run.run s = (.ok (some false), s₁))
    {removed : Bool} (hidle : (pruneIdle set (ofList s₁.model.states) "I" agent).run.run s₁ = (.ok removed, s₂))
    (rest : List (Int × Plan)) : (applyAssigned set within height ((agent, some rules) :: rest) flag).run.run s =
      (applyAssigned set within height rest removed).run.run { s₂ with tree := s₂.tree.unmarked } := by
  have hplan : (ofOutcome (Plan.rules (some rules))).run.run s = (.ok rules, s) := rfl
  rw [applyAssigned, run_bind_ok hplan, run_bind_ok hrules]
  dsimp only
  rw [if_neg Bool.false_ne_true, run_bind_ok (run_get _), run_bind_ok hidle, run_bind_ok (run_modify _ _)]

/-! ## Other numbers -/

/-- The text of a model in which the second agent alone can leave the state where `p` holds. -/
def gateLayout : Model.Layout where
  front := []
  rows := ["II IB", "0 II"]
  unknown := []
  names := ["s0 s1"]
  middle := ["s0", "Atomic_propositions", "p"]
  labels := ["1", "0"]
  back := ["2"]

def gate : Model where
  graph := [[.text "II", .text "IB"], [.num 0, .text "II"]]
  states := ["s0", "s1"]
  props := ["p"]
  labels := [[.num 1], [.num 0]]
  initial := "s0"
  agents := .number 2

def gateSetting : Setting := ⟨.ctl, gateLayout.text, none⟩

theorem gate_load : Model.load .plain gateSetting.source = .ok gate := Model.load_join (by decide) (by decide)

def leaf : Unfolding := .node "s1" "s1" none [] none false [] []

/-- A root `s0` with a leaf to which a joint action leads. -/
def stalk (x : Move) : Unfolding := .node "s0" "s0" none [] none false [leaf] [x]

/-- The root that is left when the leaf is removed. -/
def stump : Unfolding := .node "s0" "s0" none [] none true [] []

section Stalk

open Unfolding

variable (hx : letterAt x (agent - 1) = .ok letter)

include hx

theorem prune_stalk {applies : String → Bool} (h0 : applies "s0" = true) (action : String) :
    (stalk x).prune applies agent action = if letter = action then (stalk x, .ok false) else (stump, .ok true) := by
  have hleaf : leaf.prune applies agent action = (leaf, .ok false) := by
    rw [leaf, prune, stays]
    · split <;> rfl
    · simp
  have hstays : stays false agent action [leaf] [x] = .ok [decide (letter = action)] := by
    rw [stays, hx, stays]
    · simp [bind, Except.bind, pure, Except.pure]
    · simp
  rw [stalk, prune, if_pos h0, hstays]
  by_cases h : letter = action
  · rw [if_pos h, decide_eq_true h]
    simp only [pruneKept, headD_cons, hleaf]
    rfl
  · rw [if_neg h, decide_eq_false h]
    rfl

end Stalk

/-- A joint action of `n` agents in which one agent plays `A` and the others idle. -/
def lettered (i n : Nat) : Move := String.ofList ((range n).map fun j => if j = i then 'A' else 'I')

theorem letterAt_lettered {i n : Nat} (hle : agent ≤ n) (hlt : (i : Int) + 1 < agent + n) :
    letterAt (lettered i n) (agent - 1) = .ok (if agent = i + 1 then "A" else "I") := by
  -- a number below one counts from the last agent, which is far behind the one that plays
  obtain ⟨j, hplace, hj, heq⟩ : ∃ j, place? n (agent - 1) = some j ∧ j < n ∧ (j = i ↔ agent = i + 1) := by
    unfold place?
    split
    · exact ⟨(agent - 1 + n).toNat, by rw [if_pos (by simp; omega)], by omega, by omega⟩
    · exact ⟨(agent - 1).toNat, by rw [if_pos (by simp; omega)], by omega, by omega⟩
  unfold letterAt nth
  rw [lettered, String.toList_ofList, length_map, length_range, hplace]
  simp only [getElem?_map, getElem?_range hj, Option.map_some, heq]
  split <;> rfl

section Gate

theorem run_statesWhere_gate (s : Scene) :
    (statesWhere gateSetting "p").run.run s = (.ok ["s0"], { s with model := gate }) := by
  have hreport : Checker.Branching.checkModel gateSetting.reader gate "p" =
      .ok ⟨"Result: \x7b's0'\x7d", some "Initial state s0: True"⟩ := by decide +kernel
  exact run_statesWhere gate_load (by decide) hreport names_s0 s

variable (height : Int)

theorem run_gate_cons (hx : letterAt x (agent - 1) = .ok letter) (rest : List (Int × Plan)) :
    (applyAssigned gateSetting (pure true) height ((agent, some []) :: rest) false).run.run ⟨gate, stalk x⟩ =
      (applyAssigned gateSetting (pure true) height rest (letter ≠ "I")).run.run
        ⟨gate, if letter = "I" then stalk x else stump.unmarked⟩ := by
  have hrules : (applyRules gateSetting (pure true) height agent [] false).run.run ⟨gate, stalk x⟩ =
      (.ok (some false), ⟨gate, stalk x⟩) := rfl
  have hprune := run_pruneIdle gate_load (ofList gate.states) "I" agent ⟨gate, stalk x⟩
  rw [prune_stalk hx (by decide)] at hprune
  by_cases h : letter = "I"
  · rw [if_pos h] at hprune
    rw [run_applyAssigned_cons hrules hprune, h]
    rfl
  · rw [if_neg h] at hprune
    rw [run_applyAssigned_cons hrules hprune, if_neg h, decide_eq_true h]

theorem run_idle_gate (rest : List (Int × Plan)) : ∀ {plans : List (Int × Plan)},
    (∀ e ∈ plans, e.2 = some [] ∧ letterAt x (e.1 - 1) = .ok "I") →
    (applyAssigned gateSetting (pure true) height (plans ++ rest) false).run.run ⟨gate, stalk x⟩ =
      (applyAssigned gateSetting (pure true) height rest false).run.run ⟨gate, stalk x⟩
  | [], _ => rfl
  | (agent, p) :: plans, h => by
    obtain ⟨⟨rfl, hidle⟩, hplans⟩ := forall_mem_cons.1 h
    rw [cons_append, run_gate_cons height hidle]
    exact run_idle_gate rest hplans

theorem tree_gate {before after : List (Int × Plan)}
    (hbefore : ∀ e ∈ before, e.2 = some [] ∧ letterAt x (e.1 - 1) = .ok "I") (hafter : ∀ e ∈ after, e.2 = none)
    (hx : letterAt x (agent - 1) = .ok letter) :
    ((applyAssigned gateSetting (pure true) height (before ++ (agent, some []) :: after) false).run.run
      ⟨gate, stalk x⟩).2.tree = if letter = "I" then stalk x else stump.unmarked := by
  rw [run_idle_gate height _ hbefore, run_gate_cons height hx]
  cases after with
  | nil => rfl
  | cons e after =>
    obtain ⟨a, p⟩ := e
    obtain rfl : p = none := hafter _ mem_cons_self
    rfl

end Gate

/-! ## Numbers that go on one by one -/

theorem length_agentsFrom (k n : Nat) : (agentsFrom k n).length = n := by
  rw [agentsFrom, length_map, length_range']

theorem mem_agentsFrom {k n : Nat} (h : agent ∈ agentsFrom k n) : (k : Int) ≤ agent ∧ agent < k + n := by
  obtain ⟨i, hi, rfl⟩ := mem_map.1 h
  have hmem := mem_range'_1.1 hi
  omega

theorem agentsFrom_append (k n l : Nat) : agentsFrom k (n + l) = agentsFrom k n ++ agentsFrom (k + n) l := by
  rw [agentsFrom, ← range'_append_1, map_append]
  rfl

theorem eq_agentsFrom_or : ∀ (agents : List Int) (k : Nat), agents = agentsFrom k agents.length ∨
    ∃ (n : Nat) (agent : Int) (more : List Int), agents = agentsFrom k n ++ agent :: more ∧ agent ≠ k + n
  | [], k => .inl rfl
  | agent :: more, k => by
    by_cases hagent : agent = k
    · subst hagent
      rcases eq_agentsFrom_or more (k + 1) with hmore | ⟨n, agent, later, hmore, hne⟩
      · refine .inl ?_
        rw [length_cons, agentsFrom_succ, ← hmore]
      · refine .inr ⟨n + 1, agent, later, ?_, by omega⟩
        rw [agentsFrom_succ, cons_append, ← hmore]
    · exact .inr ⟨0, agent, more, rfl, by omega⟩

theorem exists_applyPlans_ne {agents : List Int} (h : agents ≠ agentsFrom 1 agents.length) (height : Int) :
    ∃ plans : List Plan, plans.length = agents.length ∧
      applyPlans gateSetting (pure true) height 1 plans false ≠
        applyAssigned gateSetting (pure true) height (agents.zip plans) false := by
  obtain ⟨n, agent, more, rfl, hne⟩ := (eq_agentsFrom_or agents 1).resolve_left h
  -- the one who plays stands so far from the end that no number below one meets it
  obtain ⟨size, hsize⟩ : ∃ size, size = n + 2 + agent.natAbs := ⟨_, rfl⟩
  let before : List Plan := replicate n (some [])
  let after : List Plan := replicate more.length none
  have hlength : before.length = (agentsFrom 1 n).length := by rw [length_replicate, length_agentsFrom]
  have hzip : ∀ (a : Int) (as : List Int), (agentsFrom 1 n ++ a :: as).zip (before ++ some [] :: after) =
      (agentsFrom 1 n).zip before ++ (a, some []) :: as.zip after := fun a as => by
    rw [zip_append hlength.symm, zip_cons_cons]
  have hplaces : applyPlans gateSetting (pure true) height 1 (before ++ some [] :: after) false =
      applyAssigned gateSetting (pure true) height ((agentsFrom 1 n).zip before ++ (((1 + n : Nat) : Int), some []) ::
        (agentsFrom (1 + n + 1) more.length).zip after) false := by
    rw [← hzip, ← agentsFrom_succ, ← agentsFrom_append]
    refine (applyPlans_eq_applyAssigned _ _ _ _ 1 _).trans ?_
    simp [before, after]
  have hbefore : ∀ e ∈ (agentsFrom 1 n).zip before, e.2 = some [] ∧ letterAt (lettered n size) (e.1 - 1) = .ok "I" := by
    rintro ⟨a, p⟩ he
    obtain ⟨ha, hp⟩ := of_mem_zip he
    have hrange := mem_agentsFrom ha
    refine ⟨eq_of_mem_replicate hp, ?_⟩
    rw [letterAt_lettered (by omega) (by omega), if_neg (by omega)]
  have hafter : ∀ (as : List Int), ∀ e ∈ as.zip after, e.2 = none := fun as e he => eq_of_mem_replicate (of_mem_zip he).2
  have hplayed : letterAt (lettered n size) (((1 + n : Nat) : Int) - 1) = .ok "A" := by
    rw [letterAt_lettered (by omega) (by omega), if_pos (by omega)]
  have hidled : letterAt (lettered n size) (agent - 1) = .ok "I" := by
    rw [letterAt_lettered (by omega) (by omega), if_neg (by omega)]
  refine ⟨before ++ some [] :: after, by simp [before, after, length_agentsFrom], fun heq => ?_⟩
  have htree := congrArg (fun x : Step Bool => (x.run.run ⟨gate, stalk (lettered n size)⟩).2.tree) heq
  simp only [hplaces, hzip, tree_gate height hbefore (hafter _) hplayed, tree_gate height hbefore (hafter _) hidled] at htree
  simp [stump, stalk, unmarked] at htree

/-! ## Searches -/

/-- Whether the formula holds in the tree pruned by plans, each by the letters of the agent it is made for. -/
def assignedVerdict (set : Setting) (height : Int) (formula : String) (agents : List Int) (plans : List Plan) :
    Step (Option Bool) := do
  if !(← applyAssigned set (pure true) height (agents.zip plans) false) then return none
  let report ← check set.reader (← prunedText set height) formula
  return some (report.initial? = some Pruning.accepted)

/-- The search for a profile, each of its strategies pruning by the letters of the agent it is made for. -/
def findAssigned (reader : Formula.Logic) (source formula : String) : Drawing Finding :=
  (searchBy source formula fun t => assignedVerdict ⟨reader, source, none⟩ 4 t.formula t.agents).run' {}

theorem verdict_eq_assignedVerdict (set : Setting) (height : Int) (formula : String) (plans : List Plan) :
    verdict set height formula plans = assignedVerdict set height formula (agentsFrom 1 plans.length) plans := by
  have happly := applyPlans_eq_applyAssigned set (pure true) height plans 1 false
  unfold verdict assignedVerdict
  rw [← happly]
  rfl

theorem length_of_mem_profiles : ∀ {sss : List (List Strategy)} {p : Profile}, p ∈ profiles sss → p.length = sss.length
  | [], p, h => by
    rw [profiles, mem_singleton] at h
    exact congrArg length h
  | ss :: rest, p, h => by
    rw [profiles, mem_flatMap] at h
    obtain ⟨s, -, h⟩ := h
    obtain ⟨p, hp, rfl⟩ := mem_map.1 h
    rw [length_cons, length_cons, length_of_mem_profiles hp]

section Find

open Searching

theorem agents_of_task {source : String} {x m : Model} {t : Task} {d d' : Draws}
    (h : ((task source formula).run x).run.run d = (.ok (t, m), d')) :
    Heading.agentsOf (some formula) none = .ok t.agents := by
  obtain ⟨m, -, hstart⟩ := bind_eq_ok.1 (of_run_task h).1
  exact (Task.of_start hstart).2.2.1

theorem agree_strategiesAt_length (t : Task) (i : Int) :
    Searching.Agree (fun _ => True) (fun sss => sss.length = t.agents.length) (strategiesAt t i)
      (strategiesAt t i) := by
  unfold strategiesAt
  refine (agree_lift _).bind fun guards _ => ?_
  refine Searching.agree_refl fun m _ d sss m' d' h => ⟨trivial, ?_⟩
  dsimp only at h
  generalize hstages : stagesFrom Guard.storyComplexity i 0 (ruleTable t.actionLists guards)
    (replicate t.agents.length []) = r at h
  cases r with
  | error e => cases h
  | ok r =>
    cases h
    rw [← (of_stagesFrom hstages).1.kept.length_eq, length_replicate]

theorem firstAccepted_congr {μ : Type → Type} [Monad μ] {test test' : β → μ (Option α)} :
    ∀ {bs : List β}, (∀ b ∈ bs, test b = test' b) → firstAccepted test bs = firstAccepted test' bs
  | [], _ => rfl
  | b :: bs, h => by
    obtain ⟨hb, hbs⟩ := forall_mem_cons.1 h
    rw [firstAccepted, firstAccepted, hb, firstAccepted_congr hbs]

theorem agree_search_profiles (t : Task) (height : Int)
    {test test' : Unfolding → Int → Profile → Searching (Option Finding)}
    (h : ∀ tree i p, p.length = t.agents.length → test tree i p = test' tree i p) :
    Searching.Agree (fun _ => True) (fun _ => True) (search t height test) (search t height test') := by
  unfold search
  refine (Searching.Agree.climb (Q := fun _ => True) trivial (fun i => ?_) _ _).bind fun _ _ => agree_any _
  refine (agree_any _).bind fun tree _ => (agree_strategiesAt_length t i).bind fun sss hsss => ?_
  rw [examine_nil, examine_nil,
    firstAccepted_congr fun p hp => h tree i p ((length_of_mem_profiles hp).trans hsss)]
  exact agree_any _

/-- For the first agents in their order, strategies prune by the letters of the agents they are made for. -/
theorem find_eq_findAssigned (reader : Formula.Logic) (source : String) {n : Nat}
    (h : Heading.agentsOf (some formula) none = .ok (agentsFrom 1 n)) :
    find reader source formula = findAssigned reader source formula := by
  refine run'_bind_congr fun {t m d d₁} htask => ?_
  have hagents : t.agents = agentsFrom 1 n := Except.ok.inj ((agents_of_task htask).symm.trans h)
  refine (agree_search_profiles t 4 (fun tree i p hp => ?_) m trivial d₁).1
  have hlength : (p.map some : List Plan).length = n := by
    rw [length_map, hp, hagents, length_agentsFrom]
  beta_reduce
  rw [verdict_eq_assignedVerdict, hlength, hagents]

end Find

/-- Plans are compared with the letters of the first agents, the plan at each place with the letter of the agent of that
number: the other letters make no difference to what is pruned. So a coalition is pruned by its own letters just if it
consists of the first agents in their order, and then a search does so. -/
theorem applyPlans_letters (agents : List Int) :
    (∀ set within height plans flag, applyPlans set within height 1 plans flag =
      applyAssigned set within height ((agentsFrom 1 plans.length).zip plans) flag) ∧
    (∀ (set : Setting) (height : Int) (plans : List Plan) (flag : Bool) (f : Move → Move),
      (∀ i : Int, 1 ≤ i → i ≤ plans.length → ∀ move, letterAt (f move) (i - 1) = letterAt move (i - 1)) →
      Commutes f (applyPlans set (pure true) height 1 plans flag)) ∧
    ((∀ set height plans, plans.length = agents.length → applyPlans set (pure true) height 1 plans false =
      applyAssigned set (pure true) height (agents.zip plans) false) ↔ agents = agentsFrom 1 agents.length) ∧
    ∀ reader source formula, Heading.agentsOf (some formula) none = .ok agents →
      agents = agentsFrom 1 agents.length → find reader source formula = findAssigned reader source formula := by
  have hplaces : ∀ set within height plans flag, applyPlans set within height 1 plans flag =
      applyAssigned set within height ((agentsFrom 1 plans.length).zip plans) flag := by
    intro set within height plans flag
    exact applyPlans_eq_applyAssigned set within height plans 1 flag
  refine ⟨hplaces, fun set height plans flag f => commutes_applyPlans set height plans flag,
    ⟨fun h => ?_, fun h set height plans hlength => ?_⟩, ?_⟩
  · by_contra hne
    obtain ⟨plans, hlength, hdiffer⟩ := exists_applyPlans_ne hne 4
    exact hdiffer (h gateSetting 4 plans hlength)
  · rw [hplaces, hlength, ← h]
  · intro reader source formula hagents h
    exact find_eq_findAssigned reader source (hagents.trans (congrArg Except.ok h))

/-- In the tree of a model, the strategy of the second agent to leave the state where `p` holds is refused, since the
first agent cannot follow it. By the letters of the second agent it is admitted. -/
theorem applyPlans_foreign_letter : ∃ tree, Unfolding.ofModel gate gate.states 4 = .ok tree ∧
    ((applyPlans gateSetting (pure true) 4 1 [some [⟨"p", "B"⟩]] false).run.run ⟨gate, tree⟩).1 = .ok false ∧
    ((applyAssigned gateSetting (pure true) 4 ([2].zip [some [⟨"p", "B"⟩]]) false).run.run ⟨gate, tree⟩).1 =
      .ok true := by decide +kernel

end Recall

end Arena.Natural
