/-
Solution concepts for formulas of linear time. A profile is an equilibrium when no agent can win by
deviating alone; a coalition wins surely when every profile it can play wins.
-/
import Arena.Natural.Search

namespace Arena.Natural.Equilibrium

open Text

/-! ## Linear time -/

def bareOperator : Matcher Char := fun before s =>
  match s with
  | c :: rest => if (c = 'X' || c = 'F' || c = 'G') && before ≠ some 'A' then some (c, rest) else none
  | [] => none

/-- The last place in a word where the letter `U` stands between a nonempty left part and a letter. -/
def untilPlace? (word : List Char) : Option Nat :=
  ((List.range word.length).filter fun i =>
    0 < i && word[i]? == some 'U' && word[i + 1]?.any Char.isAlpha).getLast?

def untilWords : Matcher (List Char) := fun _ s => do
  let c ← s.head?
  if !c.isAlpha then none
  let word := s.takeWhile isWordChar
  let _ ← untilPlace? word
  return (word, s.dropWhile isWordChar)

/-- The formula in branching time: operators get a quantifier over all paths. -/
def toBranching (formula : String) : String :=
  untilWords.replaceAll (fun w => "A(" ++ String.ofList w ++ ")")
    (bareOperator.replaceAll (fun c => "A" ++ String.singleton c) formula)

/-! ## Tasks -/

/-- The task that a formula, a bound and agents set on a model. Actions are listed under the names of
the agents in the order in which the agents are given. -/
def task (source formula : String) (bound : Int) (agents : List Int) : Outcome Task := do
  let m ← Model.load .plain source
  m.graph.checkIdle (← m.agentCount)
  let actions ← m.actions agents
  let named := (actions.zip agents).map fun ((_, as), a) => ("actions_agent" ++ toString a, as)
  let merged := named.foldl (fun t (name, as) =>
    if t.any (·.1 == name) then t.map fun e => if e.1 == name then (name, as) else e
    else t ++ [(name, as)]) []
  return ⟨m, toBranching formula, bound, agents, merged⟩

def taskDatum (t : Task) : Outcome Datum := do
  return .tuple [tableDatum t.actions, toDatum t.actionLists, toDatum t.model.props, .text t.formula,
    toDatum t.agents, .int (← t.model.agentCount)]

/-! ## Sure wins -/

def lastVerdict (test : Profile → Outcome Bool) : List Profile → Bool → Outcome Bool
  | [], last => .ok last
  | p :: rest, _ => do lastVerdict test rest (← test p)

/-- Tries the complexities from `i` on, `n` of them, until the last profile of one wins. -/
def sureFrom (reader : Formula.Logic) (source : String) (t : Task) :
    Nat → Int → Drawing Finding
  | 0, _ => return { satisfied := .bool false, bound? := some t.bound }
  | n + 1, i => do
    let table ← memorylessRules i t.names t.actionLists t.model.props
    let ps ← emergingProfiles i t.agents.length table
    let wins ← lastVerdict
      (fun p => Pruning.lenientVerdict reader source t.agents t.formula (p.map some)) ps false
    if wins then return { satisfied := .bool true, bound? := some i }
    sureFrom reader source t n (i + 1)

def sureWin (reader : Formula.Logic) (source formula : String) (bound : Int) (agents : List Int) :
    Drawing Finding := do
  sureFrom reader source (← task source formula bound agents) bound.toNat 1

/-! ## Deviations -/

def bounded (rules : List Rule) : Nat → Int → List Strategy
  | 0, bound => if 0 ≤ bound then [[]] else []
  | n + 1, bound => rules.flatMap fun r =>
    let left := bound - Guard.complexity r.condition
    if left < 0 then [] else (bounded rules n left).map (r :: ·)

def deviations (plan : Plan) (bound : Int) (actions props : List String) :
    Drawing (List Strategy) := do
  let guards ← Guard.conditions props ["and", "or"] bound
  let candidates := guards.flatMap fun g => (g :: Guard.negated [g] bound).flatMap fun c =>
    if (Guard.complexity c : Int) ≤ bound then actions.map fun a => ⟨c, a⟩ else []
  return (bounded candidates (plan.getD []).length bound).filter fun s => some s ≠ plan

/-- The first of some deviations of an agent that wins or cannot be examined: the plans with it, and
whether it could be examined. -/
def decisive? (wins : List Plan → Outcome Bool) (plans : List Plan) (i : Nat) :
    List Strategy → Option (Outcome Unit × List Plan)
  | [] => none
  | s :: rest =>
    let changed := plans.set i (some s)
    match wins changed with
    | .ok false => decisive? wins plans i rest
    | .ok true => some (.ok (), changed)
    | .error f => some (.error f, changed)

/-- Looks for an agent, from the `i`-th on, that has a decisive deviation. Agents are passed over
while the plans win as they are. -/
def deviationFrom (t : Task) (wins : List Plan → Outcome Bool) (plans : List Plan) :
    Nat → List Int → Drawing (Option (Outcome Unit × List Plan))
  | _, [] => return none
  | i, a :: rest => do
    if ← wins plans then deviationFrom t wins plans (i + 1) rest
    else
      let actions := ((t.actions.find? (·.1 == "actions_agent" ++ toString a)).map (·.2)).getD []
      let plan ← nth plans i
      let ds ← deviations plan t.bound actions t.model.props
      match decisive? wins plans i ds with
      | some found => return some found
      | none => deviationFrom t wins plans (i + 1) rest

/-- What an examination of plans comes to. The plans afterwards have the decisive deviation in them,
if there is one. -/
structure Examination where
  finding : Outcome (Option Finding)
  plans? : Option (List Plan)

def isEquilibrium (reader : Formula.Logic) (source formula : String) (bound : Int)
    (plans? : Option (List Plan)) (agents : List Int) : Drawing Examination := do
  let t ← task source formula bound agents
  let answer (b : Bool) : Option Finding := some { satisfied := .bool b, bound? := some bound }
  match plans? with
  | none => return ⟨.ok none, none⟩
  | some plans =>
    let wins (ps : List Plan) : Outcome Bool :=
      Pruning.lenientVerdict reader source agents t.formula ps
    match ← deviationFrom t wins plans 0 agents with
    | some (examined, changed) => return ⟨examined.map fun _ => answer false, some changed⟩
    | none => return ⟨.ok (answer true), some plans⟩

/-- Whether there is an equilibrium. A profile cannot be examined without its model, so there is an
answer only when there is no profile. -/
def existsEquilibrium (source formula : String) (bound : Int) (agents : List Int) :
    Drawing Finding := do
  let t ← task source formula bound agents
  let level (i : Int) : Drawing (Option Finding) := do
    let table ← memorylessRules i t.names t.actionLists t.model.props
    let ps ← emergingProfiles i t.agents.length table
    if ps.isEmpty then return none else throw .shape
  let _ ← climb level bound.toNat 1
  return { satisfied := .bool false, bound? := some bound }

/-! ## Single profiles -/

def firstProfile (agents : List Int) (bound : Int) (names : List String)
    (actions : List (List String)) (props : List String) : Drawing (Option Profile) := do
  let table ← memorylessRules bound names actions props
  let (_, stages) ← stagesFrom Guard.complexity bound 0 table (List.replicate agents.length [])
  examineStages (fun p => pure (some p)) stages

/-- One rule for each agent, drawn from its candidates; none when an agent has no candidates. -/
def drawRules (table : RuleTable) : List Int → Drawing (Option (List Rule))
  | [] => return some []
  | a :: rest => do
    let rules := ((table.find? (·.1 == "actions_agent" ++ toString a)).map (·.2)).getD []
    if rules.isEmpty then return none
    let r ← Draws.oneOf rules
    return (← drawRules table rest).map (r :: ·)

/-- Draws rules at most `n` times, until their total complexity is the bound. -/
def drawUntil (table : RuleTable) (agents : List Int) (bound : Int) : Nat → Drawing (Option Profile)
  | 0 => return none
  | n + 1 => do
    match ← drawRules table agents with
    | none => drawUntil table agents bound n
    | some rules =>
      if (rules.map fun r => (Guard.complexity r.condition : Int)).foldl (· + ·) 0 = bound then
        return some (rules.map fun r => [r])
      drawUntil table agents bound n

def drawnProfile (agents : List Int) (bound : Int) (actions : List (String × List String))
    (props : List String) : Drawing (Option Profile) := do
  let lists := agents.map fun a =>
    ((actions.find? (·.1 == "agent" ++ toString a)).map (·.2)).getD []
  let table ← memorylessRules bound (actions.map (·.1)) lists props
  drawUntil table agents bound 100

end Arena.Natural.Equilibrium
