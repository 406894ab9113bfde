/-
The search for a profile of natural strategies without memory: complexity by complexity, the
profiles are examined until one is accepted.
-/
import Arena.Checker.Alternating
import Arena.Natural.Heading
import Arena.Natural.Pruning

namespace Arena.Natural

structure Task where
  model : Model
  formula : String
  bound : Int
  agents : List Int
  actions : List (String × List String)

namespace Task

def names (t : Task) : List String := t.actions.map (·.1)

def actionLists (t : Task) : List (List String) := t.actions.map (·.2)

def start (check : Model → Outcome Unit) (m : Model) (formula : String) : Outcome Task := do
  check m
  let branching ← Heading.toBranching (some formula)
  let bound ← Heading.boundOf (some formula)
  let agents ← Heading.agentsOf (some formula) none
  let actions ← m.actions agents
  return ⟨m, branching, bound, agents, actions.map fun (name, as) => ("actions_" ++ name, as)⟩

def memoryless (source formula : String) : Outcome Task := do
  start (fun m => do m.checkMoves (← m.agentCount)) (← Model.load .plain source) formula

end Task

structure Finding where
  satisfied : Datum
  bound? : Option Int := none
  degrees? : Option String := none
  profile? : Option Profile := none

instance : ToDatum Finding := ⟨fun f => .record (
  ("Satisfiability", f.satisfied) ::
  (f.bound?.map fun k => ("Complexity Bound", Datum.int k)).toList ++
  (f.degrees?.map fun s => ("Satisfiability Degree", Datum.text s)).toList ++
  (f.profile?.map fun p => ("Winning Strategy per agent", profileDatum p)).toList)⟩

/-- Tries the complexities from `i` on, `n` of them, until one has a finding. -/
def climb {μ : Type → Type} [Monad μ] {α : Type} (level : Int → μ (Option α)) :
    Nat → Int → μ (Option α)
  | 0, _ => pure none
  | n + 1, i => do
    match ← level i with
    | some a => pure (some a)
    | none => climb level n (i + 1)

def searchMemoryless (t : Task) (test : Int → Profile → Outcome (Option Finding)) :
    Drawing Finding := do
  let level (i : Int) : Drawing (Option Finding) := do
    let table ← memorylessRules i t.names t.actionLists t.model.props
    let (_, stages) ← stagesFrom Guard.complexity i 0 table (List.replicate t.agents.length [])
    examineStages (fun p => test i p) stages
  match ← climb level t.bound.toNat 1 with
  | some f => return f
  | none => return { satisfied := .bool false, bound? := some t.bound }

/-- The search for a profile under which the formula holds in the firmly pruned model. The first
profile ends the search; its verdict is a truth value with a reason. -/
def findMemoryless (reader : Formula.Logic) (source formula : String) : Drawing Finding := do
  let t ← Task.memoryless source formula
  searchMemoryless t fun i p => do
    let verdict ← Pruning.firmVerdict reader source t.agents t.formula (p.map some)
    return some { satisfied := toDatum verdict, bound? := some i, profile? := some p }

def findFiltered (reader : Formula.Logic) (source formula : String)
    (find : Drawing Finding) : Drawing Finding := do
  let f := Heading.toAlternating formula
  let m ← Model.load .plain source
  let _ ← Formula.parse reader .atl (← m.agents.forFormula) f
  let report ← Checker.Alternating.check reader source f
  if report.initial? = some Pruning.accepted then find
  else return { satisfied := .bool false }

def degreesText (g : Pruning.Graded Fuzzy.Number) : Outcome String := do
  let parts ← g.structure_.states.mapM fun q => do
    return q ++ ": " ++ Text.fixedOne (← g.degrees.get q).toFloat
  return "  " ++ Text.join "  " parts

def findGraded (reader : Formula.Logic) (source formula : String) : Drawing Finding := do
  let t ← Task.memoryless source formula
  searchMemoryless t fun i p => do
    match ← Pruning.gradedVerdict reader source t.agents t.formula (p.map some) with
    | none => return none
    | some g =>
      if !g.holds then return none
      return some { satisfied := .bool true, bound? := some i, profile? := some p,
                    degrees? := some (← degreesText g) }

end Arena.Natural
