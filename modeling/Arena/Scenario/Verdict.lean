/-
The check of a given strategy in a scenario: its model is pruned firmly by the strategies, and the
formula must hold in what is left.
-/
import Arena.Natural.Search
import Arena.Scenario.Plan

namespace Arena.Scenario

def kindOf : Datum → String
  | .null => "NoneType"
  | .bool _ => "bool"
  | .int _ => "int"
  | .float _ => "float"
  | .text _ => "str"
  | .list _ => "list"
  | .tuple _ => "tuple"
  | .set _ => "set"
  | .dict _ => "dict"

/-- A value that is given as a scenario: a table is one, and a text names a file. -/
def given : Datum → Outcome Datum
  | .dict es => .ok (.dict es)
  | .text _ => .error .file
  | d => .error (.unsupportedModel (kindOf d))

structure Verdict where
  holds : Bool
  bound : Int
  reason : String
  profile : Natural.Profile

def check (reader : Formula.Logic) (scenario strategies : Datum) : Outcome Verdict := do
  let d := inputOf scenario
  let c ← convert true (.record [("input", d)])
  let task ← Natural.Task.memoryless c.text (c.formula?.getD "")
  let strategies ← match strategies with
    | .dict _ => .ok ((strategies.get? "strategy_natural").getD (.dict []))
    | _ => .error .member
  let profile ← readStrategies {}
    (.record [("input", d), ("output", .record [("strategy_natural", strategies)])])
  let (holds, reason) ←
    Natural.Pruning.firmVerdict reader c.text task.agents task.formula (profile.map some)
  return ⟨holds, task.bound, reason, profile⟩

def Verdict.toDatum (v : Verdict) : Datum :=
  if v.holds then .record [("Satisfiability", .bool true), ("Attempt", .int 1),
    ("Winning Strategy per agent", Natural.profileDatum v.profile)]
  else .record ([("Satisfiability", .bool false), ("Complexity Bound", .int v.bound),
    ("Attempt", .int 1)] ++ (if v.reason = "" then [] else [("Reason", .text v.reason)]))

def Verdict.text (v : Verdict) : String :=
  let lines := if v.holds then ["Satisfiable: True", "Attempt: 1", "Winning Strategy per agent:",
      (Natural.profileDatum v.profile).print]
    else ["Satisfiable: False", "Complexity Bound: " ++ toString v.bound, "Attempt: 1"] ++
      (if v.reason = "" then [] else ["Reason:", v.reason])
  Text.join "\n" lines ++ "\n"

end Arena.Scenario
