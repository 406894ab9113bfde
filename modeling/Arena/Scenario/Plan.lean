/-
Strategies that come with a scenario. Rules with a condition over long names and an action become
rules over the symbols and codes of the model. The condition `T` holds everywhere.
-/
import Arena.Natural.Profile
import Arena.Scenario.Basic

namespace Arena.Scenario

open Text

def nonempty? (d : Datum) (key : String) : Option Datum :=
  (d.get? key).filter Datum.truthy

/-- The strategies in a document: those of its output, or else its own. -/
def strategiesOf (document : Datum) : Datum :=
  let output := (document.get? "output").getD (.dict [])
  ((nonempty? output "strategy_natural").or (nonempty? document "strategy_natural")).getD (.dict [])

/-- The code of an action; an action that the scenario does not know is coded by its first letter. -/
def codeOf (codes : Codes) (agent action : String) : String :=
  match codes.find? agent (.text action) with
  | some code => code
  | none =>
    match action.toList.filter isLetter, upper (slice action 0 1) with
    | c :: _, _ => upper (String.singleton c)
    | [], "" => "A"
    | [], s => s

def ruleText (rule : Datum) (key : String) : Outcome String :=
  match rule with
  | .dict _ => .ok (trim ((rule.get? key).getD (.text "")).display)
  | _ => .error .member

def ruleOf (codes : Codes) (symbols : Symbols) (agent : String) (rule : Datum) : Outcome Rule := do
  let condition ← ruleText rule "cond"
  let action ← ruleText rule "action"
  return ⟨if upper condition = "T" then "T" else shorten symbols condition, codeOf codes agent action⟩

/-- How strategies are read: for whom, and whether a strategy is completed. -/
structure Reading where
  coalitionFromFormula : Bool := true
  complete : Bool := false

def strategyOf (r : Reading) (codes : Codes) (symbols : Symbols) (strategies : Datum)
    (agent : String) : Outcome Strategy := do
  let rules ← match strategies with
    | .dict _ => ((nonempty? strategies agent).getD (.list [])).members
    | _ => .error .member
  let rules ← rules.mapM (ruleOf codes symbols agent)
  return if r.complete && rules.all (·.condition ≠ "T") then rules ++ [⟨"T", "I"⟩] else rules

def readStrategies (r : Reading) (document : Datum) : Outcome Natural.Profile := do
  let d := inputOf document
  let states ← d.part "states"
  let agents ← d.part "agents"
  let actions ← d.part "actions"
  let strategies := strategiesOf document
  let coalition := if r.coalitionFromFormula then coalitionOf (formulaOf d) else []
  let coalition ← match coalition, strategies with
    | [], .dict es => .ok (es.map (·.1.display))
    | [], _ => .error .member
    | cs, _ => .ok cs
  let symbols ← symbolsOf (← states.asNames) (labellingOf d)
  let codes ← codesOf (← agents.asNames) actions
  coalition.mapM (strategyOf r codes symbols strategies)

end Arena.Scenario
