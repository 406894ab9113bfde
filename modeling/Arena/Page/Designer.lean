/-
The pages on which a model is designed step by step: agents, states, propositions, labelling,
resources, actions, each agent's transitions, prices, the picture, and the formula. Each step adds
one entry to the session.
-/
import Arena.Diagram.CaseStudy
import Arena.Formula.Outline
import Arena.Model.Draft
import Arena.Page.Basic

namespace Arena.Page.Designer

/-! ## Names -/

def askCount (label : String) (low high : Nat) : Page Nat := do
  let options := (List.range' low (high - low)).map toString
  return (← (← chooseText label options).asInt).toNat

def askNames (label : String) (default : Nat → Outcome String) (n : Nat) : Page (List Datum) :=
  (List.range n).mapM fun i => do askText (label ++ toString i) (← default i)

def numbered (word : String) (i : Nat) : Outcome String := .ok (word ++ toString i)

def next (label : String) (e : Datum) (stage : Int) : Page Unit := do
  if ← pressed label then
    addEntry (.given e)
    goTo stage
    again

def agents : Page Unit := do
  let n ← askCount "Number of agent" 1 15
  let names ← askNames "Name of the agent number " (numbered "A") n
  next "Next : To State" (.list [.list names, .int (names.length - 1)]) 1

def states : Page Unit := do
  let n ← askCount "Number of State" 1 25
  let names ← askNames "Name of the state number " (numbered "s") n
  next "Next : To Atoms" (.list names) 2

def propositions : Page Unit := do
  let n ← askCount "Number of Atoms" 1 25
  let names ← askNames "Name of the atom " (numbered "ap") n
  next "Next : To State-Atoms" (.list names) 3

def labelling : Page Unit := do
  tell "For each state"
  let names ← (← entry 1).members
  let props ← entry 2
  let labels ← names.mapM fun name => do
    let first ← props.elementAt 0
    chooseSome ("Labels of state " ++ name.display) (← props.members) [first]
  next "Next : To Resources" (.list labels) 4

def resources : Page Unit := do
  let n ← askCount "Number of Resources" 0 11
  let names ← askNames "Name of the resource " (numbered "r") n
  next "Next : To Actions" (.list names) 5

def capital (i : Nat) : Outcome String := letterAt "ABCDEFGHIJKLMNOPQRSTUVWXYZ" i

/-- Asks for the actions. Every action and taking no part are always there. -/
def actions : Page Unit := do
  let n ← askCount "Number of Action" 1 25
  let names ← askNames "Name of the action number " capital n
  next "Next : To Transitions" (.list (.text "*" :: .text Draft.noAction :: names)) 6

/-! ## Transitions -/

def joined (chosen : Datum) : Outcome String := do
  return String.join (← chosen.asNames)

/-- The labels of the transitions: the actions of the agents from state to state, with bars between
them. -/
def labelsOf (matrices : List Datum) (n : Nat) : Outcome Datum := do
  let rows ← (List.range n).mapM fun i => do
    let row ← (List.range n).mapM fun j => do
      let parts ← matrices.mapM fun m => do
        joined (← (← m.elementAt (i : Nat)).elementAt (j : Nat))
      return Datum.text (Text.join "|" parts)
    return Datum.list row
  return .list rows

def addLabels : Page Unit := do
  let n ← (← entry 1).size
  addEntry (.given (← labelsOf (← required (·.matrices?)) n))

def number : Datum → Outcome Int
  | .int n => .ok n
  | _ => .error .shape

def setRest (f : Datum → Outcome Datum) : Page Unit := do
  match ← required (·.entries?) with
  | [] => throw (.fault .position)
  | .given (.list (a :: n :: more)) :: rest =>
    let n ← f n
    change ({ · with entries? := some (.given (.list (a :: n :: more)) :: rest) })
  | .given (.list _) :: _ => throw (.fault .position)
  | _ => throw (.fault .shape)

/-- Asks for the actions of the agent at a position from state to state; `count` is the number of
agents. -/
def transitions (agent count : Int) : Page Unit := do
  tell "Design your graph"
  tell "For each couple of state"
  let names ← (← entry 1).members
  let actions ← entry 5
  let agents := do (← entry 0).elementAt 0
  let rows ← names.mapM fun source => do
    let row ← names.mapM fun target => do
      let label := "Action of " ++ (← (← (← agents).elementAt agent).asText) ++ " in the state " ++
        (← source.asText) ++ " to " ++ (← target.asText) ++ "."
      chooseSome label (← actions.members) [← actions.elementAt 1]
    return Datum.list row
  let matrix := Datum.list rows
  if count - agent > 1 then
    if ← pressed ("Next : To " ++ (← (← (← agents).elementAt (agent + 1)).asText)) then
      setRest fun n => do return .int ((← number n) - 1)
      addMatrix matrix
      goTo 6
      again
  else if (← entry 4).truthy then
    if ← pressed "Next : To Cost" then
      addMatrix matrix
      goTo 7
      addLabels
      again
  else if ← pressed "Next : To Graph" then
    addMatrix matrix
    goTo 8
    addLabels
    addEntry (.given (.list []))
    again

def askPrices (move source target : Datum) (resources : List Datum) : Page (List Datum) :=
  resources.mapM fun r =>
    choose ("Cost of joint action " ++ move.display ++ " in " ++ source.display ++ " to state " ++
      target.display ++ " for resource " ++ r.display) ((List.range 11).map toDatum)

def prices : Page Unit := do
  tell "Add the costs for the actions"
  let rows ← (← entry 6).members
  let found ← (rows.zip (List.range rows.length)).mapM fun (row, i) => do
    let source ← (← entry 1).elementAt (i : Nat)
    let cells ← row.members
    (cells.zip (List.range cells.length)).mapM fun (move, j) => do
      let target ← (← entry 1).elementAt (j : Nat)
      if Text.contains (← move.asText) Draft.noAction then return []
      let amounts ← askPrices move source target (← (← entry 4).members)
      return [Datum.tuple [source, move, .list amounts]]
  next "Next : To Graph" (.list found.flatten.flatten) 8

/-! ## The finished model -/

def draftFile : String := "tmp.txt"

def draft : Page Draft := do
  let agents ← (← entry 0).elementAt 0
  let states ← entry 1
  let props ← entry 2
  let labels ← entry 3
  let prices ← entry 7
  let _ ← entry 5
  let moves ← entry 6
  return ⟨← agents.size, ← states.asNames, ← props.asNames, ofDatum labels, ofDatum prices, ofDatum moves⟩

def picture : Page Unit := do
  tell "Graph"
  let moves ← (← (← entry 6).members).mapM fun row => do return (← row.members).map Datum.text?
  let _ ← (← entry 0).elementAt 0
  let p ← Diagram.CaseStudy.drawModel moves (← (← entry 1).asNames)
  draw p
  writeFile draftFile (← draft).print
  next "Next : To Logic" (toDatum p) 9

/-! ## Formulas -/

/-- Asks for a logic and a formula, and shows the outline of the formula; with its kinds if `kinds`
holds. -/
def askFormula (logics : List String) (kinds : Bool) : Page (String × String) := do
  let logic ← chooseText "Select your logic" logics
  let formula ← askText "Write your formula" " "
  let (logic, formula) := (← logic.asText, ← formula.asText)
  tell s!"Your formula with the {logic} logic is {formula}"
  let o ← orFault .shape (Formula.Outline.read? formula)
  tell (Datum.bool o.isPlausible).print
  tell (Text.quotedNames o.pieces)
  if kinds then tell (Text.quotedNames (o.kinds.map Formula.PieceKind.name))
  return (logic, formula)

def formula : Page Unit := do
  let (logic, formula) ← askFormula ["ATL", "RBATL"] true
  next "Next : To Model Checking" (Datum.names [logic, formula]) 10

def verdict : Page Unit := do
  let e ← entry 9
  let method := if (← e.elementAt 0) == .text "RBATL" then Checker.Method.jointPrices else .alternating
  let formula ← orFault .member (← e.elementAt 1).text?
  let source := orFault .file ((← get).files.lookup draftFile)
  let r ← check method source formula
  tell r.result
  tell (r.initial?.getD "")

def closeAgents : Page Unit := do
  let n ← (← (← entry 0).elementAt 0).size
  setRest fun _ => .ok (.int n)

def main : Page Unit := do
  let stage ← required (·.stage?)
  if stage ≤ 0 then agents
  else match stage with
    | 1 => states
    | 2 => propositions
    | 3 => labelling
    | 4 => resources
    | 5 => actions
    | 6 =>
      let count ← (← (← entry 0).elementAt 0).size
      transitions (count - (← number (← (← entry 0).elementAt 1)) - 1) count
    | 7 =>
      closeAgents
      prices
    | 8 =>
      closeAgents
      picture
    | 9 => formula
    | 10 => verdict
    | _ => pure ()

/-! ## Other pages -/

/-- Asks for an action of an agent in each state, and goes on to the next agent if there are at least
two more states than agents so far; `last` is the position of the last state if there is none. -/
def strategy (agent last : Int) : Page Unit := do
  tell "Design your strategy"
  tell "For each agent in each state"
  let names ← (← entry 1).members
  let actions ← entry 2
  let agents := do (← entry 0).elementAt 0
  let chosen ← names.mapM fun name => do
    let label := "Action of " ++ (← (← (← agents).elementAt agent).asText) ++ " in the state " ++
      (← name.asText) ++ "."
    choose label (← actions.members)
  let last : Int := if names.isEmpty then last else names.length - 1
  if last - agent > 1 then
    if ← pressed ("Next : To " ++ (← (← (← agents).elementAt (agent + 1)).asText)) then
      setRest fun n => do return .int ((← number n) - 1)
      addMatrix (.list chosen)
      goTo 6
      again
  else if ← pressed "Next : To Logic" then
    addMatrix (.list chosen)
    goTo 7
    addEntry .matrices
    again

def trial : Page Unit := do
  if (← required (·.stage?)) = -1 then
    let (logic, formula) ← askFormula
      ["ATL", "CTL", "LTL", "SL", "CapATL", "OL", "OATL", "RBATL", "RABATL", "NatATL"] false
    if ← pressed "Next : To Parser" then
      let trials ← required (·.trials?)
      change ({ · with trials? := some (trials ++ [Datum.names [logic, formula]]) })
      goTo (-2)
      again

end Arena.Page.Designer
