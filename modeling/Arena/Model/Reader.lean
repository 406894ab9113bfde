/-
Reading models. A header line opens its section, any other line belongs to the open one. Three kinds
of models know different sections; the two that price actions or grant capacities require
rectangular matrices. A line that cannot be read ends the reading; what was read before it stays.
-/
import Arena.Model.Basic

namespace Arena.Model

inductive Kind where
  | plain
  | cost
  | capacity
  deriving DecidableEq, Repr

inductive Section where
  | transition | unknown | stateNames | initialState | propositions | labelling | agentCount
  | resource | actionCosts | costs | splitCosts | capacities | assignment | capacityActions
  deriving DecidableEq, Repr

def header? (kind : Kind) (line : String) : Option Section :=
  match line with
  | "Transition" => some .transition
  | "Unkown_Transition_by" => some .unknown
  | "Name_State" => some .stateNames
  | "Initial_State" => some .initialState
  | "Atomic_propositions" => some .propositions
  | "Labelling" => some .labelling
  | "Number_of_agents" => some .agentCount
  | _ =>
    match kind, line with
    | .plain, "Resource" => some .resource
    | .plain, "Actions_Costs_from_Transition" => some .actionCosts
    | .cost, "Transition_With_Costs" => some .transition
    | .cost, "Costs_for_actions" => some .costs
    | .cost, "Costs_for_actions_split" => some .splitCosts
    | .capacity, "Capacities" => some .capacities
    | .capacity, "Capacities_assignment" => some .assignment
    | .capacity, "Actions_for_capacities" => some .capacityActions
    | _, _ => none

/-- A model that is being read: the open section, and the rows of the two matrices as words. -/
structure Draft where
  model : Model
  current : Option Section := none
  rows : List (List String) := []
  labelRows : List (List String) := []

/-- A word as a table keeps it: without NUL characters at its end. -/
def kept (w : String) : String := String.ofList (Text.dropRight (· == '\x00') w.toList)

def keptWords (line : String) : List String := (Text.words line).map kept

def putCost (costs : List (String × Cost)) (key : String) (c : Cost) : List (String × Cost) :=
  if costs.any (fun e => e.1 == key) then
    costs.map fun e => if e.1 == key then (key, c) else e
  else costs ++ [(key, c)]

def readInts (ws : List String) : Outcome (List Int) :=
  ws.mapM fun w => orFault .value (Text.readInt? w)

def readCost (perAgent : Bool) (s : String) : Outcome Cost :=
  if perAgent then do
    return .split (← (Text.split ":" s).mapM fun c => readInts (Text.split "," c))
  else do return .shared (← readInts (Text.split ":" s))

/-- Adds the entries `state$cost` of an action, up to the first that cannot be read. -/
def addCosts (perAgent : Bool) (action : String) (costs : List (String × Cost)) :
    List String → List (String × Cost) × Option Fault
  | [] => (costs, none)
  | entry :: rest =>
    let parts := Text.split "$" entry
    let cost : Outcome Cost := do readCost perAgent (← nth parts 1)
    match cost with
    | .ok c => addCosts perAgent action (putCost costs (costKey action (parts.headD "")) c) rest
    | .error f => (costs, some f)

def addCostLine (perAgent : Bool) (costs : List (String × Cost)) (line : String) :
    List (String × Cost) × Option Fault :=
  match Text.words line with
  | action :: entries :: _ => addCosts perAgent action costs (Text.split ";" entries)
  | _ => (costs, some .position)

def Draft.addLine (kind : Kind) (d : Draft) (line : String) : Draft × Option Fault :=
  let m := d.model
  match d.current with
  | none => (d, none)
  | some .transition => ({ d with rows := d.rows ++ [Text.words line] }, none)
  | some .unknown => (d, none)
  | some .stateNames => ({ d with model := { m with states := keptWords line } }, none)
  | some .initialState => ({ d with model := { m with initial := line } }, none)
  | some .propositions => ({ d with model := { m with props := keptWords line } }, none)
  | some .labelling => ({ d with labelRows := d.labelRows ++ [Text.words line] }, none)
  | some .agentCount =>
    if kind = .plain then
      match Text.readInt? line with
      | some n => ({ d with model := { m with agents := .number n } }, none)
      | none => (d, some .value)
    else ({ d with model := { m with agents := .text line } }, none)
  | some .resource =>
    match Text.readInt? line with
    | some n => ({ d with model := { m with resource := n } }, none)
    | none => (d, some .value)
  | some .actionCosts =>
    ({ d with model := { m with actionCosts := m.actionCosts ++ [Text.words line] } }, none)
  | some .costs =>
    let (costs, fault) := addCostLine false m.costs line
    ({ d with model := { m with costs } }, fault)
  | some .splitCosts =>
    let (costs, fault) := addCostLine true m.costs line
    ({ d with model := { m with costs } }, fault)
  | some .capacities => ({ d with model := { m with capacities := keptWords line } }, none)
  | some .assignment =>
    ({ d with model := { m with assignment := m.assignment ++ [Text.words line] } }, none)
  | some .capacityActions =>
    ({ d with model := { m with capacityActions := m.capacityActions ++ [Text.words line] } }, none)

def Draft.add (kind : Kind) (d : Draft) (line : String) : Draft × Option Fault :=
  match header? kind line with
  | some s =>
    ({ d with
        current := some s
        model := { d.model with
          weighted := d.model.weighted || line = "Transition_With_Costs" } }, none)
  | none => d.addLine kind line

def Draft.addAll (kind : Kind) (d : Draft) : List String → Draft × Option Fault
  | [] => (d, none)
  | line :: rest =>
    match d.add kind line with
    | (d, none) => addAll kind d rest
    | (d, some f) => (d, some f)

def rectangular (rows : List (List String)) : Bool :=
  match rows with
  | [] => true
  | r :: rest => rest.all fun s => s.length == r.length

/-- The labels that words denote: the words `0` and `1` are numbers. -/
def labelCell (w : String) : Cell :=
  if w = "0" then .num 0 else if w = "1" then .num 1 else .text w

def Draft.finish (kind : Kind) (d : Draft) : Model × Option Fault :=
  let word (w : String) : String := if kind = .plain then w else kept w
  let withGraph (m : Model) : Model :=
    { m with graph := d.rows.map fun r => r.map fun w => Cell.ofWord (word w) }
  let withLabels (m : Model) : Model :=
    { m with labels := d.labelRows.map fun r => r.map fun w => labelCell (word w) }
  if kind = .plain then (withLabels (withGraph d.model), none)
  else if !rectangular d.rows then (d.model, some .value)
  else if !rectangular d.labelRows then (withGraph d.model, some .value)
  else (withLabels (withGraph d.model), none)

/-- Reads a model text; the second part says why the reading ended early, if it did. -/
def read (kind : Kind) (source : String) : Model × Option Fault :=
  let lines := (Text.lines (Text.unifyLineEnds source)).map Text.trim
  match Draft.addAll kind { model := { agents := .text "" } } lines with
  | (d, some f) => (d.model, some f)
  | (d, none) => d.finish kind

def load (kind : Kind) (source : String) : Outcome Model :=
  match read kind source with
  | (m, none) => .ok m
  | (_, some f) => .error f

end Arena.Model
