/-
Models under design: the number of agents, the states, the propositions with the labelling, the
labels of the transitions and the prices of joint actions. `Draft.print` writes the text of a model.
In the label of a transition bars divide the agents' actions.
-/
import Arena.Data.Exchange

namespace Arena

structure Draft.Price where
  state : String
  move : String
  amounts : List Datum
  deriving BEq

instance : OfDatum Draft.Price := ⟨fun d => ⟨ofDatum (d.item 0), ofDatum (d.item 1), ofDatum (d.item 2)⟩⟩

structure Draft where
  agents : Nat
  states : List String
  props : List String
  labels : List (List String)
  prices : List Draft.Price
  moves : List (List String)
  deriving BEq

namespace Draft

def noAction : String := "No Action"

def withoutBars (label : String) : String := Text.replace "|" "" label

def writeRows (rows : List (List String)) : String :=
  Text.join "\n" (rows.map fun row => String.join (row.map (· ++ " ")))

/-- A transition as it is written; without a move of any agent there is none. -/
def writeMove (d : Draft) (label : String) : String :=
  if label = Text.join "|" (List.replicate d.agents noAction) then "0" else withoutBars label

def Price.print (p : Price) : String :=
  withoutBars p.move ++ " " ++ p.state ++ "$" ++ Text.join ":" (p.amounts.map Datum.display) ++ "\n"

def print (d : Draft) : String :=
  "\n" ++ String.join ([
    "Transition", writeRows (d.moves.map (·.map d.writeMove)),
    "Name_State", Text.join " " d.states,
    "Initial_State", "s0",
    "Atomic_propositions", Text.join " " d.props,
    "Labelling", writeRows (d.labels.map fun held =>
      d.props.map fun p => if held.contains p then "1" else "0"),
    "Number_of_agents", toString d.agents].map (· ++ "\n")) ++
  if d.prices.isEmpty then "" else "Costs_for_actions\n" ++ String.join (d.prices.map Price.print)

end Draft

end Arena
