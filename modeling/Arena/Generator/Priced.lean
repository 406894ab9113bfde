/-
Drawn models with priced joint actions. Two agents play `A`, `B` or `^`; each joint action of a
state costs some of each resource, for both agents together or for each of them.
-/
import Arena.Natural.Draw

namespace Arena.Generator.Priced

open Text

def forEach {α β : Type} (xs : List α) (draw : α → Drawing β) : Drawing (List β) := xs.mapM draw

def below (n : Int) : List Nat := List.range n.toNat

def stateNames (n : Int) : List String := (below n).map fun i => "s" ++ toString i

def drawMatrix (n : Int) : Drawing (List (List String)) :=
  forEach (below n) fun _ => forEach (below n) fun _ =>
    return String.join (← Draws.several ["A", "^", "B"] 2)

def drawPrice : Drawing String := return toString (← Draws.between 1 5)

/-- The price of one resource: one number, or one for each of the two agents. -/
def drawResource (split : Bool) : Drawing String := do
  if split then return join "," [← drawPrice, ← drawPrice] else drawPrice

abbrev Prices := List (String × List (String × String))

def put {α : Type} (t : List (String × α)) (key : String) (x : α) : List (String × α) :=
  if t.any (·.1 == key) then t.map fun e => if e.1 == key then (key, x) else e
  else t ++ [(key, x)]

def Prices.add (t : Prices) (action state price : String) : Prices :=
  let here := ((t.find? (·.1 == action)).map (·.2)).getD []
  put t action (put here state price)

def drawPrices (split : Bool) (resources : Int) (rows : List (String × List String)) :
    Drawing Prices :=
  rows.foldlM (fun t (state, actions) => actions.foldlM (fun t action => do
    let price ← forEach (below resources) fun _ => drawResource split
    return Prices.add t action state ("$" ++ join ":" price)) t) []

def Prices.lines (t : Prices) : List String :=
  t.map fun (action, ps) => action ++ " " ++ join ";" (ps.map fun (q, p) => q ++ p)

def draw (split : Bool) (states resources : Int) : Drawing String := do
  let matrix ← drawMatrix states
  let names := stateNames states
  let initial ← Draws.oneOf names
  let prices ← drawPrices split resources (names.zip matrix)
  let labels ← forEach (below states) fun _ => forEach ["p", "q"] fun _ => Draws.between 0 1
  let heading := if split then "Costs_for_actions_split" else "Costs_for_actions"
  let lines := ["Transition"] ++ matrix.map (join " ") ++ ["Name_State", join " " names,
    "Initial_State", initial, heading] ++ prices.lines ++ ["Atomic_propositions", "p q", "Labelling"] ++
    labels.map (fun row => join " " (row.map toString)) ++ ["Number_of_agents", "2"]
  return join "\n" lines ++ "\n"

end Arena.Generator.Priced
