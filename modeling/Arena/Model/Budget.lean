/-
Prices of actions. A digit of the cost matrix prices the letter of an agent in the cell at the same
place; a strategy is affordable when what each agent spends on its rules is within the resource.
-/
import Arena.Model.Moves

namespace Arena

structure Rule where
  condition : String
  action : String
  deriving DecidableEq, Repr

instance : ToDatum Rule := ⟨fun r => .tuple [.text r.condition, .text r.action]⟩
instance : OfDatum Rule := ⟨fun d => ⟨ofDatum (d.item 0), ofDatum (d.item 1)⟩⟩

abbrev Strategy := List Rule

namespace Model

def playsLetter (cell : Cell) (agent : Int) (letter : String) : Bool :=
  match cell with
  | .num _ => false
  | .text s => s ≠ "*" && (Text.split "," s).any fun move =>
      agent ≤ (move.length : Int) && (letterAt move (agent - 1)).toOption == some letter

def findLetter? (m : Model) (agent : Int) (letter : String) : Option (Nat × Nat) :=
  (m.graph.zip (List.range m.graph.length)).findSome? fun (row, i) =>
    (row.findIdx? fun c => playsLetter c agent letter).map (i, ·)

/-- What an agent pays for a letter: the agent's digit at the first place where it plays it. -/
def letterCost (m : Model) (letter : String) (agent : Int) : Outcome Int := do
  if agent < 1 then .error .agentRange
  match m.agents with
  | .text _ => .error .shape
  | .number n => if n < agent then .error .agentRange
  match m.findLetter? agent letter with
  | none => .error (.unpricedAction letter (toString agent))
  | some (i, j) =>
    let entry ← nth (← nth m.actionCosts i) j
    orFault .value (Text.readInt? (← letterAt entry (agent - 1)))

def strategyCost (m : Model) (agent : Int) (strategy : Strategy) : Outcome Int := do
  return (← strategy.mapM fun r => m.letterCost r.action agent).foldl (· + ·) 0

def affordableFrom (m : Model) : Nat → List Strategy → Outcome Bool
  | _, [] => .ok true
  | agent, s :: rest => do
    if m.resource < (← m.strategyCost agent s) then return false
    affordableFrom m (agent + 1) rest

def affordable (m : Model) (strategies : List Strategy) : Outcome Bool :=
  m.affordableFrom 1 strategies

end Model

end Arena
