/-
Drawn grids. Agents stand on the free cells of a grid with obstacles, never in the first row; in a
step each stays or goes to a neighbouring cell. A state says where each agent stands.
-/
import Arena.Generator.Priced
import Arena.Text.Digit

namespace Arena.Generator.Grid

open Text

abbrev Place := Int × Int

structure Plan where
  agents : Int := 2
  rows : Int := 2
  columns : Int := 2
  obstacles : Int := 2
  deriving DecidableEq, Repr

/-- Draws obstacles until there are as many as wanted. The number bounds the rounds. -/
def drawFrom (p : Plan) : Nat → List Place → Drawing (List Place)
  | 0, _ => throw .endless
  | n + 1, found => do
    if (found.length : Int) = p.obstacles then return found
    let r ← Draws.between 2 p.rows
    let c ← Draws.between 1 p.columns
    drawFrom p n (if found.contains (r, c) then found else found ++ [(r, c)])

/-- Draws the obstacles. The draws repeat, so a round as long as the choices that finds nothing new
shows that nothing new will be found. -/
def drawObstacles (p : Plan) : Drawing (List Place) := do
  drawFrom p ((p.obstacles.toNat + 1) * (2 * (← get).choices.length + 1)) []

def cells (p : Plan) : List Place :=
  (List.range p.rows.toNat).flatMap fun (r : Nat) =>
    (List.range p.columns.toNat).map fun (c : Nat) => ((r : Int) + 1, (c : Int) + 1)

def placements (cells : List Place) : Nat → List (List Place)
  | 0 => [[]]
  | n + 1 => (placements cells n).flatMap fun rest => cells.map (· :: rest)

/-- Where the agents can stand. With a negative number of rows or columns a first cell may be asked for where there
is none. -/
def states (p : Plan) (obstacles : List Place) : Outcome (List (List Place)) := do
  let size := p.rows * p.columns
  if p.agents < 0 then .error (if size = 0 then .division else .shape)
  if p.agents = 0 then .error .unset
  if (cells p).isEmpty && 0 < Int.pow size p.agents.toNat then .error .position
  return (placements (cells p) p.agents.toNat).filter fun s => s.all (!obstacles.contains ·)

def step? (source target : Place) : Option String :=
  match source.1 - target.1, source.2 - target.2 with
  | 0, 0 => some "i"
  | 0, 1 => some "W"
  | 1, 0 => some "S"
  | 0, -1 => some "E"
  | -1, 0 => some "N"
  | _, _ => none

def moveBetween (s t : List Place) : String :=
  match (s.zip t).mapM fun (a, b) => step? a b with
  | some letters => String.join letters
  | none => "0"

/-- The name of a proposition: who or what stands on a cell. -/
def propName (who : String) (place : Place) : String :=
  who ++ toString place.1 ++ "_" ++ toString place.2

def agentProps (s : List Place) : List String :=
  (s.zip (List.range s.length)).map fun (c, i) => propName ("a" ++ toString (i + 1)) c

/-- A drawn grid: the text before the propositions, the column of each proposition, and the text
behind the labels. -/
structure World where
  head : String
  columns : List (String × List String)
  tail : String

/-- The text of a grid, with its propositions in some order, for a number of states. -/
def World.text (w : World) (n : Nat) (order : List (String × List String)) : String :=
  w.head ++ (join "\n" (["Atomic_propositions", join " " (order.map (·.1)), "Labelling"] ++
    (List.range n).map (fun i => join " " (order.map (·.2.getD i ""))) ++ ["Number_of_agents"]) ++ "\n") ++ w.tail

def draw (p : Plan) : Drawing World := do
  let obstacles ← drawObstacles p
  let states ← states p obstacles
  let initial ← Draws.between 0 (states.length - 1)
  let names := (List.range states.length).map fun i => "s" ++ toString i
  let rows := states.map fun s => join " " (states.map (moveBetween s)) ++ " "
  let fixed := obstacles.map (propName "o")
  let labels := states.map fun s => agentProps s ++ fixed
  let props := sorted (distinct (fixed ++ labels.flatten))
  return {
    head := join "\n" (["Transition"] ++ rows ++ ["Name_State", join " " names, "Initial_State",
      "s" ++ toString initial]) ++ "\n"
    columns := props.map fun q => (q, labels.map fun l => if l.contains q then "1" else "0")
    tail := toString p.agents ++ "\n" }

/-! ## Reading a plan -/

def settings : List (String × (Int → Plan → Plan)) :=
  [("--agents", fun n p => { p with agents := n }), ("--rows", fun n p => { p with rows := n }),
   ("--columns", fun n p => { p with columns := n }),
   ("--obstacles", fun n p => { p with obstacles := n })]

/-- The setting that a word abbreviates; at least one letter must be given. -/
def setting? (word : String) : Option (Int → Plan → Plan) :=
  if word.length < 3 then none
  else (settings.find? fun s => startsWith s.1 word).map (·.2)

/-- Whether a word can be the value of a setting: it is no setting itself. -/
def isValue (word : String) : Bool := !startsWith word "-" || (readInt? word).isSome

/-- A plan with one setting changed; a name or value that cannot be read stops the program. -/
def change (p : Plan) (name value : String) : Outcome Plan := do
  let set ← orFault .stop (setting? name)
  return set (← orFault .stop (readInt? value)) p

/-- Reads a plan from words such as `--rows 3` or `--rows=3`; anything else stops the program. -/
def readFrom (p : Plan) : List String → Outcome Plan
  | [] => .ok p
  | [word] => do
    let (name, value) ← orFault .stop (cut? "=" word)
    change p name value
  | word :: value :: rest =>
    match cut? "=" word with
    | some (name, v) => do readFrom (← change p name v) (value :: rest)
    | none => do
      if !isValue value then .error .stop
      readFrom (← change p word value) rest

def run (words : List String) : Drawing World := do draw (← readFrom {} words)

end Arena.Generator.Grid
