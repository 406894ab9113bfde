/-
Models: a transition matrix whose cells list joint actions, the names of the states, the labelling,
and what the resource and capacity logics add. The cell `0` means that there is no transition; `*`
stands for every joint action.
-/
import Arena.Data.Access
import Arena.Formula.Grammar

namespace Arena

inductive Cell where
  | num (n : Int)
  | text (s : String)
  deriving DecidableEq, Repr

namespace Cell

abbrev zero : Cell := num 0

def isZero (c : Cell) : Bool := c == zero

def isAny (c : Cell) : Bool := c == text "*"

def write : Cell → String
  | num n => toString n
  | text s => s

/-- The cell that a word denotes: only the word `0` is a number. -/
def ofWord (w : String) : Cell := if w = "0" then zero else text w

instance : ToDatum Cell := ⟨fun | num n => .int n | text s => .text s⟩
instance : OfDatum Cell := ⟨fun | .text s => text s | d => num (ofDatum d)⟩

end Cell

abbrev Matrix := List (List Cell)

/-- A count as it was read: a number, or a text that may be none. -/
inductive Count where
  | number (n : Int)
  | text (s : String)
  deriving DecidableEq, Repr

namespace Count

def get : Count → Outcome Int
  | number n => .ok n
  | text s => orFault .value (Text.readInt? s)

def forFormula : Count → Outcome Formula.AgentCount
  | number n => .ok (.ofInt n)
  | text s => do return .ofInt (← orFault .value (Text.readInt? s))

end Count

/-- What a joint action costs: one number per resource, or one per agent and resource. -/
inductive Cost where
  | shared (perResource : List Int)
  | split (perResource : List (List Int))
  deriving DecidableEq, Repr

instance : ToDatum Cost := ⟨fun | .shared xs => toDatum xs | .split xs => toDatum xs⟩

structure Model where
  graph : Matrix := []
  states : List String := []
  props : List String := []
  /-- One row per state: `0`, `1`, or the text of a degree. -/
  labels : Matrix := []
  initial : String := ""
  agents : Count := .number 0
  resource : Int := 0
  actionCosts : List (List String) := []
  /-- The cost of a joint action at a state, under the key `action;state`. -/
  costs : List (String × Cost) := []
  weighted : Bool := false
  capacities : List String := []
  assignment : List (List String) := []
  capacityActions : List (List String) := []
  deriving DecidableEq, Repr

namespace Model

def agentCount (m : Model) : Outcome Int := m.agents.get

def propIndex? (m : Model) (p : String) : Option Nat := m.props.idxOf? p

def stateIndex (m : Model) (s : String) : Outcome Nat :=
  orFault (.unknownState s m.states) (m.states.idxOf? s)

def stateAt (m : Model) (i : Int) : Outcome String := nth m.states i

def rowEdges (m : Model) (i : Nat) : Nat → List Cell → Outcome (List (String × String))
  | _, [] => .ok []
  | j, c :: rest => do
    if c.isZero then rowEdges m i (j + 1) rest
    else
      let source ← m.stateAt i
      let target ← m.stateAt (if c.isAny then (i : Int) else j)
      let others ← rowEdges m i (j + 1) rest
      return (source, target) :: others

def edgesFrom (m : Model) : Nat → Matrix → Outcome (List (String × String))
  | _, [] => .ok []
  | i, row :: rest => do
    let here ← m.rowEdges i 0 row
    let others ← edgesFrom m (i + 1) rest
    return here ++ others

def edges (m : Model) : Outcome (List (String × String)) := m.edgesFrom 0 m.graph

def numberOfActions (_ : Model) : Outcome Nat := .error .shape

def defaultName (i : Int) : String := "s" ++ toString i

def costKey (action state : String) : String := action ++ ";" ++ state

def costOf (m : Model) (action state : String) : Outcome Cost :=
  orFault .key ((m.costs.find? fun e => e.1 == costKey action state).map (·.2))

def sourceNames (g : Matrix) : List (List (Option String)) :=
  (g.zip (List.range g.length)).map fun (row, i) => row.map fun
    | .text s => if s = "*" then none else some (defaultName i)
    | .num _ => none

def granted (m : Model) : Nat → List String → Outcome (List String)
  | _, [] => .ok []
  | i, mark :: rest => do
    if mark = "1" then
      let c ← nth m.capacities i
      let others ← granted m (i + 1) rest
      return c :: others
    else granted m (i + 1) rest

def capacityTable (m : Model) : Outcome (List (List String)) := do
  let n ← m.agentCount
  (List.range n.toNat).mapM fun (i : Nat) => do
    let row ← nth m.assignment i
    let cs ← m.granted 0 row
    return toString (i + 1) :: cs

end Model

end Arena
