/-
Capacities of agents. Each agent may have some capacities of a model, each allows some actions, and
an assignment gives one to each agent.
-/
import Arena.Model.Moves
import Arena.Model.Reader

namespace Arena.Capacity

/-! ## Choices -/

def product {α : Type} : List (List α) → List (List α)
  | [] => [[]]
  | xs :: rest => xs.flatMap fun x => (product rest).map (x :: ·)

def sequences {α : Type} (xs : List α) : Nat → List (List α)
  | 0 => [[]]
  | n + 1 => xs.flatMap fun x => (sequences xs n).map (x :: ·)

def choose {α : Type} : Nat → List α → List (List α)
  | 0, _ => [[]]
  | _ + 1, [] => []
  | n + 1, x :: xs => (choose n xs).map (x :: ·) ++ choose (n + 1) xs

def parts {α : Type} (xs : List α) : List (List α) :=
  (List.range xs.length).flatMap fun n => choose (n + 1) xs

/-- The elements that are in all of some lists; there must be a list. -/
def common {α : Type} [BEq α] : List (List α) → Outcome (List α)
  | [] => .error .shape
  | xs :: rest => .ok ((Text.distinct xs).filter fun x => rest.all (·.contains x))

def overlapping {α : Type} [BEq α] (sets : List (List α)) (n : Nat) :
    Outcome (List (List (List α))) :=
  (sequences sets n).filterM fun s => do return !(← common s).isEmpty

/-! ## Capacities and actions -/

abbrev Assignment := List String

def ofAgent (m : Model) (agent : Int) : Outcome (List String) := do
  return (← nth (← m.capacityTable) (agent - 1)).tail

def allowing (m : Model) (action : String) : List String :=
  (m.capacityActions.filter (·.contains action)).filterMap List.head?

/-- The capacities of an agent whose row mentions an action; the action `*` needs none in
particular. -/
def ofAgentFor (m : Model) (action : String) (agent : Int) : Outcome (List String) := do
  let own ← ofAgent m agent
  let found ← m.capacityActions.filterM fun row => do
    return own.contains (← nth row 0) && row.contains action
  let named := found.filterMap List.head?
  return if action = "*" then own ++ named else named

def ofAgentAllowing (m : Model) (agent : Int) (action : String) : Outcome (List String) := do
  let own ← ofAgent m agent
  if action = "*" then return own
  return own.filter (allowing m action).contains

def forMove (m : Model) (move : Move) (agents : List Int) : Outcome (List Assignment) := do
  return product (← agents.mapM fun a => do ofAgentFor m (← letterAt move (a - 1)) a)

/-- The actions that a capacity allows; none for an unknown capacity. -/
def actionsOf (m : Model) (capacity : String) : Outcome (Option (List String)) :=
  m.capacityActions.foldlM (fun found row => do
    return if (← nth row 0) = capacity then some row.tail else found) none

def assignments (m : Model) : Outcome (List Assignment) := do
  return product ((← m.capacityTable).map List.tail)

def assignmentSet (m : Model) : Outcome (List Assignment) := do
  return Text.distinct (← assignments m)

/-! ## Actions at a state -/

/-- Where an agent stands: the name of a state, or its letters. -/
inductive Place where
  | name (s : String)
  | letters (cs : List String)
  deriving DecidableEq, Repr

namespace Place

def whole : Place → String
  | name s => s
  | letters cs => String.join cs

def lettersOf (s : String) : List String := s.toList.map String.singleton

def spelled : Place → Place
  | name s => letters (lettersOf s)
  | letters cs => letters cs

end Place

instance : ToDatum Place := ⟨fun | .name s => .text s | .letters cs => .tuple (cs.map .text)⟩
instance : OfDatum Place := ⟨fun | .text s => .name s | d => .letters (ofDatum d)⟩

/-- Letters, given as a text or one by one. -/
structure Letters where
  list : List String
  deriving DecidableEq, Repr

instance : OfDatum Letters := ⟨fun | .text s => ⟨Place.lettersOf s⟩ | d => ⟨ofDatum d⟩⟩

def indexOf? (m : Model) (q : Place) : Option Nat := m.states.idxOf? q.whole

/-- The positions of the propositions that hold at a place; none at an unknown place. -/
def propsAt (m : Model) (q : Place) : Outcome (Option (List Nat)) :=
  match indexOf? m q with
  | none => .ok none
  | some i => do
    let row ← nth m.labels i
    return some (((row.zip (List.range row.length)).filter fun (c, _) => c = .num 1).map (·.2))

def movesInto (_ : Model) (_ : Place) : Outcome (List Move) := .error .name

/-- The agents and the capacities of a text `agents is capacities`. -/
def agentsAndCapacities (s : String) : Outcome (String × String) :=
  match Text.split " is " s with
  | a :: b :: _ => .ok (a, b)
  | _ => .error .position

/-- Positions of agents in the order in which they are visited: the position before the first is
visited last. -/
def visited (ps : List Int) : List Int :=
  (ps.filter (0 ≤ ·)).mergeSort (· ≤ ·) ++ (ps.filter (· < 0)).mergeSort (· ≤ ·)

/-- The letters that a coalition plays at a place, one text for each cell with joint actions. Only
the first joint action of a cell counts. -/
def actionsAt (m : Model) (coalition : String) (q : Place) : Outcome (Option (List String)) := do
  let members := visited (← Coalition.positions (Coalition.names coalition))
  match indexOf? m q with
  | none => return none
  | some i =>
    let row ← nth m.graph i
    let found ← row.mapM fun
      | .num _ => return []
      | .text s => do return [String.join (← members.mapM fun j => letterAt s j)]
    return some found.flatten

def hasTransition (m : Model) (q : Place) : Outcome Bool :=
  match indexOf? m q with
  | none => .ok false
  | some i => do return !(← nth m.graph i).all Cell.isZero

def coalitionChoices (m : Model) (coalition : String) : Outcome (List (List String)) := do
  let table ← m.capacityTable
  let choices ← (Text.sorted (Coalition.names coalition)).mapM fun agent => do
    let n ← orFault .value (Text.readInt? agent)
    let own := (← nth table (n - 1)).tail
    let actions ← own.mapM fun c => do orFault .shape (← actionsOf m c)
    return actions.flatten
  return product choices

/-! ## Valid models -/

def ownActions (m : Model) (agent : Int) : Outcome (List String) := do
  let actions ← (← ofAgent m agent).mapM fun c => do orFault .shape (← actionsOf m c)
  return actions.flatten

def coversState (m : Model) (agent : Nat) (state : String) : Outcome Bool := do
  let played ← actionsAt m (toString agent) (.name state)
  let own ← ownActions m agent
  return (← orFault .shape played).all own.contains

def usesAll (m : Model) (agent : Nat) (state : String) : Outcome Bool := do
  if !(← hasTransition m (.name state)) then return true
  let rec check : List String → Outcome Bool
    | [] => .ok true
    | c :: rest => do
      let played ← orFault .shape (← actionsAt m (toString agent) (.name state))
      let allowed ← actionsOf m c
      if allowed.isNone && !played.isEmpty then .error .shape
      if played.any (allowed.getD []).contains then check rest else return false
  check (← ofAgent m agent)

def allPairs (test : Nat → String → Outcome Bool) : List (Nat × String) → Outcome Bool
  | [] => .ok true
  | (a, s) :: rest => do
    if ← test a s then allPairs test rest else return false

def agentStates (m : Model) : Outcome (List (Nat × String)) := do
  let n ← m.agentCount
  return (List.range (n.toNat - 1)).flatMap fun a => m.states.map (a + 1, ·)

def isValid (m : Model) : Outcome Bool := do
  let pairs ← agentStates m
  if !(← allPairs (coversState m) pairs) then return false
  allPairs (usesAll m) pairs

end Arena.Capacity
