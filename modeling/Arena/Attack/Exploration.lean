/-
The states that an attacker can reach. A state is what the attacker knows; launching an attack adds
its gain. States are explored in the order they are found. A transition is blockable when a
condition of its attack can be switched off.
-/
import Arena.Attack.Graph

namespace Arena.Attack

/-- What the attacker knows in a state, and how the state leads to others: under the number of a
state stands one for a transition that can be blocked, minus one for one that cannot. -/
structure State where
  number : Nat
  known : List Fact
  links : List Int
  deriving DecidableEq, Repr

structure Transition where
  action : String
  source : Nat
  target : Nat
  deriving DecidableEq, Repr

instance : ToDatum State := ⟨fun s => toDatum (s.number, s.known, s.links)⟩
instance : ToDatum Transition := ⟨fun t => toDatum (t.action, t.source, t.target)⟩

def isWithin (xs ys : List Fact) : Bool := xs.all ys.contains

def sameFacts (xs ys : List Fact) : Bool := isWithin xs ys && isWithin ys xs

def Exploit.canLaunch (a : Exploit) (known : List Fact) : Bool :=
  !known.contains a.gain && isWithin a.needs known

def Exploit.canBlock (a : Exploit) (switches : List String) : Bool :=
  a.needs.any fun
    | some f => switches.contains f
    | none => false

def Exploit.label (a : Exploit) : Outcome String := do
  return Text.replace " " "_" (← orFault .shape a.action)

def padded (links : List Int) (length : Nat) : List Int :=
  links ++ List.replicate (length - links.length) 0

def State.link (s : State) (target length : Nat) (mark : Int) : State :=
  { s with links := (padded s.links length).set target mark }

structure Exploration where
  done : List State := []
  left : List State
  found : Nat := 0
  transitions : List Transition := []

def launch (switches : List String) (a : Exploit) (x : Exploration) (s : State) :
    Outcome (Exploration × State) := do
  if !a.canLaunch s.known then return (x, s)
  let known := s.known ++ [a.gain]
  let mark : Int := if a.canBlock switches then 1 else -1
  let before := x.done.filter fun t => sameFacts known t.known
  let olds := if before.isEmpty then x.left.filter fun t => sameFacts known t.known else before
  let label ← a.label
  if olds.isEmpty then
    let n := x.found + 1
    let left := x.left ++ [⟨n, known, List.replicate n 0⟩]
    let s := s.link n (x.found + left.length + 1) mark
    return ({ x with left, found := n, transitions := x.transitions ++ [⟨label, s.number, n⟩] }, s)
  else
    let s := olds.foldl (fun s t => s.link t.number (t.number + 1) mark) s
    let new := olds.map fun t => ⟨label, s.number, t.number⟩
    return ({ x with transitions := x.transitions ++ new }, s)

def launchAll (switches : List String) :
    List Exploit → Exploration → State → Outcome (Exploration × State)
  | [], x, s => .ok (x, s)
  | a :: rest, x, s => do
    let (x, s) ← launch switches a x s
    launchAll switches rest x s

def exploreFrom (switches : List String) (attacks : List Exploit) : Nat → Exploration → Outcome Exploration
  | 0, x => .ok x
  | n + 1, x =>
    match x.left with
    | [] => .ok x
    | s :: rest => do
      let (x, s) ← launchAll switches attacks { x with left := rest } s
      exploreFrom switches attacks n { x with done := x.done ++ [s] }

/-- Explores all states. What is known in a state comes from the first state and from a choice of the
attacks, which bounds the number of states. -/
def explore (switches : List String) (attacks : List Exploit) (initial : List Fact) :
    Outcome Exploration :=
  exploreFrom switches attacks (Nat.pow 2 attacks.length + 1) { left := [⟨0, initial, [0]⟩] }

/-! ## From graphs to models -/

def switchesOf (text : String) : List String :=
  let lines := Text.split "\n" (Text.unifyLineEnds text)
  if lines.getLast? = some "" then lines.dropLast else lines

/-- The conditions that nothing leads to: what the attacker knows at the start. -/
def initialFacts (g : Graph) (m : List (List Int)) : Outcome (List Fact) := do
  let marked ← g.conditions.mapM fun v => do
    let column ← m.mapM fun row => nth row v.place
    return (v.fact, column.all (· == 0))
  return (marked.filter (·.2)).map (·.1)

def exploreGraph (document switches : String) : Outcome Exploration := do
  let g ← Graph.read document
  let m ← g.matrix
  let attacks ← g.attacks m
  explore (switchesOf switches) attacks (← initialFacts g m)

/-- The cell of a matrix of costs: a transition that cannot be blocked costs as much as there are
states. -/
def cellText (states : Nat) (mark : Int) : String :=
  if 0 < mark then "1" else if mark < 0 then toString states else "0"

/-- The text of the model in which a defender plays against the attacker, who wins in the states where
one of some goals is known. -/
def modelText (x : Exploration) (goals : List String) : String :=
  let n := x.done.length
  let rows := x.done.map fun s => String.join ((List.range n).map fun j =>
    cellText n (s.links.getD j 0) ++ " ")
  let labels := x.done.map fun s => if goals.any fun g => s.known.contains (some g) then "0 1" else "1 0"
  let names := String.join ((List.range n).map fun i => toString i ++ " ")
  Text.join "\n" (["Transition_With_Costs"] ++ rows ++ ["Name_State", names, "Atomic_propositions", "A_w",
    "Labelling"] ++ labels ++ ["Number_of_agents", "2"])

end Arena.Attack
