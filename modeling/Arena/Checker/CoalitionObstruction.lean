/-
Obstruction formulas of coalitions (OATL) on priced joint actions. A coalition may deactivate, at a
price, the joint actions whose own part leads only out of a set. The price of a set is a number only
when the set is empty: prices are vectors, which do not add to a number.
-/
import Arena.Checker.Obstruction
import Arena.Model.Moves

namespace Arena.Checker.CoalitionObstruction

open Obstruction (Unary Binary)

/-! ## Predecessors -/

def columnFrom (column : Nat) : Nat → Matrix → Outcome (List Nat)
  | _, [] => .ok []
  | i, row :: rest => do
    let cell ← nth row column
    let others ← columnFrom column (i + 1) rest
    return if cell.isZero then others else i :: others

def pre (m : Model) (s : Names) : Outcome Names := do
  let positions ← m.positions s
  let rows ← positions.mapM fun j => columnFrom j 0 m.graph
  return Names.ofList (← rows.flatten.mapM fun (i : Nat) => m.stateAt i)

def extends? : List Char → List Char → Outcome Bool
  | [], _ => .ok true
  | '-' :: part, move => extends? part (move.drop 1)
  | _ :: _, [] => .error .position
  | a :: part, b :: move => if a = b then extends? part move else .ok false

def isExtension (part move : Move) : Outcome Bool := extends? part.toList move.toList

def extensions (part : Move) (moves : List Move) : Outcome (List Move) := do
  return Text.distinct (← moves.filterM fun move =>
    if move = part then .ok false else isExtension part move)

def anyExtension (part : Move) : List Move → Outcome Bool
  | [] => .ok false
  | move :: rest => do
    if part = move then return true
    if ← isExtension part move then return true
    anyExtension part rest

def targetsFrom (m : Model) (part : Move) : Nat → List Cell → Outcome (List Nat)
  | _, [] => .ok []
  | j, c :: rest => do
    let here ← if c.isZero then pure false else do anyExtension part (← m.movesOf c.write)
    let others ← targetsFrom m part (j + 1) rest
    return if here then j :: others else others

def targets (m : Model) (part : Move) (i : Int) : Outcome (List Nat) := do
  targetsFrom m part 0 (← nth m.graph i)

/-- The joint actions at a state that a coalition has to deactivate to keep within a set: those whose
own part leads only out of it. -/
def deactivated (m : Model) (state coalition : String) (s : Names) : Outcome (List Move) := do
  let i ← m.stateIndex state
  let outside := Obstruction.complement m (← m.positions s)
  let row ← nth m.graph i
  let moves ← row.mapM fun c => if c.isZero then pure [] else m.movesOf c.write
  let found ← moves.flatten.filterM fun move => do
    let members ← Coalition.positions (Coalition.names coalition)
    let part ← m.baseMove move members
    return (← targets m part i).all outside.contains
  return Text.distinct found

def price (m : Model) (moves : List Move) (state : String) : Outcome Int :=
  match moves with
  | [] => .ok 0
  | move :: _ => do
    let _ ← m.costOf move state
    .error .shape

/-- The states from which a coalition can keep, for at most `n`, within a set. -/
def coalitionPre (m : Model) (n : Int) (coalition : String) (s : Names) : Outcome Names := do
  let found ← (Text.sorted (← pre m s)).filterM fun state => do
    return (← price m (← deactivated m state coalition s) state) ≤ n
  return found

/-! ## Operators -/

def coalitionAndBound (label : String) : Outcome (String × String) := do
  match Text.split ">" (String.ofList (label.toList.drop 1)) with
  | coalition :: bound :: _ => return (coalition, String.ofList (bound.toList.drop 1))
  | _ => .error .position

def readLabel (label : String) : Outcome (String × Int) := do
  let (coalition, bound) ← coalitionAndBound label
  return (coalition, ← orFault .value (Text.readInt? bound))

/-- The set of states where the operator of a label on one subformula holds. The operator for the
next state is applied without its coalition and has no value. -/
def applyOne (m : Model) (op : Unary) (label : String) (arg : Option String) : Outcome Names := do
  match op with
  | .not => return m.stateSet.diff (← argument arg)
  | .globally =>
    let (coalition, n) ← readLabel label
    Obstruction.releaseSet m (coalitionPre m n coalition) [] (← argument arg)
  | .next =>
    let _ ← readLabel label
    let _ ← argument arg
    .error .shape
  | .eventually =>
    let (coalition, n) ← readLabel label
    Obstruction.untilSet m (coalitionPre m n coalition) m.stateSet (← argument arg)

def applyTwo (m : Model) (op : Binary) (label left right : String) : Outcome Names := do
  match op with
  | .or => return (← Names.read left).union (← Names.read right)
  | .and => return (← Names.read left).inter (← Names.read right)
  | .implies => return (m.stateSet.diff (← Names.read left)).union (← Names.read right)
  | .untl =>
    let (coalition, n) ← readLabel label
    let s ← Names.read left
    let t ← Names.read right
    Obstruction.untilSet m (coalitionPre m n coalition) s t
  | .release =>
    let (coalition, n) ← readLabel label
    let s ← Names.read left
    let t ← Names.read right
    Obstruction.releaseSet m (coalitionPre m n coalition) s t
  | .weak =>
    let (coalition, n) ← readLabel label
    let t ← Names.read right
    let s ← Names.read left
    Obstruction.releaseSet m (coalitionPre m n coalition) t (s.union t)

/-! ## Checking -/

def one (m : Model) (label : String) (arg : Option String) : Outcome String :=
  match Unary.among (kindsIn .oatl label) .demonicCoalition with
  | none => .ok label
  | some op => do return (← applyOne m op label arg).print

def two (m : Model) (label left right : String) : Outcome String :=
  match Binary.among (kindsIn .oatl label) .demonicCoalition with
  | none => .ok label
  | some op => do return (← applyTwo m op label left right).print

def ground (m : Model) (f : Formula) : Outcome (Option Tree) :=
  Tree.ground (Obstruction.constantOrAtom .oatl m) f

def solve (m : Model) (t : Tree) : Outcome String := t.solve (one m) (two m)

def check (reader : Formula.Logic) (source formula : String) : Outcome Report := do
  if isBlankFormula formula then return .message "Error: formula not entered"
  let m ← Model.load .cost source
  match ← Formula.parse reader .oatl (← m.agents.forFormula) formula with
  | none => return .message "Syntax Error"
  | some f =>
    match ← ground m f with
    | none => return .message "Syntax Error: the atom does not exist"
    | some t => return .solved m (← solve m t)

end Arena.Checker.CoalitionObstruction
