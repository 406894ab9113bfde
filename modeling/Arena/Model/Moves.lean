/-
Joint actions: texts with one letter per agent, `I` for one that idles. A coalition is given by
positions counted from zero. Its part of a joint action keeps the letters of its members and writes
`-` for the others.
-/
import Arena.Model.Basic

namespace Arena

/-- A choice of one action letter per agent. -/
abbrev Move := String

namespace Move

/-- Keeps the letters at the positions that a test selects and writes `-` for the others. -/
def keep (p : Int → Bool) (move : Move) : Move :=
  String.ofList ((move.toList.zip (List.range move.length)).map fun (c, j) =>
    if p j then c else '-')

def ofCoalition (members : List Int) (move : Move) : Move := move.keep (members.contains ·)

def ofOpponents (members : List Int) (move : Move) : Move := move.keep (!members.contains ·)

end Move

namespace Coalition

def names (coalition : String) : List String := Text.distinct (Text.split "," coalition)

def positions (agents : List String) : Outcome (List Int) := do
  let ns ← (Text.sorted agents).mapM fun a => orFault .value (Text.readInt? a)
  return (ns.map (· - 1)).eraseDups

/-- The positions of agents given by numbers; one 0 among them is ignored. -/
def positionsOfNumbers (agents : List Int) : List Int := ((agents.erase 0).map (· - 1)).eraseDups

def positionsOf (d : Datum) : Outcome (List Int) :=
  match d.elements with
  | .int _ :: _ => .ok (positionsOfNumbers (ofDatum d))
  | _ => positions (ofDatum d)

end Coalition

namespace Model

/-- The joint actions that a text lists; `*` alone is the joint action of stars. -/
def movesOf (m : Model) (cell : String) : Outcome (List Move) := do
  if cell = "*" then return [Text.repeated "*" (← m.agentCount).toNat]
  return Text.split "," cell

/-- The parts of a coalition in joint actions. Each part is written behind the ones before it. -/
def coalitionParts (members : List Int) : String → List Move → List Move
  | _, [] => []
  | before, move :: rest =>
    let part := before ++ move.ofCoalition members
    part :: coalitionParts members part rest

def coalitionMoves (m : Model) (moves : List Move) (members : List Int) : Outcome (List Move) := do
  if members.isEmpty then
    let _ ← m.agentCount
    return []
  return Text.distinct (coalitionParts members "" moves)

def baseMove (m : Model) (move : Move) (members : List Int) : Outcome Move := do
  orFault .key (← m.coalitionMoves [move] members).head?

def opponentMoves (moves : List Move) (members : List Int) : List Move :=
  Text.distinct (moves.map (·.ofOpponents members))

def listedMoves (m : Model) : List Move :=
  m.graph.flatten.flatMap fun
    | .text s => if s = "*" then [] else Text.split "," s
    | .num _ => []

def agentKey (agent : Int) : String := "agent" ++ toString agent

def lettersOf (moves : List Move) (agent : Int) : Outcome (List String) := do
  let letters ← moves.mapM fun move => letterAt move (agent - 1)
  return Text.sorted (Text.distinct (letters.filter (· ≠ "I")))

def actions (m : Model) (agents : List Int) : Outcome (List (String × List String)) :=
  agents.eraseDups.mapM fun agent => do return (agentKey agent, ← lettersOf m.listedMoves agent)

def checkMoves (m : Model) (agents : Int) : Outcome Unit :=
  (m.graph.zip (List.range m.graph.length)).forM fun (row, r) => do
    if row.all Cell.isZero then .error (.emptyRowAt r)
    (row.zip (List.range row.length)).forM fun (cell, c) => do
      if cell.isZero || cell.isAny then return
      (Text.split "," cell.write).forM fun move => do
        let move := Text.trim move
        if (move.length : Int) < agents then .error (.malformedMove move r c move.length agents)

end Model

namespace Matrix

def idlesInRow (n : Nat) (row : List Cell) : Outcome Bool := do
  let moves := (row.filter (!·.isZero)).flatMap fun c => Text.split "," c.write
  let letters ← moves.mapM fun move => (List.range n).mapM fun (i : Nat) => letterAt move i
  return (List.range n).all fun i => letters.any fun ls => ls[i]? == some "I"

/-- No row is empty, and in each every agent has a joint action in which it plays `I`. -/
def checkIdle (g : Matrix) (agents : Int) : Outcome Unit :=
  g.forM fun row => do
    if row.all Cell.isZero then .error .emptyRow
    if !(← idlesInRow agents.toNat row) then .error .noIdle

/-- A matrix that is unfolded must also lead from its first state to another one, unless there are no
transitions elsewhere. -/
def checkTree (g : Matrix) (agents : Int) : Outcome Unit := do
  g.checkIdle agents
  let first := g.headD []
  if first.all Cell.isZero then .error .noInitialMove
  if (first.drop 1).all Cell.isZero then
    match g.tail.findIdx? fun row => !row.all Cell.isZero with
    | some i => .error (.forest (i + 1))
    | none => return ()

end Matrix

end Arena
