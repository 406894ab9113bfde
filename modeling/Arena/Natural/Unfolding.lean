/-
The unfolding of a model: the tree of its computations of bounded length. A node carries a state,
the joint action that leads to it, the states before it and its label row; children stand beside the
joint actions that lead to them. A pruned tree is turned back into a model whose states are the
nodes.
-/
import Arena.Model.Moves
import Arena.Model.Update
import Arena.Natural.Story

namespace Arena.Natural

/-- The elements that a mask keeps; those behind the mask stay. -/
def kept {α : Type} : List Bool → List α → List α
  | k :: ks, x :: xs => if k then x :: kept ks xs else kept ks xs
  | [], xs => xs
  | _, [] => []

inductive Unfolding where
  | node (state : String) (oldState : String) (action : Option Move) (before : List String)
      (labels : Option (List Cell)) (pruned : Bool) (children : List Unfolding) (moves : List Move)

namespace Unfolding

def state : Unfolding → String
  | node q _ _ _ _ _ _ _ => q

def labels : Unfolding → Option (List Cell)
  | node _ _ _ _ l _ _ _ => l

def children : Unfolding → List Unfolding
  | node _ _ _ _ _ _ cs _ => cs

/-! ## Building -/

def labelRow (m : Model) (q : String) : Outcome (Option (List Cell)) :=
  match m.states.idxOf? q with
  | none => .ok none
  | some i => do return some (← nth m.labels i)

def positionOf (q : String) : Outcome Int :=
  orFault .value (Text.readInt? (Text.slice q 1 q.length))

/-- The tree below a state, `height` levels deep. A joint action without letters gives a child but no
joint action. -/
def build (m : Model) (states : List String) : Nat → String → Option Move → List String →
    Outcome Unfolding
  | height, q, action, before => do
    let labels ← labelRow m q
    match height with
    | 0 => return node q q action before labels false [] []
    | height + 1 =>
      let row ← nth m.graph (← positionOf q)
      let pairs ← (row.zip (List.range row.length)).mapM fun (cell, j) => do
        if cell.isZero then return []
        let next ← nth states (j : Nat)
        (Text.split "," cell.write).mapM fun move => do
          return (move, ← build m states height next (some move) (before ++ [q]))
      let pairs := pairs.flatten
      return node q q action before labels false (pairs.map (·.2))
        ((pairs.map (·.1)).filter (· ≠ ""))

def ofModel (m : Model) (states : List String) (height : Int) : Outcome Unfolding :=
  build m states (height - 1).toNat "s0" none []

/-! ## Texts -/

def labelsText (row : Option (List Cell)) : String := (toDatum row).print

mutual

def describe (level : Nat) : Unfolding → String
  | node q old action before labels pruned children _ =>
    Text.repeated " " level ++ "Nome: " ++ q ++ ", Vecchio Nome: " ++ old ++ ", Azione: " ++
      action.getD "None" ++ ", Predecessori: " ++ Text.quotedNames before ++ ", Label Row: " ++
      labelsText labels ++ ", Pruned Flag: " ++ (Datum.bool pruned).print ++ "\n" ++
      describeAll (level + 1) children

def describeAll (level : Nat) : List Unfolding → String
  | [] => ""
  | t :: rest => describe level t ++ describeAll level rest

end

mutual

def outline (level : Nat) : Unfolding → String
  | node q _ action _ _ _ children _ =>
    let played := match action with
      | some a => if a = "" then "" else " (" ++ a ++ ")"
      | none => ""
    Text.repeated "\t" level ++ Text.quote q ++ played ++ "\n" ++ outlineAll (level + 1) children

def outlineAll (level : Nat) : List Unfolding → String
  | [] => ""
  | t :: rest => outline level t ++ outlineAll level rest

end

/-! ## Nodes in order -/

mutual

def states : Unfolding → List String
  | node q _ _ _ _ _ children _ => q :: statesAll children

def statesAll : List Unfolding → List String
  | [] => []
  | t :: rest => states t ++ statesAll rest

end

def distinctStates (t : Unfolding) : List String := Text.distinct t.states

mutual

def rows : Unfolding → List (Option (List Cell))
  | node _ _ _ _ l _ children _ => l :: rowsAll children

def rowsAll : List Unfolding → List (Option (List Cell))
  | [] => []
  | t :: rest => rows t ++ rowsAll rest

end

mutual

def histories : Unfolding → List (String × String × List String)
  | node q old _ before _ _ children _ => (q, old, before) :: historiesAll children

def historiesAll : List Unfolding → List (String × String × List String)
  | [] => []
  | t :: rest => histories t ++ historiesAll rest

end

def comesFromFirst (t : Unfolding) (states : List String) : Bool :=
  t.histories.any fun (q, old, before) =>
    states.contains q && (Text.contains old "s0" || before.contains "s0")

/-! ## Numbering -/

mutual

/-- The tree with the nodes below the root numbered from `n` on, and the next number. -/
def number (n : Nat) : Unfolding → Unfolding × Nat
  | node q old action before l pruned children moves =>
    let (cs, n) := numberAll n children
    (node q old action before l pruned cs moves, n)

def numberAll (n : Nat) : List Unfolding → List Unfolding × Nat
  | [] => ([], n)
  | node _ old action before l pruned children moves :: rest =>
    let (cs, k) := numberAll (n + 1) children
    let (ts, k) := numberAll k rest
    (node (Model.defaultName n) old action before l pruned cs moves :: ts, k)

end

def renamed (t : Unfolding) : Unfolding := (t.number 1).1

/-! ## Marks -/

mutual

def unmarked : Unfolding → Unfolding
  | node q old action before l _ children moves =>
    node q old action before l false (unmarkedAll children) moves

def unmarkedAll : List Unfolding → List Unfolding
  | [] => []
  | t :: rest => unmarked t :: unmarkedAll rest

end

mutual

def allMarked : Unfolding → Bool
  | node _ _ _ _ _ pruned children _ => pruned && allMarkedIn children

def allMarkedIn : List Unfolding → Bool
  | [] => true
  | t :: rest => allMarked t && allMarkedIn rest

end

/-! ## Back to a model -/

mutual

def transitions : Nat → Unfolding → List (String × String × Move)
  | depth, node q _ _ _ _ _ children moves => transitionsFrom q depth children moves

def transitionsFrom (q : String) : Nat → List Unfolding → List Move →
    List (String × String × Move)
  | depth, t :: ts, move :: moves =>
    (q, t.state, move) :: (match depth with
      | 0 => []
      | depth + 1 => transitions depth t) ++ transitionsFrom q depth ts moves
  | _, _, _ => []

end

def lastIndex (states : List String) (q : String) : Outcome Nat :=
  orFault .key (((states.zip (List.range states.length)).reverse.find? (·.1 == q)).map (·.2))

def putCell (g : List (List String)) (i j : Nat) (s : String) : List (List String) :=
  g.modify i fun row => row.set j s

def matrix (t : Unfolding) (states : List String) (depth : Int) : Outcome (List (List String)) := do
  let size := (Text.distinct states).length
  let empty := List.replicate size (List.replicate size "0")
  if depth < 0 then return empty
  let _ ← lastIndex states t.state
  (t.transitions depth.toNat).foldlM (fun g (p, q, move) => do
    let i ← lastIndex states p
    let j ← lastIndex states q
    return putCell g i j move) empty

def modelText (t : Unfolding) (source : String) (states : List String) (g : List (List String)) :
    Outcome String :=
  Model.withStates source (g.map (·.map Cell.text)) states (t.rows.mapM (orFault .shape))

end Unfolding

end Arena.Natural
