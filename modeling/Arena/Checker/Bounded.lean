/-
Alternating-time formulas with resource bounds (RBATL and RABATL). A coalition may only use joint
actions whose cost stays within a vector of bounds. A joint action has one cost per resource, or
each agent has its own and those of the coalition are added. Solved subformulas are remembered under
the formula that they come from.
-/
import Arena.Checker.Basic
import Arena.Model.Moves

namespace Arena.Checker.Bounded

abbrev Bound := List Int

inductive Pricing where
  /-- One cost per resource for the joint action. -/
  | joint
  /-- One cost per resource for each agent. -/
  | perAgent
  deriving DecidableEq, Repr

def Pricing.logic : Pricing → Formula.Logic
  | joint => .rbatl
  | perAgent => .rabatl

/-! ## Affordable joint actions -/

def lexLe : List Int → List Int → Bool
  | [], _ => true
  | _ :: _, [] => false
  | x :: xs, y :: ys => if x = y then lexLe xs ys else x < y

def withinBound (cost : Cost) (bound : Bound) : Outcome Bool :=
  match cost with
  | .shared xs => .ok (lexLe xs bound)
  | .split _ => if bound.isEmpty then .ok false else .error .shape

def memberCost (agents : List String) (perAgent : List Int) : Int :=
  ((perAgent.zip (List.range perAgent.length)).filterMap fun (c, i) =>
    if agents.contains (toString (i + 1)) then some c else none).foldl (· + ·) 0

def withinEach (agents : List String) (cost : Cost) : Nat → Bound → Outcome (List Bool)
  | _, [] => .ok []
  | j, b :: rest => do
    let here ← match cost with
      | .shared xs => do
        let _ ← nth xs j
        .error .shape
      | .split xss => do pure (decide (memberCost agents (← nth xss j) ≤ b))
    let others ← withinEach agents cost (j + 1) rest
    return here :: others

/-- Whether a joint action at a position is affordable. Costs are kept under the default names of the
states. -/
def isAffordable (pricing : Pricing) (m : Model) (agents : List String) (bound : Bound) (i : Nat)
    (move : Move) : Outcome Bool := do
  let cost ← m.costOf move (Model.defaultName i)
  match pricing with
  | .joint => withinBound cost bound
  | .perAgent => return (← withinEach agents cost 0 bound).all id

def affordable (pricing : Pricing) (m : Model) (agents : List String) (bound : Bound) (i : Nat)
    (moves : List Move) : Outcome (List Move) := do
  return Text.distinct (← moves.filterM (isAffordable pricing m agents bound i))

/-- The affordable joint actions among some. Where agents pay each for themselves there is an answer
only for at least one joint action and one resource. -/
def affordable? (pricing : Pricing) (m : Model) (agents : List String) (bound : Bound) (i : Nat)
    (moves : List Move) : Outcome (Option (List Move)) := do
  let found ← affordable pricing m agents bound i moves
  return if pricing = .perAgent && (moves.isEmpty || bound.isEmpty) then none else some found

def sameLetters (agents : List String) (move other : Move) : Outcome Bool :=
  match agents with
  | [] => .ok true
  | a :: rest => do
    let n ← orFault .value (Text.readInt? a)
    if (← letterAt move (n - 1)) = (← letterAt other (n - 1)) then sameLetters rest move other
    else return false

def namedCost (agents : List String) : Cost → Outcome Int
  | .shared xs => .ok (((xs.zip (List.range xs.length)).filterMap fun (x, i) =>
      if agents.contains (toString i) then some x else none).foldl (· + ·) 0)
  | .split xss =>
    if (List.range xss.length).any fun i => agents.contains (toString i) then .error .shape
    else .ok 0

def worstCost (m : Model) (agents : List String) (i : Int) (moves : List Move) (move : Move) :
    Outcome Int := do
  let costs ← moves.mapM fun other => do
    if ← sameLetters agents move other then
      namedCost agents (← m.costOf other (Model.defaultName i))
    else return 0
  return costs.foldl max 0

def unboundedCost : Int := 9223372036854775807

def leastCost (m : Model) (agents : List String) (i : Int) (moves : List Move) : Outcome Int := do
  let costs ← moves.mapM (worstCost m agents i moves)
  return costs.foldl min unboundedCost

/-! ## Predecessors -/

structure Entry where
  row : Nat
  column : Nat
  moves : List Move

def rowEntries (pricing : Pricing) (m : Model) (agents : List String) (bound : Bound) (i : Nat)
    (row : List Cell) (columns : List Nat) : Outcome (List Entry) := do
  let found ← columns.mapM fun (j : Nat) => do
    let cell ← nth row j
    if cell.isZero then return []
    let moves ← affordable pricing m agents bound i (← m.movesOf cell.write)
    return if moves.isEmpty then [] else [⟨i, j, moves⟩]
  return found.flatten

def entriesFrom (pricing : Pricing) (m : Model) (agents : List String) (bound : Bound)
    (columns : List Nat) : Nat → Matrix → Outcome (List Entry)
  | _, [] => .ok []
  | i, row :: rest => do
    let here ← rowEntries pricing m agents bound i row columns
    let others ← entriesFrom pricing m agents bound columns (i + 1) rest
    return here ++ others

def cellMoves (m : Model) : Nat → List Cell → Outcome (List (Nat × List Move))
  | _, [] => .ok []
  | j, c :: rest => do
    let here ← if c.isZero then pure [] else do pure [(j, ← m.movesOf c.write)]
    let others ← cellMoves m (j + 1) rest
    return here ++ others

def isSafe (m : Model) (agents : List String) (columns : List Nat) (move : Move)
    (others : List (Nat × List Move)) : Outcome Bool := do
  let part ← m.coalitionMoves [move] (← Coalition.positions agents)
  let clash ← others.mapM fun (j, moves) => do
    let parts ← m.coalitionMoves moves (← Coalition.positions agents)
    return part.any parts.contains && !columns.contains j
  return !clash.any id

def isWinning (m : Model) (agents : List String) (columns : List Nat) (e : Entry) :
    Outcome Bool := do
  let row ← cellMoves m 0 (← nth m.graph e.row)
  let others := row.filter fun (j, _) => j ≠ e.column
  let loops := e.moves.any fun move => Text.contains move "*"
  let safe ← e.moves.mapM fun move => isSafe m agents columns move others
  return loops || safe.any id

def meetsAll (m : Model) (agents : List String) (columns : List Nat) (i : Nat) :
    Outcome Bool := do
  let cells ← cellMoves m 0 (← nth m.graph i)
  let answers ← cells.mapM fun (j, moves) => do
    return (j, Model.opponentMoves moves (← Coalition.positions agents))
  let inRow := (answers.map (·.2)).flatten
  let inSet := ((answers.filter fun (j, _) => columns.contains j).map (·.2)).flatten
  return inRow.all inSet.contains

def pre (pricing : Pricing) (m : Model) (coalition : String) (s : Names) (bound : Bound) :
    Outcome Names := do
  let agents := Coalition.names coalition
  let columns := (← m.positions s).mergeSort (· ≤ ·)
  let entries ← entriesFrom pricing m agents bound columns 0 m.graph
  let winning ← entries.filterM (isWinning m agents columns)
  let rows ← (Text.distinct (winning.map (·.row))).filterM (meetsAll m agents columns)
  return Names.ofList (← rows.mapM fun (i : Nat) => m.stateAt i)

/-! ## Bounds -/

def increment : Bound → Bound → Outcome Bound
  | [], _ => .ok []
  | _ :: _, [] => .error .position
  | p :: ps, b :: bs => do
    let p' := if b = 0 then 0 else (p + 1) % (b + 1)
    if p' ≠ 0 then return p' :: ps
    return p' :: (← increment ps bs)

def difference : Bound → Bound → Outcome Bound
  | [], _ => .ok []
  | _ :: _, [] => .error .position
  | b :: bs, p :: ps => do return (b - p) :: (← difference bs ps)

def zeros (b : Bound) : Bound := b.map fun _ => 0

def isZero (b : Bound) : Bool := b.all (· == 0)

def vectors (b : Bound) : Nat := (b.map fun x => x.toNat + 1).foldl (· * ·) 1

def readLabel (label : String) : Outcome (String × Bound) := do
  match Text.split ">" (String.ofList (label.toList.drop 1)) with
  | coalition :: bound :: _ =>
    let numerals := Text.split "," (String.ofList (bound.toList.drop 1))
    return (coalition, ← numerals.mapM fun n => orFault .value (Text.readInt? n))
  | _ => .error .position

def relabel (label : String) (bound : Bound) (letter : String) : Outcome String := do
  match label.toList with
  | [] => .error .value
  | c :: rest =>
    if !rest.contains '<' then .error .value
    let front := String.ofList (c :: rest.takeWhile (· ≠ '<'))
    return front ++ "<" ++ Text.join "," (bound.map toString) ++ ">" ++ letter

/-! ## Solving -/

inductive Unary where
  | not | globally | next | eventually
  deriving DecidableEq, Repr

inductive Binary where
  | or | untl | and | implies
  deriving DecidableEq, Repr

def Unary.of? (pricing : Pricing) (s : String) : Option Unary :=
  let ks := kindsIn pricing.logic s
  let both (k : Formula.TokenKind) : Bool := ks.contains .boundedCoalition && ks.contains k
  if ks.contains .not then some not
  else if both .globally then some globally
  else if both .next then some next
  else if both .eventually then some eventually
  else none

def Binary.of? (pricing : Pricing) (s : String) : Option Binary :=
  let ks := kindsIn pricing.logic s
  if ks.contains .or then some or
  else if ks.contains .boundedCoalition && ks.contains .untl then some untl
  else if ks.contains .and then some and
  else if ks.contains .implies then some implies
  else none

/-- Solved subformulas, under the formulas they come from. -/
abbrev Memory := List (Tree × String)

def remembered? (mem : Memory) (t : Tree) : Option String := (mem.find? fun e => e.1 == t).map (·.2)

/-- Computations that remember solutions, also when they fail later. -/
abbrev Solving := ExceptT Fault (StateM Memory)

def lift {α : Type} (o : Outcome α) : Solving α := ExceptT.mk (pure o)

def rounds (m : Model) (s : Names) : Nat := m.states.length + s.length + 2

/-- Solves the node for every bound below its own and spends what is left of the bound on the first
step. `extend` adds the states from which the set found so far is reached for free. -/
def eachBound (step : Names → Bound → Outcome Names) (extend : Names → Names → Outcome Names)
    (again : Tree → Solving Tree) (label letter : String) (bound : Bound) :
    Nat → Bound → Names → Tree → Solving (Names × Tree)
  | 0, _, _, _ => throw .endless
  | n + 1, spent, found, node => do
    let lower ← lift (relabel label spent letter)
    let node ← again (node.withText lower)
    let target ← lift (Names.read node.text)
    let first ← lift (do step target (← difference bound spent))
    let found ← lift (extend found first)
    let spent ← lift (increment spent bound)
    if spent = bound then return (found, node)
    eachBound step extend again label letter bound n spent found node

def solveReach (pricing : Pricing) (m : Model) (again : Tree → Solving Tree) (node : Tree)
    (letter coalition : String) (bound : Bound) (through target : Names) : Solving Tree := do
  let step (s : Names) (b : Bound) : Outcome Names := do
    return (← pre pricing m coalition s b).inter through
  if isZero bound then
    let p ← lift (grow (fun s => step s bound) (rounds m target) [] target)
    return node.withText p.print
  let extend (p t : Names) : Outcome Names :=
    grow (fun s => step s (zeros bound)) (rounds m t) p t
  let (p, node) ← eachBound step extend again node.text letter bound (vectors bound)
    (zeros bound) [] node
  return node.withText p.print

/-- A formula that a coalition keeps true within a bound. A bound that allows something gives the
empty set. -/
def solveKeep (pricing : Pricing) (m : Model) (again : Tree → Solving Tree) (node : Tree)
    (coalition : String) (bound : Bound) (target : Names) : Solving Tree := do
  let step (s : Names) (b : Bound) : Outcome Names := do
    return (← pre pricing m coalition s b).inter target
  if isZero bound then
    let p ← lift (shrink (fun s => step s bound) (rounds m target) m.stateSet target)
    return node.withText p.print
  let extend (p t : Names) : Outcome Names :=
    if p.subset t then .ok p else grow (fun s => step s (zeros bound)) (rounds m t) p t
  let (p, node) ← eachBound step extend again node.text "G" bound (vectors bound)
    (zeros bound) [] node
  return node.withText p.print

def solveOne (pricing : Pricing) (m : Model) (again : Tree → Solving Tree) (node : Tree)
    (arg : Option String) : Solving Tree := do
  match Unary.of? pricing node.text with
  | none => return node
  | some .not =>
    let s ← lift (argument arg)
    return node.withText (m.stateSet.diff s).print
  | some .globally =>
    let (coalition, bound) ← lift (readLabel node.text)
    if pricing = .perAgent then throw .shape
    let s ← lift (argument arg)
    solveKeep pricing m again node coalition bound s
  | some .next =>
    let (coalition, bound) ← lift (readLabel node.text)
    let s ← lift (argument arg)
    let p ← lift (pre pricing m coalition s bound)
    return node.withText p.print
  | some .eventually =>
    let (coalition, bound) ← lift (readLabel node.text)
    let s ← lift (argument arg)
    solveReach pricing m again node "F" coalition bound m.stateSet s

def solveTwo (pricing : Pricing) (m : Model) (again : Tree → Solving Tree) (node : Tree)
    (left right : String) : Solving Tree := do
  match Binary.of? pricing node.text with
  | none => return node
  | some .or =>
    let s ← lift (Names.read left)
    let t ← lift (Names.read right)
    return node.withText (s.union t).print
  | some .untl =>
    let (coalition, bound) ← lift (readLabel node.text)
    let s ← lift (Names.read left)
    let t ← lift (Names.read right)
    solveReach pricing m again node "U" coalition bound s t
  | some .and =>
    let s ← lift (Names.read left)
    let t ← lift (Names.read right)
    return node.withText (s.inter t).print
  | some .implies =>
    let s ← lift (Names.read left)
    let t ← lift (Names.read right)
    return node.withText ((m.stateSet.diff s).union t).print

/-- Solves a tree: subformulas first, and a remembered solution in place of the operator. -/
def solve (pricing : Pricing) (m : Model) : Nat → Tree → Solving Tree
  | 0, _ => throw .endless
  | fuel + 1, key => do
    let node := match remembered? (← get) key with
      | some s => key.withText s
      | none => key
    let node ← match node with
      | .leaf t => solveOne pricing m (solve pricing m fuel) (.leaf t) none
      | .unary t a =>
        let a ← solve pricing m fuel a
        solveOne pricing m (solve pricing m fuel) (.unary t a) (some a.text)
      | .binary t l r =>
        let l ← solve pricing m fuel l
        let r ← solve pricing m fuel r
        solveTwo pricing m (solve pricing m fuel) (.binary t l r) l.text r.text
    modify fun mem => if (remembered? mem key).isSome then mem else mem ++ [(key, node.text)]
    return node

def labelWeight (label : String) : Nat :=
  match readLabel label with
  | .ok (_, bound) => (bound.map Int.toNat).foldl (· + ·) 0
  | .error _ => 0

def depth : Tree → Nat
  | .leaf t => labelWeight t + 1
  | .unary t a => labelWeight t + depth a + 1
  | .binary t l r => labelWeight t + depth l + depth r + 1

/-! ## Checking -/

def ground (m : Model) (f : Formula) : Outcome (Option Tree) := Tree.ground (atomText m) f

def checkWith (pricing : Pricing) (reader : Formula.Logic) (source formula : String) :
    Solving Report := do
  if isBlankFormula formula then return .message "Error: formula not entered"
  let m ← lift (Model.load .cost source)
  match ← lift (do Formula.parse reader pricing.logic (← m.agents.forFormula) formula) with
  | none => return .message "Syntax Error"
  | some f =>
    match ← lift (ground m f) with
    | none => return .message "Syntax Error: the atom does not exist"
    | some t =>
      if pricing = .perAgent then set ([] : Memory)
      let t ← solve pricing m (depth t + 1) t
      return .solved m t.text

def check (pricing : Pricing) (reader : Formula.Logic) (source formula : String) :
    Outcome Report :=
  ((checkWith pricing reader source formula).run.run []).1

end Arena.Checker.Bounded
