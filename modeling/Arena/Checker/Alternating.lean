/-
Alternating-time formulas (ATL). A coalition forces a set from a state when all completions of some
part of a joint action there lead into the set.
-/
import Arena.Checker.Basic
import Arena.Model.Moves

namespace Arena.Checker.Alternating

/-! ## Predecessors -/

def rowMoves (m : Model) : Nat → List Cell → Outcome (List (Move × Nat))
  | _, [] => .ok []
  | j, c :: rest => do
    let here ← if c.isZero then pure [] else m.movesOf c.write
    let others ← rowMoves m (j + 1) rest
    return here.map (·, j) ++ others

def forces (members : List Int) (moves : List (Move × Nat)) (columns : List Nat) : Bool :=
  moves.any fun (move, _) => moves.all fun (other, j) =>
    other.ofCoalition members ≠ move.ofCoalition members || columns.contains j

/-- The states of the rows from row `i` on from which a coalition can force the next state into one
of the columns. -/
def preRows (m : Model) (coalition : String) (columns : List Nat) : Nat → Matrix → Outcome Names
  | _, [] => .ok []
  | i, row :: rest => do
    let moves ← rowMoves m 0 row
    let here ←
      if moves.isEmpty then pure []
      else do
        let members ← Coalition.positions (Coalition.names coalition)
        if forces members moves columns then pure [← m.stateAt i] else pure []
    let others ← preRows m coalition columns (i + 1) rest
    return here ++ others

def pre (m : Model) (coalition : String) (s : Names) : Outcome Names := do
  let columns ← m.positions s
  let _ ← m.agentCount
  return Names.ofList (← preRows m coalition columns 0 m.graph)

/-! ## Operators -/

/-- The operators on one set; those of a coalition are temporal. -/
inductive Unary where
  | not | globally | next | eventually
  deriving DecidableEq, Repr

inductive Binary where
  | or | untl | and | implies
  deriving DecidableEq, Repr

def Unary.of? (s : String) : Option Unary :=
  let ks := kindsIn .atl s
  let both (k : Formula.TokenKind) : Bool := ks.contains .coalition && ks.contains k
  if ks.contains .not then some not
  else if both .globally then some globally
  else if both .next then some next
  else if both .eventually then some eventually
  else none

def Binary.of? (s : String) : Option Binary :=
  let ks := kindsIn .atl s
  if ks.contains .or then some or
  else if ks.contains .coalition && ks.contains .untl then some untl
  else if ks.contains .and then some and
  else if ks.contains .implies then some implies
  else none

/-- The text between the first character and the last two of a label: the coalition of a label whose
temporal operator is one letter. -/
def coalitionOf (label : String) : String :=
  String.ofList (between label.toList 1 (-2))

def rounds (m : Model) (s : Names) : Nat := m.states.length + s.length + 2

def Unary.apply (m : Model) (op : Unary) (label : String) (s : Names) : Outcome Names :=
  let all := m.stateSet
  let coalition := coalitionOf label
  match op with
  | not => .ok (all.diff s)
  | globally => shrink (fun p => do return (← pre m coalition p).inter s) (rounds m s) all s
  | next => pre m coalition s
  | eventually => grow (pre m coalition) (rounds m s) [] s

def Binary.apply (m : Model) (op : Binary) (label : String) (s t : Names) : Outcome Names :=
  match op with
  | or => .ok (s.union t)
  | untl => grow (fun p => do return (← pre m (coalitionOf label) p).inter s) (rounds m t) [] t
  | and => .ok (s.inter t)
  | implies => .ok ((m.stateSet.diff s).union t)

/-! ## Checking -/

def one (m : Model) (label : String) (arg : Option String) : Outcome String :=
  match Unary.of? label with
  | none => .ok label
  | some op => do return (← op.apply m label (← argument arg)).print

def two (m : Model) (label left right : String) : Outcome String :=
  match Binary.of? label with
  | none => .ok label
  | some op => do
    let s ← Names.read left
    let t ← Names.read right
    return (← op.apply m label s t).print

/-- The grounded formula; none when it has an atom that the model does not know. -/
def ground (m : Model) (f : Formula) : Outcome (Option Tree) := Tree.ground (atomText m) f

def solve (m : Model) (t : Tree) : Outcome String := t.solve (one m) (two m)

def check (reader : Formula.Logic) (source formula : String) : Outcome Report := do
  if isBlankFormula formula then return .message "Error: formula not entered"
  let m ← Model.load .plain source
  match ← Formula.parse reader .atl (← m.agents.forFormula) formula with
  | none => return .message "Syntax Error"
  | some f =>
    match ← ground m f with
    | none => return .message "Syntax Error: the atom does not exist"
    | some t => return .solved m (← solve m t)

end Arena.Checker.Alternating
