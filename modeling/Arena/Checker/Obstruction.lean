/-
Obstruction formulas (OL) over a matrix of costs. A demon of strength n removes transitions of total
cost at most n: a state is in the predecessor of a set when it has a transition into the set and
those out of it cost at most n together.
-/
import Arena.Checker.Basic

namespace Arena.Checker.Obstruction

/-! ## Predecessors -/

def complement (m : Model) (s : List Nat) : List Nat :=
  if m.graph.length ≤ s.length then []
  else (List.range m.graph.length).filter (!s.contains ·)

def hasTransition (row : List Cell) : List Nat → Outcome Bool
  | [] => .ok false
  | j :: rest => do
    if (← nth row j).isZero then hasTransition row rest else return true

def preFrom (columns : List Nat) : Nat → Matrix → Outcome (List Nat)
  | _, [] => .ok []
  | i, row :: rest => do
    let here ← hasTransition row columns
    let others ← preFrom columns (i + 1) rest
    return if here then i :: others else others

def pre (m : Model) (s : List Nat) : Outcome (List Nat) :=
  preFrom (s.mergeSort (· ≤ ·)) 0 m.graph

/-- The cost of a cell; the cell `*` is free. -/
def cellCost : Cell → Outcome Int
  | .num n => .ok n
  | .text s => if s = "*" then .ok 0 else orFault .value (Text.readInt? s)

/-- Whether the transitions from one position to some positions cost at most `n` together. -/
def blockable (m : Model) (i : Nat) (n : Int) (s : List Nat) : Outcome Bool := do
  let costs ← s.mapM fun (j : Nat) => do cellCost (← nth (← nth m.graph i) j)
  return costs.foldl (· + ·) 0 ≤ n

def blocking (m : Model) (n : Int) (positions candidates : List Nat) : Outcome Names := do
  let outside := complement m positions
  let found ← candidates.filterM fun i => blockable m i n outside
  return Names.ofList (← found.mapM fun (i : Nat) => m.stateAt i)

/-- The states from which a demon of strength `n` forces the next state into a set. -/
def demonPre (m : Model) (n : Int) (s : Names) : Outcome Names := do
  let positions ← m.positions s
  blocking m n positions (← pre m positions)

def tablePre (table : List (List Nat)) (s : List Nat) : Outcome (List Nat) := do
  let found ← s.mapM fun (i : Nat) => do return if (← nth table i).isEmpty then [] else [i]
  return found.flatten

def tableDemonPre (m : Model) (n : Int) (s : Names) : Outcome Names := do
  let positions ← m.positions s
  blocking m n positions (← tablePre [] positions)

/-! ## Operators -/

inductive Unary where
  | not | globally | next | eventually
  deriving DecidableEq, Repr

inductive Binary where
  | or | untl | release | weak | and | implies
  deriving DecidableEq, Repr

/-- The operator on one subformula, given the kinds of the tokens in a label and the kind of its head. -/
def Unary.among (ks : List Formula.TokenKind) (head : Formula.TokenKind) : Option Unary :=
  let both (k : Formula.TokenKind) : Bool := ks.contains head && ks.contains k
  if ks.contains .not then some not
  else if both .globally then some globally
  else if both .next then some next
  else if both .eventually then some eventually
  else none

def Binary.among (ks : List Formula.TokenKind) (head : Formula.TokenKind) : Option Binary :=
  let both (k : Formula.TokenKind) : Bool := ks.contains head && ks.contains k
  if ks.contains .or then some or
  else if both .untl then some untl
  else if both .release then some release
  else if both .weak then some weak
  else if ks.contains .and then some and
  else if ks.contains .implies then some implies
  else none

def Unary.of? (s : String) : Option Unary := among (kindsIn .ol s) .demonic

def Binary.of? (s : String) : Option Binary := among (kindsIn .ol s) .demonic

/-- The strength of the demon of a label: the numeral between the first two characters and the last
two. -/
def strengthOf (label : String) : Outcome Int :=
  orFault .value (Text.readInt? (String.ofList (between label.toList 2 (-2))))

/-- A bound on the rounds of a loop over sets of states: the number of such sets. -/
def rounds (m : Model) : Nat := Nat.pow 2 m.states.length + 2

def untilSet (m : Model) (pre : Names → Outcome Names) (phi psi : Names) : Outcome Names :=
  converge (fun p => do return psi.union (phi.inter (← pre p))) (rounds m) [] psi

def releaseSet (m : Model) (pre : Names → Outcome Names) (phi psi : Names) : Outcome Names :=
  converge (fun p => do return psi.inter (phi.union (← pre p))) (rounds m) m.stateSet psi

def Unary.apply (m : Model) (op : Unary) (label : String) (arg : Option String) : Outcome Names := do
  match op with
  | not => return m.stateSet.diff (← argument arg)
  | globally =>
    let n ← strengthOf label
    releaseSet m (demonPre m n) [] (← argument arg)
  | next =>
    let n ← strengthOf label
    demonPre m n (← argument arg)
  | eventually =>
    let n ← strengthOf label
    untilSet m (demonPre m n) m.stateSet (← argument arg)

/-- The set of states where the operator of a label on two subformulas holds. The implication has no
value. -/
def Binary.apply (m : Model) (op : Binary) (label left right : String) : Outcome Names := do
  let strength : Outcome Int :=
    match op with
    | untl => strengthOf label
    | release => strengthOf label
    | weak => strengthOf label
    | _ => .ok 0
  let n ← strength
  if op = weak then
    let t ← Names.read right
    let s ← Names.read left
    releaseSet m (demonPre m n) t (s.union t)
  else
    let s ← Names.read left
    let t ← Names.read right
    match op with
    | or => return s.union t
    | untl => untilSet m (demonPre m n) s t
    | and => return s.inter t
    | implies => .error .member
    | _ => releaseSet m (demonPre m n) s t

/-! ## Solving -/

def one (m : Model) (label : String) (arg : Option String) : Outcome String :=
  match Unary.of? label with
  | none => .ok label
  | some op => do return (← op.apply m label arg).print

def two (m : Model) (label left right : String) : Outcome String :=
  match Binary.of? label with
  | none => .ok label
  | some op => do return (← op.apply m label left right).print

def solve (m : Model) (t : Tree) : Outcome String := t.solve (one m) (two m)

/-- The text of an atom: the constants need no proposition. -/
def constantOrAtom (l : Formula.Logic) (m : Model) (p : String) : Outcome (Option String) :=
  let ks := kindsIn l p
  if ks.contains .falsum then .ok (some (Names.print []))
  else if ks.contains .verum then .ok (some m.stateSet.print)
  else atomText m p

def ground (m : Model) (f : Formula) : Outcome (Option Tree) :=
  Tree.ground (constantOrAtom .ol m) f

/-! ## Solving with the table of predecessors -/

/-- The set of states where the operator at the root holds, by the table of predecessors. Counting
the rounds of `globally` fails in the first one. -/
def tableOne (m : Model) (label : String) (arg : Option String) : Outcome String :=
  match Unary.of? label with
  | none => .ok label
  | some op => do
    match op with
    | .not => return (m.stateSet.diff (← argument arg)).print
    | .globally =>
      let n ← strengthOf label
      let s ← argument arg
      if s.same m.stateSet then return m.stateSet.print
      let _ ← tableDemonPre m n s
      .error .unset
    | .next =>
      let n ← strengthOf label
      return (← tableDemonPre m n (← argument arg)).print
    | .eventually =>
      let n ← strengthOf label
      return (← untilSet m (tableDemonPre m n) m.stateSet (← argument arg)).print

def tableTwo (m : Model) (label left right : String) : Outcome String :=
  match Binary.of? label with
  | none => .ok label
  | some op => do
    match op with
    | .untl =>
      let n ← strengthOf label
      let s ← Names.read left
      let t ← Names.read right
      return (← untilSet m (tableDemonPre m n) s t).print
    | .release =>
      let n ← strengthOf label
      let s ← Names.read left
      let t ← Names.read right
      return (← releaseSet m (tableDemonPre m n) s t).print
    | .weak =>
      let n ← strengthOf label
      let t ← Names.read right
      let s ← Names.read left
      return (← releaseSet m (tableDemonPre m n) t (s.union t)).print
    | .implies =>
      let s ← Names.read left
      let t ← Names.read right
      return ((m.stateSet.diff s).union t).print
    | op => return (← op.apply m label left right).print

def tableSolve (m : Model) : Tree → Outcome String
  | .leaf t => tableOne m t none
  | .unary t a => do tableOne m t (some (← solve m a))
  | .binary t l r => do
    let x ← solve m l
    let y ← solve m r
    tableTwo m t x y

/-! ## Checking -/

def checkSquare (m : Model) : Outcome Unit :=
  m.graph.forM fun row => if row.length < m.graph.length then .error .position else .ok ()

def plain (s : String) : Report := ⟨s, none⟩

def check (reader : Formula.Logic) (source formula : String) : Outcome Report := do
  let m ← Model.load .cost source
  checkSquare m
  if isBlankFormula formula then return plain "Error: formula not entered"
  match ← Formula.parse reader .ol .missing formula with
  | none => return plain "Syntax Error"
  | some f =>
    match ← ground m f with
    | none => return plain "Syntax Error: the atom does not exist"
    | some t => return plain ("Result: " ++ (← solve m t))

def checkTwice (reader : Formula.Logic) (m : Model) (formula : String) : Outcome Report := do
  match ← Formula.parse reader .ol .missing formula with
  | none => return plain "Syntax Error"
  | some f =>
    match ← ground m f with
    | none => return plain "Syntax Error: the atom does not exist"
    | some t =>
      let byTable ← tableSolve m t
      let result ← solve m t
      if result ≠ byTable then .error .name
      return plain (if result = "set()" then "None" else result)

/-- Checks a formula twice against the model in a file. The file that was read last is not read
again; its place is then taken by the empty model. The second part is the file that was read last. -/
def checkFile (reader : Formula.Logic) (last : String) (file source formula : String) :
    Outcome Report × String :=
  if isBlankFormula formula then (.ok (plain "Error: formula not entered"), last)
  else if file = last then (checkTwice reader {} formula, last)
  else
    let loaded : Outcome Model := do
      let m ← Model.load .cost source
      checkSquare m
      return m
    match loaded with
    | .error f => (.error f, last)
    | .ok m => (checkTwice reader m formula, file)

end Arena.Checker.Obstruction
