/-
Graded alternating-time formulas. The value of a subformula is a list of states with their degrees,
kept as a text; a coalition's next step is worth its best part of a joint action, judged by the
worst completion. A state without a degree has none, which compares with nothing.
-/
import Arena.Checker.Alternating
import Arena.Fuzzy.Degree

namespace Arena.Fuzzy.Alternating

open Checker (Tree Report)
open Degree (less)
open WrittenDegree (wholeZero wholeOne hasLiteral minus)

abbrev Grades (α : Type) := List (String × Option α)

section

variable {α : Type} [WrittenDegree α]

/-! ## Texts -/

def degreeText : Option α → String
  | some x => WrittenDegree.print x
  | none => "None"

def printGrades (g : Grades α) : String :=
  "[" ++ Text.join ", " (g.map fun (s, x) => "(" ++ Text.quote s ++ ", " ++ degreeText x ++ ")")
    ++ "]"

def pairPieces : List String → Outcome (Grades α)
  | [] => .ok []
  | [_] => .error .position
  | s :: x :: rest => do
    let state := Text.stripOf (fun c => c == '(' || c == '\'') s
    let degree ← orFault .value (Degree.parse? (Text.stripOf (· == ')') x))
    let others ← pairPieces rest
    return (state, some degree) :: others

def splitGrades (s : String) : Outcome (Grades α) :=
  pairPieces (Text.split ", " (Text.stripOf (fun c => c == '[' || c == ']') s))

def gradeOf : Datum → Outcome (String × Option α)
  | .tuple [.text s, .null] => .ok (s, none)
  | .tuple [.text s, x] => do return (s, some (← orFault .shape (WrittenDegree.ofDatum? x)))
  | _ => .error .shape

def readGrades (s : String) : Outcome (Grades α) := do
  match ← Expression.read s with
  | .list xs => xs.mapM gradeOf
  | _ => .error .shape

/-! ## Operations on degrees -/

def lessThan (x y : Option α) : Outcome Bool :=
  match x, y with
  | some x, some y => .ok (less x y)
  | _, _ => .error .shape

def smaller (x y : Option α) : Outcome (Option α) := do
  return if ← lessThan y x then y else x

def larger (x y : Option α) : Outcome (Option α) := do
  return if ← lessThan x y then y else x

def smallest : List (Option α) → Outcome (Option α)
  | [] => .error .value
  | x :: xs => xs.foldlM smaller x

def largest : List (Option α) → Outcome (Option α)
  | [] => .error .value
  | x :: xs => xs.foldlM larger x

/-- Combines the degrees of two lists, place by place; the second list may be longer. -/
def combine (f : Option α → Option α → Outcome (Option α)) :
    Grades α → Grades α → Outcome (Grades α)
  | [], _ => .ok []
  | _ :: _, [] => .error .position
  | (s, x) :: xs, (_, y) :: ys => do
    let here ← f x y
    let others ← combine f xs ys
    return (s, here) :: others

def isBelow : Grades α → Grades α → Outcome Bool
  | [], _ => .ok true
  | _ :: _, [] => .error .position
  | (_, x) :: xs, (_, y) :: ys => do
    if ← lessThan y x then return false
    isBelow xs ys

def constant (m : Model) (x : α) : Grades α := m.states.map fun s => (s, some x)

def difference (x y : Option α) : Outcome (Option α) :=
  match x, y with
  | some x, some y => .ok (some (minus x y))
  | _, _ => .error .shape

def negate (m : Model) (g : Grades α) : Outcome (Grades α) :=
  combine difference (constant m wholeOne) g

/-! ## Predecessors -/

def degreeOf (g : Grades α) (s : String) : Option α := (g.find? fun e => e.1 == s).bind (·.2)

end

/-- What a coalition's part of a joint action can lead to: columns, each with the answers of the
opponents in its cell. -/
structure Plan where
  part : List Move
  outcomes : List (Nat × List Move)

section

variable {α : Type} [WrittenDegree α]

def addOutcome (part : List Move) (outcome : Nat × List Move) : List Plan → List Plan
  | [] => [⟨part, [outcome]⟩]
  | o :: rest =>
    if Names.same o.part part then { o with outcomes := o.outcomes ++ [outcome] } :: rest
    else o :: addOutcome part outcome rest

def addMoves (m : Model) (agents : List String) (column : Nat) (cell : List Move) :
    List Move → List Plan → Outcome (List Plan)
  | [], plans => .ok plans
  | move :: rest, plans => do
    let part ← m.coalitionMoves [move] (← Coalition.positions agents)
    let answers := Model.opponentMoves cell (← Coalition.positions agents)
    addMoves m agents column cell rest (addOutcome part (column, answers) plans)

def addCells (m : Model) (agents : List String) :
    Nat → List Cell → List Plan → Outcome (List Plan)
  | _, [], plans => .ok plans
  | j, c :: rest, plans => do
    let plans ←
      if c.isZero then pure plans
      else do
        let moves ← m.movesOf c.write
        addMoves m agents j moves moves plans
    addCells m agents (j + 1) rest plans

def plans (m : Model) (agents : List String) (state : String) : Outcome (List Plan) := do
  let i ← m.stateIndex state
  addCells m agents 0 (← nth m.graph i) []

def best (m : Model) (agents : List String) (state : String) (g : Grades α) :
    Outcome (Option α) := do
  let worst ← (← plans m agents state).mapM fun o => do
    smallest (← o.outcomes.mapM fun (j, _) => do return degreeOf g (← m.stateAt j))
  largest worst

def pre (m : Model) (coalition : String) (g : Grades α) : Outcome (Grades α) :=
  m.states.mapM fun s => do return (s, ← best m (Coalition.names coalition) s g)

def literal (g : Grades α) : Outcome (Grades α) :=
  if g.all fun (_, x) => (x.map hasLiteral).getD true then .ok g else .error .name

/-! ## Operators -/

def shrink (step : Grades α → Outcome (Grades α)) :
    Nat → Grades α → Grades α → Outcome (Grades α)
  | 0, _, _ => .error .endless
  | n + 1, p, t => do
    if ← isBelow p t then return p
    shrink step n t (← step t)

def grow (step : Grades α → Outcome (Grades α)) :
    Nat → Grades α → Grades α → Outcome (Grades α)
  | 0, _, _ => .error .endless
  | n + 1, p, t => do
    if ← isBelow t p then return p
    let p ← combine larger p t
    grow step n p (← step p)

/-- A bound on the rounds: each changes the degree of a state to another one that occurs. -/
def rounds (m : Model) (g : Grades α) : Nat := (m.states.length + 2) * (g.length + 3) + 2

def argument (arg : Option String) : Outcome (Grades α) :=
  match arg with
  | some s => splitGrades s
  | none => .error .member

def temporal (m : Model) (op : Checker.Alternating.Unary) (label : String)
    (arg : Option String) : Outcome (Grades α) := do
  let coalition := Checker.Alternating.coalitionOf label
  match op with
  | .not => negate m (← argument arg)
  | .globally =>
    let g : Grades α ← argument arg
    shrink (fun p => do combine smaller (← literal (← pre m coalition p)) g) (rounds m g)
      (constant m wholeOne) g
  | .next =>
    match arg with
    | none => .error .member
    | some s => pre m coalition (← readGrades s)
  | .eventually =>
    let g : Grades α ← argument arg
    grow (fun p => do literal (← pre m coalition p)) (rounds m g) (constant m wholeZero) g

def temporalOf? (s : String) : Option Checker.Alternating.Unary :=
  let ks := Checker.kindsIn .atl s
  let both (k : Formula.TokenKind) : Bool := ks.contains .coalition && ks.contains k
  if both .globally then some .globally
  else if both .next then some .next
  else if both .eventually then some .eventually
  else none

variable (α) in
/-- The text of a node with one subformula: first its negation, then the coalition's operator. -/
def one (m : Model) (label : String) (arg : Option String) : Outcome String := do
  let label ←
    if (Checker.kindsIn .atl label).contains .not then do
      let g : Grades α ← temporal m .not label arg
      pure (printGrades g)
    else pure label
  match temporalOf? label with
  | none => return label
  | some op =>
    let g : Grades α ← temporal m op label arg
    return printGrades g

def binaryOf? (s : String) : Option Checker.Alternating.Binary :=
  let ks := Checker.kindsIn .atl s
  if ks.contains .or then some .or
  else if ks.contains .and then some .and
  else if ks.contains .coalition && ks.contains .untl then some .untl
  else if ks.contains .implies then some .implies
  else none

variable (α) in
def two (m : Model) (label left right : String) : Outcome String :=
  match binaryOf? label with
  | none => .ok label
  | some op => do
    let g : Grades α ← splitGrades left
    let h : Grades α ← splitGrades right
    match op with
    | .or => return printGrades (← combine larger g h)
    | .and => return printGrades (← combine smaller g h)
    | .untl =>
      let coalition := Checker.Alternating.coalitionOf label
      let step (p : Grades α) : Outcome (Grades α) := do
        combine smaller (← literal (← pre m coalition p)) g
      return printGrades (← grow step (rounds m g + rounds m h) (constant m wholeZero) h)
    | .implies => return printGrades (← combine larger (← negate m g) h)

/-! ## Checking -/

/-- The degrees of an atomic proposition; none for an unknown proposition. -/
def atomGrades (m : Model) (p : String) : Outcome (Option (Grades α)) :=
  match m.propIndex? p with
  | none => .ok none
  | some k => do
    let rows := m.labels.zip (List.range m.labels.length)
    let grades ← rows.mapM fun (row, i) => do
      let s ← m.stateAt i
      let x ← orFault .value (Degree.parse? (← nth row k).write : Option α)
      return (s, some x)
    return some grades

variable (α) in
def ground (m : Model) (f : Formula) : Outcome (Option Tree) :=
  Tree.ground (fun p => do
    let g : Option (Grades α) ← atomGrades m p
    return g.map printGrades) f

variable (α) in
def solve (m : Model) (t : Tree) : Outcome String := t.solve (one α m) (two α m)

def initialDegree (m : Model) (result : String) : Outcome (Option α) := do
  return degreeOf (← readGrades result) m.initial

variable (α) in
def check (reader : Formula.Logic) (source formula : String) : Outcome Report := do
  if Checker.isBlankFormula formula then return .message "Error: formula not entered"
  let m ← Model.load .plain source
  match ← Formula.parse reader .atl (← m.agents.forFormula) formula with
  | none => return .message "Syntax Error"
  | some f =>
    match ← ground α m f with
    | none => return .message "Syntax Error: the atom does not exist"
    | some t =>
      let result ← solve α m t
      let x : Option α ← initialDegree m result
      return ⟨"Result: " ++ result,
        some ("Initial state " ++ m.initial ++ ": " ++ degreeText x)⟩

end

end Arena.Fuzzy.Alternating
