/-
Formulas about capacities and strategies (CapATL). A node denotes a set of assignments or of pointed
knowledge, or keeps its label. Atomic propositions have no value here, and coalition operators only
where their loops need no step.
-/
import Arena.Capacity.Knowledge
import Arena.Checker.Basic

namespace Arena.Capacity

open Checker (Report)

inductive Value where
  | label (s : String)
  | assignments (as : List Assignment)
  | pointed (ps : List Pointed)
  deriving DecidableEq, Repr

namespace Value

/-- The text of a value whose operators are looked for; none for a value too long for one. -/
def short? (v : Value) : Option String :=
  let text : Option String := match v with
    | label s => some s
    | assignments as => some (Datum.set (as.map fun a => .tuple (a.map .text))).print
    | pointed [] => some (Datum.set []).print
    | pointed _ => none
  text.filter fun s => s.length ≤ 32

end Value

inductive Tree where
  | leaf (value : Value)
  | unary (label : String) (arg : Tree)
  | binary (label : String) (left right : Tree)
  deriving DecidableEq, Repr

instance : ToDatum Value :=
  ⟨fun | .label s => .text s | .assignments as => (toDatum as).toSet | .pointed ps => (toDatum ps).toSet⟩

def Tree.toDatum : Tree → Datum
  | leaf v => Datum.record [("value", ToDatum.toDatum v), ("left", .null), ("right", .null)]
  | unary o a => Datum.record [("value", .text o), ("left", a.toDatum), ("right", .null)]
  | binary o l r => Datum.record [("value", .text o), ("left", l.toDatum), ("right", r.toDatum)]

instance : ToDatum Tree := ⟨Tree.toDatum⟩

/-! ## Grounding -/

def hasDigitsAndLetters (parts : List String) : Bool :=
  all Text.isDigit && all Text.isLetter
where
  all (kind : Char → Bool) : Bool := parts.any fun s => !s.isEmpty && s.toList.all kind

/-- The digits at the front of a text: as a text when something follows them, else as a number. -/
def leadingAgent (s : String) : Outcome Datum :=
  let digits := s.toList.takeWhile Text.isDigit
  if digits.length < s.length then .ok (.text (String.ofList digits))
  else do return .int (← orFault .value (Text.readInt? s))

/-- The assignments in which an agent has a capacity, for a text that names both; none if there are
none. The capacity starts behind as many characters as the position of the agent has. -/
def capacityAtom (m : Model) (s : String) : Outcome (Option (List Assignment)) := do
  let n ← match ← leadingAgent s with
    | .text digits => orFault .value (Text.readInt? digits)
    | .int n => pure n
    | _ => .error .value
  let position := n - 1
  let capacity := String.ofList (s.toList.drop (toString position).length)
  let found ← (← assignments m).filterM fun a => do return (← nth a position) = capacity
  return if found.isEmpty then none else some (Text.distinct found)

def statesOf (_ : Model) (_ : String) : Outcome (List Nat) := .error .value

/-- The tree of a formula; none when an atom has no assignments. -/
def ground (m : Model) : Formula → Outcome (Option Tree)
  | .atom s => atomTree s
  | .hole => atomTree "None"
  | .unary o a => do
    match ← ground m a with
    | none => return none
    | some a => return some (.unary o a)
  | .binary o l r => do
    match ← ground m l with
    | none => return none
    | some l =>
      match ← ground m r with
      | none => return none
      | some r => return some (.binary o l r)
  | .starred a => ground m a
where
  atomTree (s : String) : Outcome (Option Tree) := do
    if hasDigitsAndLetters (Place.lettersOf s) then
      return (← capacityAtom m s).map fun as => .leaf (.assignments as)
    let _ ← pointedKnowledge m
    let _ ← statesOf m s
    return none

/-! ## Solving -/

def coalitionOf (label : String) : String :=
  String.ofList ((label.toList.drop 1).takeWhile (· ≠ '>'))

def digitsOf (label : String) : String := String.ofList (label.toList.filter Text.isDigit)

def keysOf : Value → Outcome (List Key)
  | .label s => if s.isEmpty then .ok [] else .error .member
  | .assignments as => if as.isEmpty then .ok [] else .error .member
  | .pointed ps => .ok (ps.map fun p => (p.place, p.beliefs))

def pledgesOfValue (m : Model) (v : Value) (coalition : String) : Outcome (List Pledge) := do
  let _ ← pledges m coalition
  pledgesOf m (← keysOf v) coalition

def believes (as : List Assignment) (b : Belief) : Outcome Bool :=
  match b with
  | .one [] => .error .position
  | .many [] => .error .position
  | .one a => .ok (as.contains a)
  | .many bs => .ok (bs.all as.contains)

def sequencesOf : Value → Outcome (List Assignment)
  | .label s => .ok (s.toList.map fun c => [String.singleton c])
  | .assignments as => .ok as
  | .pointed ps => if ps.isEmpty then .ok [] else .error .shape

/-- The value of a negation; a label is not negated. -/
def negation (m : Model) (label : String) (v : Value) : Outcome Value := do
  match v with
  | .label s => if s.isEmpty then .error .exhausted else return .label label
  | .assignments [] => .error .exhausted
  | .pointed [] => .error .exhausted
  | .assignments as => return .assignments ((← assignmentSet m).filter (!as.contains ·))
  | .pointed ps => return .pointed ((← pointedKnowledge m).filter (!ps.contains ·))

def knowing (m : Model) (label : String) (v : Value) : Outcome Value := do
  let position := (← orFault .value (Text.readInt? (digitsOf label))) - 1
  let all ← pointedKnowledge m
  let as ← sequencesOf v
  return .pointed (← all.filterM fun p => do believes as (← nth p.beliefs position))

def solveOne (m : Model) (label : String) (arg : Value) : Outcome Value :=
  match (Value.label label).short? with
  | none => .ok (.label label)
  | some s =>
    let ks := Checker.kindsIn .capATL s
    if ks.contains .not then negation m label arg
    else if ks.contains .coalition && ks.contains .next then do
      let ws ← pledgesOfValue m arg (coalitionOf label)
      return .pointed (← pointedOf m (← controllable m ws (coalitionOf label)))
    else if ks.contains .knows then knowing m label arg
    else .ok (.label label)

/-- The value of a leaf: one whose text mentions an operator lacks a subformula. -/
def solveLeaf (v : Value) : Outcome Value :=
  match v.short? with
  | none => .ok v
  | some s =>
    let ks := Checker.kindsIn .capATL s
    if ks.contains .not then .error .member
    else if ks.contains .coalition && ks.contains .next then .error .shape
    else if ks.contains .knows then .error .member
    else .ok v

def untilLoop (m : Model) (coalition : String) (limit : List Pledge) :
    Nat → List Pledge → List Pledge → Outcome (List Pledge)
  | 0, _, _ => .error .endless
  | n + 1, found, new => do
    if inside Pledge.notIn new found then return found
    let found := found ++ new
    untilLoop m coalition limit n found
      (meet Pledge.notIn (← controllable m found coalition) limit)

def releaseLoop (m : Model) (coalition : String) (exits : List Pledge) :
    Nat → List Pledge → List Pledge → Outcome (List Pledge)
  | 0, _, _ => .error .endless
  | n + 1, left, keep => do
    if inside Pledge.notIn left keep then return left
    let left := meet Pledge.notIn left keep
    releaseLoop m coalition exits n left ((← controllable m left coalition) ++ exits)

/-- A conjunction: of sets of pointed knowledge the intersection; sets of assignments keep the
label. -/
def conjunction (label : String) (v w : Value) : Outcome Value :=
  match v with
  | .label s => if s.isEmpty then .error .exhausted else .ok (.label label)
  | .assignments [] => .error .exhausted
  | .pointed [] => .error .exhausted
  | .assignments _ => .ok (.label label)
  | .pointed ps =>
    match w with
    | .pointed qs => .ok (.pointed (ps.filter qs.contains))
    | .assignments _ => .ok (.pointed [])
    | .label _ => .error .shape

def solveTwo (m : Model) (label : String) (v w : Value) : Outcome Value := do
  let ks := Checker.kindsIn .capATL label
  let coalition := coalitionOf label
  if ks.contains .coalition && ks.contains .release then
    let all ← pledges m coalition
    let keep ← pledgesOfValue m w coalition
    let exits ← pledgesOfValue m v coalition
    let left ← releaseLoop m coalition exits (2 * all.length + 2) all keep
    return .pointed (← pointedOf m left)
  else if ks.contains .coalition && ks.contains .untl then
    let target ← pledgesOfValue m w coalition
    let limit ← pledgesOfValue m v coalition
    let all ← pledges m coalition
    let found ← untilLoop m coalition limit (2 * all.length + 2) [] target
    return .pointed (← pointedOf m found)
  else if ks.contains .and then conjunction label v w
  else return .label label

def solve (m : Model) : Tree → Outcome Value
  | .leaf v => solveLeaf v
  | .unary o a => do solveOne m o (← solve m a)
  | .binary o l r => do
    let v ← solve m l
    let w ← solve m r
    solveTwo m o v w

/-! ## Checking -/

def ignorance (as : List Assignment) : Option Belief :=
  if as.length < 2 then none else some (.many as)

def ignorantPlaces (m : Model) (v : Value) : Outcome (List Place) := do
  match v with
  | .label s => if s.isEmpty then return [] else .error .member
  | .assignments as => if as.isEmpty then return [] else .error .member
  | .pointed ps =>
    let all ← assignmentSet m
    let n ← m.agentCount
    let found := ps.filter fun p =>
      ((p.beliefs.filter fun b => some b = ignorance all).length : Int) = n
    return Text.distinct (found.map (·.place))

def check (reader : Formula.Logic) (source formula : String) : Outcome Report := do
  if Checker.isBlankFormula formula then return .message "Error: formula not entered"
  let m ← Model.load .capacity source
  let _ ← isValid m
  match ← Formula.parse reader .capATL (← m.agents.forFormula) formula with
  | none => return .message "Syntax Error"
  | some f =>
    match ← ground m f with
    | none => return .message "Syntax Error: the atom does not exist"
    | some t =>
      let places ← ignorantPlaces m (← solve m t)
      return ⟨(Datum.list (places.map toDatum)).print, none⟩

end Arena.Capacity
