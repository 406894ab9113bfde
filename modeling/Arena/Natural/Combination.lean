/-
Combinations of state sets: trees with texts of sets at the leaves and operations at inner nodes,
each recognised by the first of its names that occurs in the text, in whatever case. A node whose
text names no operation keeps its text.
-/
import Arena.Data.Exchange
import Arena.Data.Names

namespace Arena

/-- Binary trees with a text at each node. -/
inductive LabelTree where
  | empty
  | node (label : String) (left right : LabelTree)
  deriving DecidableEq, Repr

namespace LabelTree

def map (f : String → String) : LabelTree → LabelTree
  | empty => empty
  | node s l r => node (f s) (l.map f) (r.map f)

def toDatum : LabelTree → Datum
  | empty => .null
  | node s l r => .list [.text s, l.toDatum, r.toDatum]

def ofDatum : Datum → LabelTree
  | .list [.text s, l, r] => node s (ofDatum l) (ofDatum r)
  | _ => empty

instance : ToDatum LabelTree := ⟨toDatum⟩
instance : OfDatum LabelTree := ⟨ofDatum⟩

end LabelTree

namespace Natural.Combination

def mentions (operation label : String) : Bool := Text.contains (Text.lower label) operation

def asSet : Datum → Outcome (List Datum)
  | .set xs => .ok xs
  | _ => .error .member

def asMembers : Datum → Outcome (List Datum)
  | .set xs => .ok xs
  | .dict es => .ok (es.map (·.1))
  | _ => .error .shape

def union (a b : List Datum) : List Datum := a ++ b.filter (!a.contains ·)

def others (states : List String) (members : List Datum) : List Datum :=
  ((Text.distinct states).map Datum.text).filter (!members.contains ·)

def setText (xs : List Datum) : String := (Datum.set xs).print

/-- The text of a node with one argument. Repetition needs paths, which states by themselves do not
have. -/
def one (states : List String) (label : String) (arg : Option String) : Outcome String := do
  if mentions "not" label then
    match ← Names.readDatum (← orFault .member arg) with
    | .set xs => return setText (others states xs)
    | _ => .error .shape
  else if mentions "star" label then
    let xs ← asMembers (← Names.readDatum (← orFault .member arg))
    if xs.isEmpty then return setText [] else .error .member
  else return label

/-- The text of a node with two arguments. Sequences need paths, which states by themselves do not
have. -/
def two (states : List String) (label left right : String) : Outcome String := do
  if ["or", "and", "implies", "concat"].all (!mentions · label) then return label
  let a ← Names.readDatum left
  let b ← Names.readDatum right
  if mentions "or" label then return setText (union (← asSet a) (← asMembers b))
  else if mentions "and" label then
    let xs ← asSet a
    let ys ← asMembers b
    return setText (xs.filter ys.contains)
  else if mentions "implies" label then
    return setText (union (others states (← asMembers a)) (← asMembers b))
  else
    let xs ← asMembers a
    if xs.isEmpty then return setText [] else .error .member

def solve (states : List String) : LabelTree → Outcome (Option String)
  | .empty => .ok none
  | .node label l r => do
    let left ← solve states l
    let right ← solve states r
    match left, right with
    | _, none => return some (← one states label left)
    | some a, some b => return some (← two states label a b)
    | none, some _ => return some label

def valueOf (text : String) : Except String Datum :=
  if text = "set()" then .ok (.set [])
  else match Expression.read text with
    | .ok d => .ok d
    | .error _ => .error text

end Natural.Combination

end Arena
