/-
Graded structures: states, transitions with a degree, and a degree for each atomic proposition in
each state. Read from a model text: the labels of the transitions, in order, get evenly spaced
degrees between 0 and 1.
-/
import Arena.Fuzzy.Degree

namespace Arena.Fuzzy

abbrev Valuation (α : Type) := List (String × α)

namespace Valuation

variable {α : Type}

def get? (v : Valuation α) (k : String) : Option α := (v.find? fun e => e.1 == k).map (·.2)

def get (v : Valuation α) (k : String) : Outcome α := orFault .key (v.get? k)

/-- The table with an entry: at its place if the key is there, otherwise at the end. -/
def put (v : Valuation α) (k : String) (x : α) : Valuation α :=
  if v.any (fun e => e.1 == k) then v.map fun e => if e.1 == k then (k, x) else e
  else v ++ [(k, x)]

def tabulate (keys : List String) (f : String → α) : Valuation α :=
  (Text.distinct keys).map fun k => (k, f k)

def tabulateM (keys : List String) (f : String → Outcome α) : Outcome (Valuation α) :=
  (Text.distinct keys).mapM fun k => do return (k, ← f k)

end Valuation

structure Kripke (α : Type) where
  states : List String
  initial : String
  edges : List (String × Valuation α)
  labels : List (String × Valuation α)

namespace Kripke

variable {α : Type}

def post (k : Kripke α) (s : String) : Valuation α :=
  ((k.edges.find? fun e => e.1 == s).map (·.2)).getD []

def label (k : Kripke α) (s : String) : Outcome (Valuation α) :=
  orFault .key ((k.labels.find? fun e => e.1 == s).map (·.2))

/-! ## Reading -/

def lineIndex (lines : List String) (line : String) : Outcome Nat :=
  orFault .value (lines.idxOf? line)

def lineBehind (lines : List String) (header : String) : Outcome String := do
  orFault .position lines[(← lineIndex lines header) + 1]?

def matrixLines (lines : List String) : Outcome (List String) := do
  let first ← lineIndex lines "Transition"
  let last ←
    if lines.contains "Unkown_Transition_by" then lineIndex lines "Unkown_Transition_by"
    else lineIndex lines "Name_State"
  return (lines.take last).drop (first + 1)

variable [Degree α]

def labelDegrees (rows : List (List String)) : Valuation α :=
  let labels := Text.sorted (Text.distinct (rows.flatten.filter (· ≠ "0")))
  (labels.zip (List.range labels.length)).map fun (l, i) =>
    (l, Degree.ratio (i + 1) (labels.length + 1))

def rowSuccessors (degrees : Valuation α) (cells : List (String × String)) : Valuation α :=
  cells.foldl (fun v (state, cell) =>
    if cell = "0" then v
    else match degrees.get? cell with
      | some d => v.put state d
      | none => v) []

def addEdges (edges : List (String × Valuation α)) (s : String) (new : Valuation α) :
    List (String × Valuation α) :=
  edges.map fun e => if e.1 == s then (s, new.foldl (fun v (t, d) => v.put t d) e.2) else e

def readEdges (states : List String) (degrees : Valuation α) :
    Nat → List (String × List String) → List (String × Valuation α) →
      Outcome (List (String × Valuation α))
  | _, [], edges => .ok edges
  | i, (s, row) :: rest, edges => do
    if row.length ≠ states.length then .error (.rowWidth i row.length states.length)
    readEdges states degrees (i + 1) rest
      (addEdges edges s (rowSuccessors degrees (states.zip row)))

def readLabels (props : List String) :
    Nat → List (String × List String) → List (String × Valuation α) →
      Outcome (List (String × Valuation α))
  | _, [], labels => .ok labels
  | i, (s, row) :: rest, labels => do
    if row.length ≠ props.length then .error (.labelWidth i row.length props.length)
    let values ← (props.zip row).mapM fun (p, w) => do
      return (p, ← orFault .value (Degree.parse? w : Option α))
    let v : Valuation α := values.foldl (fun v (p, d) => v.put p d) []
    readLabels props (i + 1) rest (Valuation.put labels s v)

def read (source : String) : Outcome (Kripke α) := do
  let lines := ((Text.lines (Text.unifyLineEnds source)).map Text.trim).filter (· ≠ "")
  let states := Text.words (← lineBehind lines "Name_State")
  let n := states.length
  let matrix ← matrixLines lines
  if matrix.length < n then .error (.fewRows n matrix.length)
  let rows := (matrix.take n).map Text.words
  let empty : List (String × Valuation α) := Valuation.tabulate states fun _ => []
  let edges ← readEdges states (labelDegrees rows) 0 (states.zip rows) empty
  let initial ← lineBehind lines "Initial_State"
  let props := Text.words (← lineBehind lines "Atomic_propositions")
  let labelRows := ((lines.drop ((← lineIndex lines "Labelling") + 1)).take n).map Text.words
  if labelRows.length < n then .error (.labelRows n labelRows.length)
  let labels ← readLabels props 0 (states.zip labelRows) []
  return ⟨states, initial, edges, labels⟩

end Kripke

end Arena.Fuzzy
