/-
Charts: named places with moves between them, and pairs of places that some player cannot tell
apart. A chart is given by two tables of labels or read from a text; `Chart.draw` makes it a
picture.
-/
import Arena.Data.Access
import Arena.Diagram.Dot

namespace Arena.Diagram

abbrev Labels := List (List (Option String))

structure Chart where
  places : List String
  moves : Labels := []
  doubts : Labels := []
  arrows : Bool := false
  deriving DecidableEq, Repr

namespace Chart

/-- A chart without moves. Places without names are numbered. -/
def blank (count : Nat) (names : List String) (arrows : Bool) : Outcome Chart := do
  let places ← (List.range count).mapM fun i =>
    if names.isEmpty then .ok (toString i) else nth names (i : Nat)
  return { places, arrows }

def withMoves (c : Chart) (moves : Labels) : Outcome Chart :=
  if c.places.length < moves.length then .error .position else .ok { c with moves }

def withDoubts (c : Chart) (doubts : Labels) : Outcome Chart :=
  if c.places.length < doubts.length then .error .position else .ok { c with doubts }

/-! ## Reading -/

/-- The parts of a chart's text: rows of moves, rows of doubts, names, and the place to begin at. -/
structure Parts where
  moves : List (List String) := []
  doubts : List (List String) := []
  names : List String := []
  initial : List String := []

def headers : List String :=
  ["Transition\n", "Unkown_Transition_by\n", "Name_State\n", "Initial_State\n"]

/-- Reads lines; `part` counts the headers so far. Of several lines with names the last one counts. -/
def readLines (part : Nat) (p : Parts) : List String → Parts
  | [] => p
  | line :: rest =>
    if headers.contains line then readLines (part + 1) p rest
    else
      let cells := (Text.split " " line).map Text.trim
      match part with
      | 1 => readLines part { p with moves := p.moves ++ [cells] } rest
      | 2 => readLines part { p with doubts := p.doubts ++ [cells] } rest
      | 3 => readLines part { p with names := cells } rest
      | 4 => readLines 5 { p with initial := cells } rest
      | _ => readLines part p rest

def withoutMark (s : String) : String :=
  match s.toList with
  | c :: rest => if c.toNat = 0xFEFF then String.ofList rest else s
  | [] => s

def Parts.read (source : String) : Parts :=
  readLines 0 {} (Text.lines (Text.unifyLineEnds (withoutMark source)))

/-- The chart that a text describes: one place for each row of moves. -/
def read (source : String) (arrows : Bool) : Outcome Chart := do
  let p := Parts.read source
  let c ← blank p.moves.length p.names arrows
  (← c.withMoves (p.moves.map (·.map some))).withDoubts (p.doubts.map (·.map some))

/-! ## Drawing -/

structure Style where
  /-- Labels of the places; none at all, or one for each place. -/
  labels : List String := []
  color : String := "blue"
  movesOnly : Bool := false
  marked? : Option Int := none

def rowEdges (places : List String) (keep : String → Bool) (attributes : Attributes)
    (source : String) : Nat → List (Option String) → Outcome (List Statement)
  | _, [] => .ok []
  | j, some label :: rest => do
    if keep label then
      let target ← nth places j
      return .edge source target label attributes ::
        (← rowEdges places keep attributes source (j + 1) rest)
    rowEdges places keep attributes source (j + 1) rest
  | j, none :: rest => rowEdges places keep attributes source (j + 1) rest

def edges (places : List String) (keep : String → Bool) (attributes : Attributes)
    (rows : Labels) : Outcome (List Statement) := do
  let parts ← (places.zip rows).mapM fun (source, row) =>
    rowEdges places keep attributes source 0 row
  return parts.flatten

def draw (c : Chart) (style : Style := {}) : Outcome Picture := do
  let marked ← match style.marked? with
    | none => pure []
    | some i => do
      let name ← nth c.places i
      pure [Statement.node name [("style", "filled"), ("fillcolor", "red")]]
  let moves ← edges c.places (!Text.contains · "NoAction") [] c.moves
  let doubts ← if style.movesOnly then pure [] else do
    let dotted ← edges c.places (· ≠ "0") [("color", style.color)] c.doubts
    pure ([.defaults "edge" [("arrowhead", "none"), ("style", "dotted")]] ++ dotted ++
      [.defaults "edge" [("arrowhead", "Normal"), ("style", "solid")]])
  let labels ← if style.labels.isEmpty then pure [] else
    (c.places.zip (List.range c.places.length)).mapM fun (name, i) => do
      let label ← nth style.labels (i : Nat)
      pure (Statement.node name [("xlabel", label)])
  return ⟨[.defaults "node" [("shape", "circle")], .defaults "edge" [("arrowhead", "none")]] ++
    (if c.arrows then [.defaults "edge" [("arrowhead", "normal")]] else []) ++
    marked ++ moves ++ doubts ++ labels⟩

end Chart

end Arena.Diagram
