/-
Model texts with the transition matrix replaced, alone or together with the names and labels of the
states.
-/
import Arena.Model.Basic

namespace Arena.Model

def rowText (row : List Cell) : String := Text.join " " (row.map Cell.write)

/-- Writes lines with the rows of a matrix in place of the lines behind the header of the matrix; the
line behind the last row becomes the header of the next section. -/
def replaceRows : Bool → Matrix → List String → List String
  | _, _, [] => []
  | inside, rows, line :: rest =>
    if line = "Transition" then line :: replaceRows true rows rest
    else if inside then
      match rows with
      | row :: more => rowText row :: replaceRows true more rest
      | [] => "Unkown_Transition_by" :: replaceRows false [] rest
    else line :: replaceRows false rows rest

def withMatrix (source : String) (graph? : Option Matrix) : Outcome String := do
  let graph ← orFault .noMatrix graph?
  let lines := (Text.lines (Text.unifyLineEnds source)).map Text.trim
  return String.join ((replaceRows false graph lines).map (· ++ "\n"))

def replaceBetween (first last : String) (new lines : List String) : Outcome (List String) := do
  let i ← orFault .value (lines.idxOf? (first ++ "\n"))
  let j ← orFault .value (lines.idxOf? (last ++ "\n"))
  return lines.take (i + 1) ++ new ++ lines.drop j

def withStates (source : String) (graph : Matrix) (states : List String)
    (labels : Outcome (List (List Cell))) : Outcome String := do
  let lines := Text.lines (Text.unifyLineEnds source)
  let rows (m : Matrix) : List String := m.map fun row => rowText row ++ "\n"
  let lines ← replaceBetween "Transition" "Unkown_Transition_by" (rows graph) lines
  let lines ←
    replaceBetween "Name_State" "Initial_State" [Text.join " " states ++ "\n"] lines
  let lines ← replaceBetween "Labelling" "Number_of_agents" (rows (← labels)) lines
  return String.join lines

end Arena.Model
