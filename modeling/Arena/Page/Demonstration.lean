/-
Demonstrations: the worked examples with the choices of their players, and the choice of a file.
-/
import Arena.Diagram.CaseStudy
import Arena.Page.Basic

namespace Arena.Page.Demonstration

open Diagram

def titles : List String :=
  ["01 - Initialization", "02 - Strategy Example", "03 - ICGS", "04 - Dining Cryptographers",
    "05 - Buchi  Automaton", "06 - Upload Configuration"]

/-! ## The contest -/

/-- Asks for the choice of a player in a state; doing nothing is no choice. -/
def askChoice (player place : String) (options : List String) : Page String := do
  let d ← chooseText s!"Action of {player} in the {place}" (options ++ ["Do nothing"])
  if d == .text "Do nothing" then return "0"
  d.asText

def contestPlaces : List String := ["initial state", "state 1", "state 2", "state 3"]

def contestPage : Page Unit := do
  let first ← contestPlaces.mapM fun q => askChoice "P1" q ["A", "B"]
  let second ← contestPlaces.mapM fun q => askChoice "P2" q ["C", "D"]
  draw (← CaseStudy.drawContest (String.join first) (String.join second))

/-! ## The crossroad -/

def askControl : Page (List Datum) :=
  [("s1", ["a", "o", "e"]), ("s2", ["a", "o", "e"]), ("s3", ["o", "a", "e"]),
    ("s4", ["o", "a", "e"]), ("s5", ["e", "a", "o"]), ("s6", ["e", "a", "o"])].mapM
    fun (q, options) => chooseText s!"Action in {q}" options

/-- The crossroad. The picture with the choices is drawn as if the controller's choice in each state
were that in the next one; the first choice only says whether a place is filled. -/
def crossroadPage : Page Unit := do
  draw (← CaseStudy.drawCrossroad "r" "r" "6" false {})
  let train1 ← chooseText "Action of t1 in the initial state" ["right", "left"]
  let train2 ← chooseText "Action of t2 in the initial state" ["right", "straight", "left"]
  let tracks ← chooseText "Action of controller in the state after" ["6", "5", "4", "3", "2", "1"]
  let choices ← askControl
  let track1 ← train1.elementAt 0
  let track2 ← train2.elementAt 0
  if ← pressed "Print Diagram" then
    let choice (i : Nat) : String := ofDatum (choices.getD i .null)
    draw (← CaseStudy.drawCrossroad (ofDatum track1) (ofDatum track2) (ofDatum tracks)
      (choices.headD .null).truthy ⟨choice 1, choice 2, choice 3, choice 4, choice 5, "e"⟩)

/-! ## The dinner -/

def payers : List (String × List Int) :=
  [("A", [1, 0, 0]), ("B", [0, 1, 0]), ("C", [0, 0, 1]), ("NSA", [0, 0, 0]), ("A and B", [1, 1, 0])]

def dinnerPage : Page Unit := do
  let coin (pair : String) : Page (Option String) := do
    return (← chooseText s!"{pair}: Head or Tail" ["Head", "Tail"]).text?
  let ab ← coin "A and B"
  let ac ← coin "A and C"
  let bc ← coin "B and C"
  let payer ← chooseText "Who Paid" (payers.map (·.1))
  let paid ← orFault .unset (payers.lookup (ofDatum payer))
  draw (← CaseStudy.dinner ab ac bc paid)

/-! ## The automaton -/

/-- The value that a text writes out; a name has no value. -/
def literal (s : String) : Outcome Datum :=
  match Expression.read s with
  | .error .name => .error .value
  | r => r

/-- The automaton: its states are chosen from a table in a file, but it cannot be drawn. -/
def automatonPage : Page Unit := do
  let table ← literal (← readFile "test.txt")
  let keys ← match table with
    | .dict es => pure (es.map (·.1))
    | _ => throw (.fault .member)
  let _ ← choose "Select initial state:" keys
  if keys.isEmpty then throw (.fault .value)
  let _ ← chooseSome "Select final states:" keys (keys.take 2)
  throw (.fault .name)

def main (title : String) : Page Unit :=
  match title with
  | "01 - Initialization" => throw (.fault .name)
  | "02 - Strategy Example" => contestPage
  | "03 - ICGS" => crossroadPage
  | "04 - Dining Cryptographers" => dinnerPage
  | "05 - Buchi  Automaton" => automatonPage
  | "06 - Upload Configuration" => do let _ ← chooseModel
  | _ => pure ()

end Arena.Page.Demonstration
