/-
Three worked examples, each a chart with the place where its players' choices lead: cryptographers
at dinner, two trains and a controller at a crossroad, and two players on a chart of four states.
-/
import Arena.Diagram.Chart

namespace Arena.Diagram.CaseStudy

def table (rows : List String) : Labels := rows.map fun r => (Text.words r).map some

/-! ## The dinner -/

def conclusion (someonePaid : Bool) (paid : List Int) : Attributes :=
  match someonePaid, decide (paid.foldl (· + ·) 0 = 0) with
  | false, true => [("label", "Result:NSA paid. Good Prediction"), ("frontcolor", "red")]
  | false, _ => [("label", "Result:NSA paid. Bad Prediction")]
  | true, true => [("label", "Result: Someone paid. Bad Prediction")]
  | true, _ => [("label", "Result: Someone paid. Good Prediction")]

/-- The dinner: each two of `A`, `B` and `C` see a coin of theirs, each says whether its two coins
differ, and one who paid says the opposite. -/
def dinner (ab ac bc : Option String) (paid : List Int) : Outcome Picture := do
  let up (coin : Option String) : Bool := coin = some "Head"
  let word (i : Nat) (left right : Bool) : Outcome Bool := do
    return (left != right) != ((← nth paid i) ≠ 0)
  let a ← word 0 (up ac) (up ab)
  let b ← word 1 (up ab) (up bc)
  let c ← word 2 (up bc) (up ac)
  let chart ← (← Chart.blank 3 ["A", "B", "C"] false).withMoves
    [[none, ab, ac], [none, none, none], [none, bc, none]]
  let name (x : Bool) : String := if x then "True" else "False"
  let picture ← chart.draw { labels := [name a, name b, name c] }
  return picture.push (.whole (conclusion ((a != b) != c) paid))

/-! ## The crossroad -/

def crossroad : Chart where
  places := ["sI", "s1", "s2", "s3", "s4", "s5", "s6", "s7"]
  moves := table [
    "* ls1 ll2 rl3 rs4 lr5 rr6 0",
    "a 0 0 0 0 0 0 o",
    "0 0 0 0 0 0 0 o",
    "0 0 e 0 0 0 0 o",
    "a 0 0 0 0 0 0 o",
    "a 0 0 0 e 0 0 o",
    "0 0 0 e 0 0 0 o",
    "* 0 0 0 0 0 0 0"]
  doubts := table [
    "0 0 0 0 0 0 0 0",
    "0 0 t1 0 0 0 0 0",
    "0 0 0 c 0 0 0 0",
    "0 0 0 0 0 0 0 0",
    "0 0 0 0 0 t1 0 0"]
  arrows := true

/-- What the controller does in the six states behind the first one. -/
structure Control where
  first : String := "a"
  second : String := "a"
  third : String := "o"
  fourth : String := "o"
  fifth : String := "e"
  sixth : String := "e"

/-- The place where the choices of the two trains and the controller lead: the tracks must fit
together, and in the state behind them the controller may go on. -/
def crossroadPlace (train1 train2 tracks : String) (k : Control) : Int :=
  let go (choice : String) (targets : List (String × Int)) (stay : Int) : Int :=
    (targets.lookup choice).getD stay
  match tracks, train1, train2 with
  | "6", "r", "r" => go k.sixth [("e", 3), ("o", 7)] 6
  | "2", "l", "l" => go k.second [("o", 7)] 2
  | "3", "r", "l" => go k.third [("e", 2), ("o", 7)] 3
  | "4", "r", "s" => go k.fourth [("a", 0), ("o", 7)] 4
  | "5", "l", "r" => go k.fifth [("a", 0), ("o", 7)] 5
  | "1", "l", "s" => go k.first [("a", 0), ("o", 7)] 1
  | _, _, _ => 0

/-- The crossroad, with the place filled where the choices lead if `fill` holds. -/
def drawCrossroad (train1 train2 tracks : String) (fill : Bool) (k : Control) : Outcome Picture :=
  crossroad.draw { marked? := if fill then some (crossroadPlace train1 train2 tracks k) else none }

/-! ## The contest -/

def contest : Chart where
  places := ["s0", "s1", "s2", "s3"]
  moves := table ["0 AC,AD BC,BD 0", "0 0 AD,BD AC,BC", "0 0 0 AD,BC", "0 0 0 *"]
  arrows := true

def leavesSecond (first second : String) : Outcome Bool := do
  match ← letterAt first 2 with
  | "A" => return (← letterAt second 2) = "D"
  | "B" => return (← letterAt second 2) = "C"
  | _ => return false

/-- The place where the choices of two players lead; the letter at position `i` is the choice in state
`i`, and `0` is no choice. -/
def contestPlace (first second : String) : Outcome Int := do
  let last : Outcome Int := do return if ← leavesSecond first second then 3 else 2
  match ← letterAt first 0 with
  | "A" =>
    if (← letterAt second 0) = "0" then return 0
    match ← letterAt second 1 with
    | "D" => last
    | "C" => return 3
    | _ => return 1
  | "B" => if (← letterAt second 0) = "0" then return 0 else last
  | _ => return 0

def drawContest (first second : String) : Outcome Picture := do
  contest.draw { marked? := some (← contestPlace first second) }

/-! ## Models -/

def drawModel (moves : Labels) (states : List String) : Outcome Picture := do
  (← (← Chart.blank states.length states true).withMoves moves).draw

end Arena.Diagram.CaseStudy
