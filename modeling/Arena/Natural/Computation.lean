/-
Computations written down as trees. A node carries a state, its level, the label row of its state
and, for each depth at which it was visited, the path to it; children stand beside the joint actions
that lead to them. Nodes are renamed, pruned, and turned into a transition matrix.
-/
import Arena.Natural.Unfolding

namespace Arena.Natural

abbrev Turn := List (String × String)

inductive Computation where
  | node (state : String) (level : Int) (labels : Option (List Cell))
      (paths : List (Int × List String)) (visited : List Int)
      (children : List Computation) (turns : List (List Turn))

inductive Sketch where
  | node (state : String) (children : List Sketch) (turns : List (List Turn))

namespace Sketch

def turnOf : Datum → Turn
  | .dict es => es.map fun (k, v) => (ofDatum k, ofDatum v)
  | _ => []

mutual

def ofDatum : Datum → Sketch
  | .list [.text q, .list branches] =>
    let (children, turns) := branchesOf branches
    node q children turns
  | _ => node "" [] []

def branchesOf : List Datum → List Sketch × List (List Turn)
  | .list [.list turns, child] :: rest =>
    let (children, others) := branchesOf rest
    (ofDatum child :: children, turns.map turnOf :: others)
  | _ :: rest => branchesOf rest
  | [] => ([], [])

end

instance : OfDatum Sketch := ⟨ofDatum⟩

end Sketch

namespace Computation

def usualDepth : Int := 2

def state : Computation → String
  | node q _ _ _ _ _ _ => q

def visits : Computation → List Int
  | node _ _ _ _ ds _ _ => ds

def isLeaf : Computation → Bool
  | node _ _ _ _ _ cs _ => cs.isEmpty

/-! ## Building -/

mutual

def ofSketch (m : Model) : Sketch → Outcome Computation
  | .node q children turns => do
    let labels ← Unfolding.labelRow m q
    return node q 0 labels [] [] (← ofSketches m children) turns

def ofSketches (m : Model) : List Sketch → Outcome (List Computation)
  | [] => .ok []
  | s :: rest => do
    let c ← ofSketch m s
    let cs ← ofSketches m rest
    return c :: cs

end

/-- The computation from a state along given edges. Nodes along an edge would carry the propositions
that hold on the way, which a model does not give. -/
def alongEdges (m : Model) (sources : List String) (q : String) (depth : Int) : Outcome Computation := do
  let root ← ofSketch m (.node q [] [])
  if 0 ≤ depth && sources.contains q then .error .member
  return root

/-! ## Text -/

def turnsText (turns : List Turn) : String :=
  Text.join ", " (turns.flatMap fun t => t.map fun (k, v) => k ++ ": " ++ v)

def pathsText (paths : List (Int × List String)) : String :=
  (Datum.dict (paths.map fun (d, p) => (.int d, .names p))).print

mutual

def describe (level : Nat) : Computation → String
  | node q depth labels paths _ children turns =>
    if usualDepth < level then "" else
    let line (s : String) : String := Text.repeated "\t" level ++ s ++ "\n"
    line (Text.quote q) ++ line ("Level: " ++ toString depth) ++
      line ("Label Row: " ++ Unfolding.labelsText labels) ++ line "True Props: []" ++
      line "Path True Props: []" ++ line ("Predecessors: " ++ pathsText paths) ++
      describeAll (level + 1) children turns

def describeAll (level : Nat) : List Computation → List (List Turn) → String
  | c :: children, t :: turns =>
    Text.repeated "\t" level ++ "Actions: " ++ turnsText t ++ "\n" ++ describe level c ++
      describeAll level children turns
  | _, _ => ""

end

/-! ## Renaming -/

abbrev Renaming := List (String × String)

mutual

/-- Renames the states down to a depth. States without a new name get the next number. -/
def rename (limit : Int) : Int → Renaming → Int → Computation → Computation × Renaming × Int
  | depth, names, next, node q level labels paths ds children turns =>
    if limit < depth then (node q level labels paths ds children turns, names, next) else
    let (new, names, next) := match names.find? (·.1 == q) with
      | some (_, new) => (new, names, next)
      | none => let new := Model.defaultName next; (new, names ++ [(q, new)], next + 1)
    let (cs, names, next) := renameAll limit (depth + 1) names next children
    (node new level labels paths ds cs turns, names, next)

def renameAll (limit : Int) : Int → Renaming → Int → List Computation →
    List Computation × Renaming × Int
  | _, names, next, [] => ([], names, next)
  | depth, names, next, c :: rest =>
    let (c, names, next) := rename limit depth names next c
    let (cs, names, next) := renameAll limit depth names next rest
    (c :: cs, names, next)

end

mutual

def nameByDepth (limit : Int) : Int → List String → Computation → Computation × List String
  | depth, used, node q level labels paths ds children turns =>
    if limit < depth then (node q level labels paths ds children turns, used) else
    let new := Model.defaultName depth
    let new := if used.contains new then Model.defaultName (depth + 5) else new
    let (cs, used) := nameAllByDepth limit (depth + 1) (new :: used) children
    (node new level labels paths ds cs turns, used)

def nameAllByDepth (limit : Int) : Int → List String → List Computation →
    List Computation × List String
  | _, used, [] => ([], used)
  | depth, used, c :: rest =>
    let (c, used) := nameByDepth limit depth used c
    let (cs, used) := nameAllByDepth limit depth used rest
    (c :: cs, used)

end

mutual

/-- Names each node by a running number, down to the usual depth. A node that is too deep has no next
number; then the next node cannot be named. -/
def enumerate : Int → Int → Computation → Computation × Outcome (Option Int)
  | depth, n, node q level labels paths ds children turns =>
    if usualDepth < depth then (node q level labels paths ds children turns, .ok none) else
    let (cs, r) := enumerateAll (depth + 1) (some (n + 1)) children
    (node (Model.defaultName n) level labels paths ds cs turns, r)

def enumerateAll : Int → Option Int → List Computation → List Computation × Outcome (Option Int)
  | _, n, [] => ([], .ok n)
  | _, none, c :: rest => (c :: rest, .error .shape)
  | depth, some n, c :: rest =>
    match enumerate depth (n + 1) c with
    | (c, .error f) => (c :: rest, .error f)
    | (c, .ok next) =>
      let (cs, r) := enumerateAll depth next rest
      (c :: cs, r)

end

/-! ## Paths -/

def putPath (paths : List (Int × List String)) (depth : Int) (path : List String) :
    List (Int × List String) :=
  if paths.any (·.1 == depth) then paths.map fun e => if e.1 == depth then (depth, path) else e
  else paths ++ [(depth, path)]

mutual

/-- Notes at each node down to a depth the path that leads to it. Nodes already visited at the same
depth are passed over, and a path that is known leaves the level of its node. -/
def notePaths (limit : Int) (known : List (List String)) (before : List String) :
    Int → Computation → Computation
  | depth, node q level labels paths ds children turns =>
    let path := before ++ [q]
    let level := if known.contains path then level else depth
    let cs := if depth < limit then notePathsAll limit path (depth + 1) children else children
    node q level labels (putPath paths depth path) (depth :: ds) cs turns

def notePathsAll (limit : Int) (before : List String) : Int → List Computation → List Computation
  | _, [] => []
  | depth, c :: rest =>
    (if c.visits.contains depth then c else notePaths limit [] before depth c) ::
      notePathsAll limit before depth rest

end

mutual

def forgetPaths (limit : Int) : Int → Computation → Computation
  | depth, node q level labels paths ds children turns =>
    if limit < depth then node q level labels paths ds children turns else
    node q level labels (paths.filter fun e => depth < e.1) ds
      (forgetPathsAll limit (depth + 1) children) turns

def forgetPathsAll (limit : Int) : Int → List Computation → List Computation
  | _, [] => []
  | depth, c :: rest => forgetPaths limit depth c :: forgetPathsAll limit depth rest

end

mutual

/-- The first path from the root whose states meet the conditions of a word one by one. States are
named by a letter and a number. -/
def meets (props : List String) : List String → Int → Computation → Outcome (Option (List String))
  | word, depth, node q _ labels _ _ children _ => do
    if depth < 0 then return none
    match word with
    | [] => return none
    | w :: rest =>
      let _ ← Unfolding.positionOf q
      if ← Story.holds props labels w then
        if rest.isEmpty then return some [q]
        return (← meetsBelow props rest (depth - 1) children).map (q :: ·)
      else return none

def meetsBelow (props : List String) : List String → Int → List Computation →
    Outcome (Option (List String))
  | _, _, [] => .ok none
  | word, depth, c :: rest => do
    match ← meets props word depth c with
    | some path => return some path
    | none => meetsBelow props word depth rest

end

def meetsOne (props : List String) (depth : Int) (c : Computation) :
    List String → Outcome (Option (List String))
  | [] => .ok none
  | w :: rest => do
    match ← c.meets props (Story.conditions w) depth with
    | some path => return some path
    | none => meetsOne props depth c rest

def meetsStory (props : List String) (c : Computation) (story : String) (length depth : Int) :
    Outcome (Option (List String)) :=
  c.meetsOne props depth (Story.wordsOf story length)

/-! ## Pruning -/

/-- The turns that an agent may take: those before the first in which it plays an action that it must
not play. Turns without the agent are dropped. Idling is always allowed. -/
def allowed (agent : String) (actions : List String) : List Turn → List Turn
  | [] => []
  | t :: rest =>
    match t.find? (·.1 == agent) with
    | none => allowed agent actions rest
    | some (_, a) => if actions.contains a || a = "I" then t :: allowed agent actions rest else []

/-- How a tree is pruned: in which states, for which agent with which actions, along which path. -/
structure Cut where
  actions : List String
  states : List String
  agent : String
  path : List String

mutual

def prune (cut : Cut) : Nat → List String → Computation → Computation × List String
  | depth, visited, node q level labels paths ds children turns =>
    if visited.contains q || cut.path.length ≤ depth then
      (node q level labels paths ds children turns, visited)
    else
      let left := if cut.states.contains q && cut.path[depth]? == some q then
          turns.map (allowed cut.agent cut.actions)
        else turns
      let mask := if cut.states.contains q && cut.path[depth]? == some q then
          left.map (!·.isEmpty)
        else []
      let (cs, visited) := pruneKept cut (depth + 1) (q :: visited) children mask
      (node q level labels paths ds cs (kept mask left), visited)

def pruneKept (cut : Cut) : Nat → List String → List Computation → List Bool →
    List Computation × List String
  | _, visited, [], _ => ([], visited)
  | depth, visited, c :: rest, mask =>
    if mask.headD true then
      let (c, visited) := prune cut depth visited c
      let (cs, visited) := pruneKept cut depth visited rest mask.tail
      (c :: cs, visited)
    else pruneKept cut depth visited rest mask.tail

end

/-! ## Matrices -/

def pieces (n : Nat) : Nat → List Char → List String
  | 0, _ => []
  | _, [] => []
  | k + 1, s => String.ofList (s.take n) :: pieces n k (s.drop n)

def jointActions (s : String) (agents : Int) : Outcome String := do
  let s := (List.range agents.toNat).foldl
    (fun s i => Text.replace ("agent" ++ toString (i + 1) ++ ": ") "" s) s
  if agents = 0 then .error .value
  return Text.join "," (pieces agents.toNat (if agents < 0 then 0 else s.length) s.toList)

mutual

/-- The steps of a tree down to a depth: source, target and what the agents do. The states of the
nodes that are met stand in between. -/
def steps : Int → Computation → List (String × Option (String × List Turn))
  | depth, node q _ _ _ _ children turns =>
    if depth < 0 then [] else (q, none) :: stepsFrom q depth children turns

def stepsFrom (q : String) : Int → List Computation → List (List Turn) →
    List (String × Option (String × List Turn))
  | depth, c :: cs, t :: ts =>
    (q, some (c.state, t)) :: steps (depth - 1) c ++ stepsFrom q depth cs ts
  | _, _, _ => []

end

def matrix (c : Computation) (agents depth : Int) : Computation × Outcome (List (List String)) :=
  let (c, names, _) := c.rename usualDepth 0 [] 0
  let states := Text.sorted (names.map (·.2))
  let empty := List.replicate states.length (List.replicate states.length "0")
  (c, (c.steps depth).foldlM (fun g (q, step) => do
    let i ← Unfolding.lastIndex states q
    match step with
    | none => return g
    | some (r, turns) =>
      let j ← Unfolding.lastIndex states r
      let text := String.join (turns.flatMap fun t => t.map fun (k, v) => k ++ ": " ++ v)
      return Unfolding.putCell g i j (← jointActions text agents)) empty)

end Computation

end Arena.Natural
