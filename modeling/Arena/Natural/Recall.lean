/-
Natural strategies with recall. The rules of a profile prune the unfolding of a model: where a guard
holds, only children stay to which a joint action with the agent's action leads. The formula is
checked in the model that the pruned tree is turned back into. The model that was read last stays in
use, so a step may work on a pruned one that an earlier step has read.
-/
import Arena.Natural.Search
import Arena.Natural.Unfolding

namespace Arena.Natural

namespace Unfolding

/-! ## Pruning -/

def stays (pruned : Bool) (index : Int) (action : String) : List Unfolding → List Move →
    Outcome (List Bool)
  | _ :: children, move :: moves => do
    let letter ← letterAt move (index - 1)
    let others ← stays pruned index action children moves
    return (letter = action || pruned) :: others
  | _, _ => .ok []

mutual

/-- Prunes the nodes whose states pass a test, and answers whether anything was removed. A fault
leaves what was pruned before it. -/
def prune (applies : String → Bool) (index : Int) (action : String) :
    Unfolding → Unfolding × Outcome Bool
  | node q old by_ before l pruned children moves =>
    if applies q then
      match stays pruned index action children moves with
      | .error f => (node q old by_ before l pruned children moves, .error f)
      | .ok mask =>
        let removed := mask.contains false
        let (cs, r) := pruneKept applies index action children mask
        (node q old by_ before l (pruned || removed) cs (kept mask moves), r.map (removed || ·))
    else
      let (cs, r) := pruneKept applies index action children []
      (node q old by_ before l pruned cs moves, r)

def pruneKept (applies : String → Bool) (index : Int) (action : String) :
    List Unfolding → List Bool → List Unfolding × Outcome Bool
  | [], _ => ([], .ok false)
  | t :: rest, mask =>
    if mask.headD true then
      match prune applies index action t with
      | (t, .error f) => (t :: kept mask.tail rest, .error f)
      | (t, .ok here) =>
        let (ts, r) := pruneKept applies index action rest mask.tail
        (t :: ts, r.map (here || ·))
    else pruneKept applies index action rest mask.tail

end

mutual

def prunePath (index : Int) (action : String) :
    List String → Unfolding → Unfolding × Outcome Bool
  | path, node q old by_ before l pruned children moves =>
    if path.head? = some q then
      match stays pruned index action children moves with
      | .error f => (node q old by_ before l pruned children moves, .error f)
      | .ok mask =>
        let removed := mask.contains false
        let (cs, r) := prunePathKept index action path.tail children mask
        (node q old by_ before l (pruned || removed) cs (kept mask moves), r.map (removed || ·))
    else (node q old by_ before l pruned children moves, .ok false)

def prunePathKept (index : Int) (action : String) (path : List String) :
    List Unfolding → List Bool → List Unfolding × Outcome Bool
  | [], _ => ([], .ok false)
  | t :: rest, mask =>
    if mask.headD true then
      match prunePath index action path t with
      | (t, .error f) => (t :: kept mask.tail rest, .error f)
      | (t, .ok here) =>
        let (ts, r) := prunePathKept index action path rest mask.tail
        (t :: ts, r.map (here || ·))
    else prunePathKept index action path rest mask.tail

end

/-! ## Stripping -/

mutual

/-- Strips the nodes with given states along a path: they lose the children to which joint actions
lead. Along a path, a state is visited once; without a path, the first node with a given state has no
place on it. -/
def strip (targets : List String) (path : Option (List String)) :
    Nat → List String → Unfolding → Unfolding × List String × Outcome Unit
  | depth, visited, node q old by_ before l pruned children moves =>
    let onPath := path.getD []
    let t := node q old by_ before l pruned children moves
    if !onPath.isEmpty && (visited.contains q || onPath.length ≤ depth) then (t, visited, .ok ())
    else
      let visited := q :: visited
      if targets.contains q && onPath.isEmpty then
        (t, visited, .error (if path.isSome then .position else .shape))
      else
        let mask := if targets.contains q && onPath[depth]? == some q then moves.map fun _ => false
          else []
        let (cs, visited, r) := stripKept targets path (depth + 1) visited children mask
        (node q old by_ before l pruned cs (kept mask moves), visited, r)

def stripKept (targets : List String) (path : Option (List String)) :
    Nat → List String → List Unfolding → List Bool → List Unfolding × List String × Outcome Unit
  | _, visited, [], _ => ([], visited, .ok ())
  | depth, visited, t :: rest, mask =>
    if mask.headD true then
      match strip targets path depth visited t with
      | (t, visited, .error f) => (t :: kept mask.tail rest, visited, .error f)
      | (t, visited, .ok ()) =>
        let (ts, visited, r) := stripKept targets path depth visited rest mask.tail
        (t :: ts, visited, r)
    else stripKept targets path depth visited rest mask.tail

end

/-! ## Admission -/

def playedIn (index : Int) (action : String) : List Unfolding → List Move → Outcome Bool
  | _ :: children, move :: moves => do
    if (← letterAt move (index - 1)) = action then return true
    playedIn index action children moves
  | _, _ => .ok false

mutual

/-- Whether the agent can play its action at the root, if the root has one of the given states. The
nodes below are visited only to the first that admits the action, and do not change the answer. -/
def admits (states : Names) (index : Int) (action : String) : Unfolding → Outcome Bool
  | node q _ _ _ _ _ children moves => do
    if states.contains q then
      if !(← playedIn index action children moves) then return false
    visit states index action children

def visit (states : Names) (index : Int) (action : String) : List Unfolding → Outcome Bool
  | [] => .ok true
  | t :: rest => do
    if ← admits states index action t then return true
    visit states index action rest

end

/-! ## Paths -/

mutual

def meets (props : List String) : List String → Int → Unfolding → Outcome (Option (List String))
  | word, depth, node q _ _ _ l _ children _ => do
    if depth < 0 then return none
    match word with
    | [] => return none
    | w :: rest =>
      if ← Story.holds props l w then
        if rest.isEmpty then return some [q]
        return (← meetsBelow props rest (depth - 1) children).map (q :: ·)
      else return none

def meetsBelow (props : List String) : List String → Int → List Unfolding →
    Outcome (Option (List String))
  | _, _, [] => .ok none
  | word, depth, t :: rest => do
    match ← meets props word depth t with
    | some path => return some path
    | none => meetsBelow props word depth rest

end

def meetsOne (props : List String) (depth : Int) (t : Unfolding) :
    List String → Outcome (Option (List String))
  | [] => .ok none
  | w :: rest => do
    match ← t.meets props (Story.conditions w) depth with
    | some path => return some path
    | none => meetsOne props depth t rest

def meetsStory (props : List String) (t : Unfolding) (story : String) (length depth : Int) :
    Outcome (Option (List String)) :=
  t.meetsOne props depth (Story.wordsOf story length)

end Unfolding

/-! ## Steps -/

/-- What steps work on: the model that was read last, and a tree. -/
structure Scene where
  model : Model
  tree : Unfolding

abbrev Step := ExceptT Fault (StateM Scene)

namespace Step

def ofOutcome {α : Type} (x : Outcome α) : Step α := ExceptT.mk (pure x)

def read (source : String) : Step Unit := do
  let (m, fault) := Model.read .plain source
  modify fun s => { s with model := m }
  match fault with
  | some f => throw f
  | none => return ()

def check (reader : Formula.Logic) (source formula : String) : Step Checker.Report := do
  if Checker.isBlankFormula formula then ofOutcome (Checker.Branching.check reader source formula)
  else
    read source
    ofOutcome (Checker.Branching.checkModel reader (← get).model formula)

def change {α : Type} (f : Unfolding → Unfolding × Outcome α) : Step α := do
  let (t, r) := f (← get).tree
  modify fun s => { s with tree := t }
  ofOutcome r

end Step

namespace Recall

structure Setting where
  reader : Formula.Logic
  source : String
  storyProps : Option (List String) := none

def Setting.props (s : Setting) : Step (List String) := do
  return s.storyProps.getD (← get).model.props

def statesWhere (s : Setting) (condition : String) : Step Names := do
  let report ← Step.check s.reader s.source condition
  let value ← Step.ofOutcome (Pruning.resultValue report.result)
  Step.ofOutcome (Pruning.namesOf value)

def isLegitimate (s : Setting) (guard action : String) (index : Int) : Step Bool := do
  let states ← if Story.isStory guard then do
      let tree := (← get).tree
      let n : Int := tree.children.length
      let path ← Step.ofOutcome (tree.meetsStory (← s.props) guard n n)
      pure (path.getD [])
    else do
      Step.read s.source
      statesWhere s guard
  if states.isEmpty then return true
  Step.ofOutcome ((← get).tree.admits states index action)

def pruneBoolean (s : Setting) (condition action : String) (index : Int) : Step Bool := do
  Step.read s.source
  let states ← statesWhere s condition
  Step.change (·.prune states.contains index action)

/-- Prunes by a rule with a story; none when no path meets it. -/
def pruneStory (s : Setting) (story action : String) (index height : Int) : Step (Option Bool) := do
  match ← Step.ofOutcome ((← get).tree.meetsStory (← s.props) story height height) with
  | none => return none
  | some path => return some (← Step.change (·.prunePath index action path))

def pruneIdle (s : Setting) (states : Names) (action : String) (index : Int) : Step Bool := do
  Step.read s.source
  Step.change (·.prune states.contains index action)

/-- Applies the rules of one agent. None when a rule is not admitted, otherwise whether the last rule
has pruned all nodes; `flag` is the answer without rules. -/
def applyRules (s : Setting) (within : Step Bool) (height index : Int) :
    Strategy → Bool → Step (Option Bool)
  | [], flag => return some flag
  | r :: rest, _ => do
    let legitimate ← isLegitimate s r.condition r.action index
    let admitted ← if legitimate then within else pure false
    if !admitted then return none
    let flag ← if Story.isStory r.condition then do
        pure ((← pruneStory s r.condition r.action index height).getD false)
      else pruneBoolean s r.condition r.action index
    applyRules s within height index rest (flag && (← get).tree.allMarked)

/-- Applies the rules of the agents from the `index`-th on. An agent whose rules have not pruned all
nodes idles at the others. Answers whether all rules were admitted. -/
def applyPlans (s : Setting) (within : Step Bool) (height : Int) :
    Int → List Plan → Bool → Step Bool
  | _, [], _ => return true
  | index, p :: rest, flag => do
    match ← applyRules s within height index (← Step.ofOutcome p.rules) flag with
    | none => return false
    | some flag =>
      let flag ← if flag then pure true
        else pruneIdle s (Names.ofList (← get).model.states) "I" index
      modify fun scene => { scene with tree := scene.tree.unmarked }
      applyPlans s within height (index + 1) rest flag

def prunedText (s : Setting) (height : Int) : Step String := do
  modify fun scene => { scene with tree := scene.tree.renamed }
  let tree := (← get).tree
  let states := tree.distinctStates
  let _ ← Step.ofOutcome (← get).model.agentCount
  let g ← Step.ofOutcome (tree.matrix states height)
  Step.ofOutcome (tree.modelText s.source states g)

/-- Whether the formula holds in the tree pruned by plans; none when a rule is not admitted. -/
def verdict (s : Setting) (height : Int) (formula : String) (plans : List Plan) :
    Step (Option Bool) := do
  if !(← applyPlans s (pure true) height 1 plans false) then return none
  let report ← Step.check s.reader (← prunedText s height) formula
  return some (report.initial? = some Pruning.accepted)

def withinResource (plans : List Plan) : Step Bool := do
  Step.ofOutcome ((← get).model.affordable (plans.map (·.getD [])))

/-- The degrees of the formula in the tree pruned by plans; none when a rule is not admitted. -/
def gradedVerdict (s : Setting) (height : Int) (formula : String) (plans : List Plan) :
    Step (Option (Pruning.Graded Fuzzy.Number)) := do
  if !(← applyPlans s (withinResource plans) height 1 plans false) then return none
  let text ← prunedText s height
  let (degrees, k) : _ × Fuzzy.Kripke Fuzzy.Number ←
    Step.ofOutcome (Fuzzy.Branching.check text formula)
  let degree ← Step.ofOutcome (degrees.get k.initial)
  return some ⟨Fuzzy.Degree.same degree Fuzzy.Degree.one, degrees, k⟩

/-! ## Search -/

abbrev Searching := StateT Model Drawing

/-- A step in a search, on a given tree; answers also the tree afterwards. -/
def onTree {α : Type} (tree : Unfolding) (step : Step α) : Searching (α × Unfolding) := do
  let (r, scene) := (step.run.run ⟨← get, tree⟩ : Outcome α × Scene)
  match r with
  | .error f => throw f
  | .ok a =>
    set scene.model
    return (a, scene.tree)

def task (source formula : String) : Searching Task := do
  let t ← (do
    let m ← Model.load .plain source
    Task.start (fun m => do
      let n ← m.agentCount
      m.graph.checkIdle n
      m.graph.checkTree n) m formula : Outcome Task)
  set t.model
  return t

def strategiesAt (t : Task) (i : Int) : Searching (List (List Strategy)) := do
  let guards ← Guard.expressions i t.model.props
  let table := ruleTable t.actionLists guards
  let (found, _) ← stagesFrom Guard.storyComplexity i 0 table (List.replicate t.agents.length [])
  return found

def unfold (height : Int) : Searching Unfolding := do
  Unfolding.ofModel (← get) (← get).states height

def search (t : Task) (height : Int) (test : Unfolding → Int → Profile → Searching (Option Finding)) :
    Searching Finding := do
  let level (i : Int) : Searching (Option Finding) := do
    let tree ← unfold height
    examine (test tree i) (← strategiesAt t i) []
  match ← climb level t.bound.toNat 1 with
  | some f => return f
  | none => return { satisfied := .bool false, bound? := some t.bound }

def find (reader : Formula.Logic) (source formula : String) : Drawing Finding :=
  (do
    let t ← task source formula
    search t 4 fun tree i p => do
      let (holds, _) ← onTree tree (verdict ⟨reader, source, none⟩ 4 t.formula (p.map some))
      if holds != some true then return none
      return some { satisfied := .bool true, bound? := some i, profile? := some p }
    : Searching Finding).run' {}

/-- The search for a profile within the resource under which the formula has degree one. Stories are
met nowhere; a profile with a rule that is not admitted has no verdict. -/
def findGraded (reader : Formula.Logic) (source formula : String) : Drawing Finding :=
  (do
    let t ← task source formula
    search t 4 fun tree i p => do
      let (g?, _) ← onTree tree (gradedVerdict ⟨reader, source, some []⟩ 4 t.formula (p.map some))
      let g ← orFault .shape g?
      if !g.holds then return none
      return some { satisfied := .bool true, bound? := some i, profile? := some p,
                    degrees? := some (← degreesText g) }
    : Searching Finding).run' {}

end Recall

end Arena.Natural
