/-
Pruning a model by strategies without memory. In the rows of the states where the condition of a
rule holds only joint actions stay in which the agent plays its action. Firm pruning applies the
first rule that holds in a state and refuses a strategy that empties a row; lenient pruning always
leaves idling open.
-/
import Arena.Checker.Branching
import Arena.Fuzzy.Branching
import Arena.Model.Update
import Arena.Natural.Profile

namespace Arena.Natural

abbrev Plan := Option Strategy

instance : OfDatum Plan := ⟨fun d => (d.get? "condition_action_pairs").map ofDatum⟩

def plansDatum (ps : List Plan) : Datum := .list (ps.map fun p => p.elim (.dict []) strategyDatum)

def Plan.rules (p : Plan) : Outcome Strategy := orFault .key p

namespace Pruning

/-! ## Matrices -/

abbrev SourceNames := List (List (Option String))

def restrictCell (states : Names) (pick : List Move → Outcome (List Move)) (source : Option String)
    (cell : Cell) : Outcome Cell :=
  match source, cell with
  | some q, .text s => do
    if s = "*" || !states.contains q then return cell
    match ← pick (Text.split "," s) with
    | [] => return .zero
    | kept =>
      let text := Text.join "," kept
      return if text = "" then .zero else .text text
  | _, _ => .ok cell

def restrict (sources : SourceNames) (states : Names) (pick : List Move → Outcome (List Move))
    (g : Matrix) : Outcome Matrix :=
  (g.zip (List.range g.length)).mapM fun (row, i) =>
    (row.zip (List.range row.length)).mapM fun (cell, j) => do
      let source ← nth (← nth sources (i : Nat)) (j : Nat)
      restrictCell states pick source cell

def plays (place : Int) (action : String) (move : Move) : Outcome Bool := do
  if (move.length : Int) ≤ place then return false
  return (← letterAt move place) = action

/-- The place of an agent's letter: that of the `index`-th agent of the coalition. -/
def placeOf (agents : List Int) (index : Int) : Outcome Int := do
  return (← nth agents (index - 1)) - 1

def rowOf? (rows : List (String × Int)) (q : String) : Option Int :=
  (rows.reverse.find? (·.1 == q)).map (·.2)

/-- Firm pruning: only the joint actions with the agent's action stay. Answers also the states whose
rows are empty now. -/
def firm (g : Matrix) (sources : SourceNames) (states : Names) (action : String) (index : Int)
    (agents : List Int) (rows : List (String × Int)) : Outcome (Matrix × Names) := do
  let place ← placeOf agents index
  let pick (moves : List Move) : Outcome (List Move) :=
    ((moves.map Text.trim).filter (· ≠ "")).filterM (plays place action)
  let g ← restrict sources states pick g
  let emptied ← states.filterM fun q =>
    match rowOf? rows q with
    | none => .ok false
    | some r => do return (← nth g r).all Cell.isZero
  return (g, emptied)

/-- Lenient pruning: the joint actions with the agent's action or idling stay. -/
def lenient (g : Matrix) (sources : SourceNames) (states : Names) (action : String) (index : Int)
    (agents : List Int) : Outcome Matrix :=
  restrict sources states (fun moves => do
    let place ← placeOf agents index
    moves.filterM fun move => do
      let letter ← letterAt move place
      return letter = "I" || letter = action) g

/-! ## Conditions -/

/-- A text that is `not` in any case, between boundaries of words. -/
def notWord : Text.Matcher Unit := fun before s => do
  let word := s.take 3
  let rest := s.drop 3
  if Text.lower (String.ofList word) = "not" && word.length = 3 && Text.isBoundary before s.head? &&
    Text.isBoundary word.getLast? rest.head? then some ((), rest) else none

def plainCondition (s : String) : String :=
  let s := Text.replace "→" ">" (Text.replace "¬" "!" (Text.replace "∨" "|"
    (Text.replace "∧" "&" s)))
  Text.join " " (Text.words (notWord.replaceAll (fun _ => "!") s))

/-- The value behind the first colon of a result; none when there is no colon or no value. -/
def resultValue? (result : String) : Option Datum := do
  let (_, s) ← Text.cut? ": " result
  if s = "set()" then some (.set []) else (Expression.read s).toOption

def namesOf? : Datum → Option Names
  | .set xs => xs.mapM fun | .text s => some s | _ => none
  | _ => none

def resultValue (result : String) : Outcome Datum := do
  match Text.split ": " result with
  | _ :: s :: _ => if s = "set()" then return .set [] else Expression.read s
  | _ => .error .position

def namesOf : Datum → Outcome Names
  | .set xs => xs.mapM Names.nameOf
  | _ => .error .shape

/-! ## Firm pruning -/

def rowsOf (m : Model) : List (String × Int) :=
  (m.states.zip (List.range m.states.length)).map fun (q, i) => (q, (i : Int))

abbrev Pruned := Except String Matrix

/-- Where a rule applies, if it applies anywhere: the states, and how they are named. -/
inductive Scope where
  | everywhere
  | where_ (condition : String) (states : Names)

/-- Where the condition of a rule holds; none when its check has no states. -/
def scopeOf (reader : Formula.Logic) (source : String) (condition : String) :
    Outcome (Option Scope) := do
  if Text.upper condition = "T" then return some .everywhere
  let condition := plainCondition condition
  let report ← Checker.Branching.check reader source condition
  match (resultValue? report.result).bind namesOf? with
  | none => return none
  | some states => return some (.where_ condition states)

def refusal (scope : Scope) (targets emptied : Names) (action : String) : String :=
  let names (s : Names) : String := Text.quotedNames (Text.sorted s)
  match scope with
  | .everywhere =>
    "Strategia NON ammissibile (HARD): regola (T -> " ++ action ++ ") svuota la riga in " ++
      names emptied ++ ". Significa che '" ++ action ++ "' non è abilitata in quegli stati."
  | .where_ condition _ =>
    "Strategia NON ammissibile (HARD): regola (" ++ condition ++ " -> " ++ action ++
      ") si applica a " ++ names targets ++ " ma svuota la riga in " ++ names emptied ++
      ". Quindi '" ++ action ++ "' non è abilitata lì."

def firmRules (reader : Formula.Logic) (source : String) (m : Model) (sources : SourceNames)
    (agents : List Int) (index : Int) : Strategy → Names → Matrix → Outcome Pruned
  | [], _, g => .ok (.ok g)
  | r :: rest, covered, g => do
    let action := Text.trim r.action
    match ← scopeOf reader source (Text.trim r.condition) with
    | none => firmRules reader source m sources agents index rest covered g
    | some scope =>
      let states := match scope with
        | .everywhere => m.stateSet
        | .where_ _ states => states
      let targets := states.diff covered
      if targets.isEmpty then firmRules reader source m sources agents index rest covered g
      else
        let (g, emptied) ← firm g sources targets action index agents (rowsOf m)
        if !emptied.isEmpty then return .error (refusal scope targets emptied action)
        firmRules reader source m sources agents index rest (covered.union targets) g

def firmPlans (reader : Formula.Logic) (source : String) (m : Model) (sources : SourceNames)
    (agents : List Int) : Int → List Plan → Matrix → Outcome Pruned
  | _, [], g => .ok (.ok g)
  | index, p :: rest, g => do
    match ← firmRules reader source m sources agents index (← p.rules) [] g with
    | .error reason => return .error reason
    | .ok g => firmPlans reader source m sources agents (index + 1) rest g

def firmMatrix (reader : Formula.Logic) (source : String) (agents : List Int) (plans : List Plan) :
    Outcome Pruned := do
  let m ← Model.load .plain source
  let _ ← m.actions agents
  firmPlans reader source m (Model.sourceNames m.graph) agents 1 plans m.graph

def accepted : String := "Initial state s0: True"

def causeText (m : Model) (f : Fault) : String :=
  match f.message?, m.agents with
  | some t, _ => t
  | none, .text s => "invalid literal for int() with base 10: " ++ Text.quote s
  | none, _ => ""

def firmVerdict (reader : Formula.Logic) (source : String) (agents : List Int) (formula : String)
    (plans : List Plan) : Outcome (Bool × String) := do
  let m ← Model.load .plain source
  match ← firmMatrix reader source agents plans with
  | .error reason => return (false, reason)
  | .ok g =>
    match (do ({ m with graph := g } : Model).checkMoves (← m.agentCount) : Outcome Unit) with
    | .error f => return (false, "Pruned model invalid: " ++ causeText m f)
    | .ok _ =>
      let report ← Checker.Branching.check reader (← Model.withMatrix source (some g)) formula
      let verdict := report.initial?.getD ""
      if verdict = accepted then return (true, "")
      return (false, "Formula non soddisfatta nello stato iniziale: " ++ verdict)

/-! ## Lenient pruning -/

/-- Where a rule applies leniently and what it plays: everywhere idling, when its condition holds
nowhere; otherwise where it holds and the rule before it did not apply. -/
def lenientScope (m : Model) (isFirst : Bool) (before : Names) (value : Datum) (action : String) :
    Outcome (Names × String) := do
  if !value.truthy then return (m.stateSet, "I")
  let states ← namesOf value
  return (if isFirst then states else states.diff before, action)

def lenientRules (reader : Formula.Logic) (source : String) (m : Model) (admits : Outcome Bool)
    (agents : List Int) (index : Int) :
    Bool → Strategy → Names → Matrix → Option Bool → Outcome (Matrix × Option Bool)
  | _, [], _, g, flag => .ok (g, flag)
  | isFirst, r :: rest, before, g, _ => do
    let report ← Checker.Branching.check reader source r.condition
    let value ← resultValue report.result
    if ← admits then
      let (states, action) ← lenientScope m isFirst before value r.action
      let g ← lenient g (Model.sourceNames m.graph) states action index agents
      lenientRules reader source m admits agents index false rest states g (some true)
    else lenientRules reader source m admits agents index false rest before g (some false)

/-- Applies the rules of the agents from the `index`-th on leniently; answers also whether the last
rule was admitted, if there was one. -/
def lenientPlans (reader : Formula.Logic) (source : String) (m : Model) (admits : Outcome Bool)
    (agents : List Int) :
    Int → List Plan → Matrix → Option Bool → Outcome (Matrix × Option Bool)
  | _, [], g, flag => .ok (g, flag)
  | index, p :: rest, g, flag => do
    let (g, flag) ← lenientRules reader source m admits agents index true (← p.rules) [] g flag
    lenientPlans reader source m admits agents (index + 1) rest g flag

def lenientMatrix (reader : Formula.Logic) (source : String) (agents : List Int)
    (plans : List Plan) : Outcome Matrix := do
  let m ← Model.load .plain source
  let _ ← m.actions agents
  return (← lenientPlans reader source m (.ok true) agents 1 plans m.graph none).1

def lenientVerdict (reader : Formula.Logic) (source : String) (agents : List Int) (formula : String)
    (plans : List Plan) : Outcome Bool := do
  let m ← Model.load .plain source
  let g ← lenientMatrix reader source agents plans
  ({ m with graph := g } : Model).checkMoves (← m.agentCount)
  let report ← Checker.Branching.check reader (← Model.withMatrix source (some g)) formula
  return report.initial? = some accepted

/-! ## Lenient pruning within the resource -/

/-- The matrix of a model after lenient pruning by strategies within the resource, and whether the
last rule was admitted. -/
def gradedMatrix (reader : Formula.Logic) (source : String) (agents : List Int)
    (plans : List Plan) : Outcome (Matrix × Bool) := do
  let m ← Model.load .plain source
  let _ ← m.actions agents
  let admits := m.affordable (plans.map (·.getD []))
  let (g, flag) ← lenientPlans reader source m admits agents 1 plans m.graph none
  return (g, ← orFault .unset flag)

structure Graded (α : Type) where
  holds : Bool
  degrees : Fuzzy.Valuation α
  structure_ : Fuzzy.Kripke α

/-- The degrees of a formula in the leniently pruned model, and whether it has degree one in the
initial state; none when the strategies are not within the resource. -/
def gradedVerdict {α : Type} [Fuzzy.Degree α] (reader : Formula.Logic) (source : String)
    (agents : List Int) (formula : String) (plans : List Plan) : Outcome (Option (Graded α)) := do
  let m ← Model.load .plain source
  let (g, flag) ← gradedMatrix reader source agents plans
  if !flag then return none
  ({ m with graph := g } : Model).checkMoves (← m.agentCount)
  let (degrees, k) : Fuzzy.Valuation α × Fuzzy.Kripke α ←
    Fuzzy.Branching.check (← Model.withMatrix source (some g)) formula
  let degree ← degrees.get k.initial
  return some ⟨Fuzzy.Degree.same degree Fuzzy.Degree.one, degrees, k⟩

end Pruning

end Arena.Natural
