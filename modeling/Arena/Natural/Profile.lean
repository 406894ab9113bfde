/-
Strategy profiles: one natural strategy per agent, which is a list of rules with different actions
and guards of a given total complexity. Profiles are examined one after the other until one is
accepted.
-/
import Arena.Model.Budget
import Arena.Natural.Guard

namespace Arena.Natural

abbrev Profile := List Strategy

abbrev RuleTable := List (String × List Rule)

def strategyDatum (s : Strategy) : Datum :=
  .record [("condition_action_pairs", toDatum s)]

def profileDatum (p : Profile) : Datum := .list (p.map strategyDatum)

/-! ## Rules -/

def rules (guards actions : List String) : List Rule :=
  guards.flatMap fun g => actions.map fun a => ⟨g, a⟩

def agentName (i : Nat) : String := "actions_agent" ++ toString i

def ruleTable (actions : List (List String)) (guards : List String) : RuleTable :=
  (actions.zip (List.range actions.length)).map fun (as, i) => (agentName (i + 1), rules guards as)

def extendTable (t more : RuleTable) : RuleTable :=
  more.foldl (fun t (name, rs) =>
    if t.any (·.1 == name) then t.map fun e => if e.1 == name then (e.1, e.2 ++ rs) else e
    else t ++ [(name, rs)]) t

/-- The rules without recall up to a complexity. The guards are drawn once for each of the named
agents, and each drawing adds rules for all agents. -/
def memorylessRules (bound : Int) (names : List String) (actions : List (List String))
    (props : List String) : Drawing RuleTable :=
  names.foldlM (fun t _ => do
    let guards ← Guard.conditions props ["and", "or"] bound
    return guards.foldl (fun t g =>
      extendTable t (ruleTable actions (g :: Guard.negated [g] bound))) t) []

/-! ## Strategies -/

/-- The choices of `n` rules with pairwise different actions, in the order of the rules. -/
def choices : Nat → List Rule → List Strategy
  | 0, _ => [[]]
  | _ + 1, [] => []
  | n + 1, r :: rest =>
    ((choices n rest).filter fun s => s.all (·.action ≠ r.action)).map (r :: ·) ++ choices (n + 1) rest

def strategies (cost : String → Nat) (bound : Int) (rules : List Rule) : List Strategy :=
  (List.range bound.toNat).flatMap fun n => (choices (n + 1) rules).filter fun s =>
    (s.map fun r => (cost r.condition : Int)).foldl (· + ·) 0 = bound

def addAt (i : Nat) (s : Strategy) (found : List (List Strategy)) : Outcome (List (List Strategy)) :=
  if i < found.length then .ok (found.modify i (· ++ [s])) else .error .position

def isKnown (i : Nat) (s : Strategy) (found : List (List Strategy)) : Outcome Bool :=
  match found[i]? with
  | some ss => .ok (ss.contains s)
  | none => .error .position

def addAll (i : Nat) : List Strategy → List (List Strategy) →
    Outcome (List (List Strategy) × List (List (List Strategy)))
  | [], found => .ok (found, [])
  | s :: rest, found => do
    if ← isKnown i s found then addAll i rest found
    else
      let found ← addAt i s found
      let (last, stages) ← addAll i rest found
      return (last, found :: stages)

def stagesFrom (cost : String → Nat) (bound : Int) : Nat → RuleTable → List (List Strategy) →
    Outcome (List (List Strategy) × List (List (List Strategy)))
  | _, [], found => .ok (found, [])
  | i, (_, rs) :: rest, found => do
    let (found, here) ← addAll i (strategies cost bound rs) found
    let (last, later) ← stagesFrom cost bound (i + 1) rest found
    return (last, here ++ later)

def profiles : List (List Strategy) → List Profile
  | [] => [[]]
  | ss :: rest => ss.flatMap fun s => (profiles rest).map (s :: ·)

def settledProfiles (bound : Int) (agents : Nat) (table : RuleTable) : Outcome (List Profile) := do
  let (found, _) ← stagesFrom Guard.storyComplexity bound 0 table (List.replicate agents [])
  return profiles found

def emergingProfiles (bound : Int) (agents : Nat) (table : RuleTable) : Outcome (List Profile) := do
  let (_, stages) ← stagesFrom Guard.complexity bound 0 table (List.replicate agents [])
  return stages.flatMap profiles

/-! ## Lists of strategies -/

/-- Whether something is among things of which some may be missing. What is missing is passed over, or
is a fault if the comparison is strict. -/
def isAmong {α : Type} [BEq α] (strict : Bool) : List (Option α) → Option α → Outcome Bool
  | [], _ => .ok false
  | none :: rest, new => if strict then .error .key else isAmong strict rest new
  | some _ :: _, none => .error .key
  | some old :: rest, some new => if old == new then .ok true else isAmong strict rest (some new)

def pairs {α : Type} (xs : List α) : List (α × α) := xs.flatMap fun x => xs.map fun y => (x, y)

/-! ## Search -/

def examine {μ : Type → Type} [Monad μ] {α : Type} (test : Profile → μ (Option α)) :
    List (List Strategy) → Profile → μ (Option α)
  | [], chosen => test chosen.reverse
  | ss :: rest, chosen => go ss rest chosen
where
  go (ss : List Strategy) (rest : List (List Strategy)) (chosen : Profile) : μ (Option α) :=
    match ss with
    | [] => pure none
    | s :: more => do
      match ← examine test rest (s :: chosen) with
      | some a => pure (some a)
      | none => go more rest chosen

def examineStages {μ : Type → Type} [Monad μ] {α : Type} (test : Profile → μ (Option α)) :
    List (List (List Strategy)) → μ (Option α)
  | [] => pure none
  | stage :: rest => do
    match ← examine test stage [] with
    | some a => pure (some a)
    | none => examineStages test rest

end Arena.Natural
