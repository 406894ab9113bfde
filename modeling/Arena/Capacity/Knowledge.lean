/-
Knowledge about capacities. A belief is what an agent considers possible. A pointed knowledge is a
place with a belief of each agent; a pledge adds an action of a coalition.
-/
import Arena.Capacity.Assignment

namespace Arena.Capacity

inductive Belief where
  | one (a : Assignment)
  | many (assignments : List Assignment)
  deriving DecidableEq, Repr

namespace Belief

def ofList : List Assignment → Belief
  | [a] => one a
  | [] => one []
  | as => many as

def toList : Belief → List Assignment
  | one a => [a]
  | many as => as

/-- The sequences of letters or capacities that stand in a belief: for one assignment those of its
capacities. -/
def entries : Belief → List (List String)
  | one a => a.map Place.lettersOf
  | many as => as

def within : Belief → Belief → Bool
  | one a, one b => a.all b.contains
  | many as, many bs => as.all bs.contains
  | one a, many _ => a.isEmpty
  | many as, one _ => as.isEmpty

end Belief

def isText : Datum → Bool
  | .text _ => true
  | _ => false

instance : ToDatum Belief := ⟨fun | .one a => toDatum a | .many as => toDatum as⟩
instance : OfDatum Belief :=
  ⟨fun d => if d.elements.all isText then .one (ofDatum d) else .many (ofDatum d)⟩

/-- The agents of a knowledge, as numbers or as a text. -/
inductive Agents where
  | numbers (ns : List Int)
  | text (s : String)
  deriving DecidableEq, Repr

instance : OfDatum Agents := ⟨fun | .text s => .text s | d => .numbers (ofDatum d)⟩

structure Pointed where
  place : Place
  beliefs : List Belief
  agents : Agents := .numbers []
  deriving DecidableEq, Repr

namespace Pointed

def sameAs (a b : Pointed) : Bool := a.place = b.place && a.beliefs = b.beliefs

def notIn (a : Pointed) (xs : List Pointed) : Bool := xs.all fun x => !a.sameAs x

end Pointed

structure Pledge where
  place : Place
  beliefs : List Belief
  action : String
  coalition : String
  agents : Agents := .numbers []
  deriving DecidableEq, Repr

namespace Pledge

def sameAs (a b : Pledge) : Bool :=
  a.place = b.place && a.beliefs = b.beliefs && a.coalition = b.coalition && a.action = b.action

def notIn (a : Pledge) (xs : List Pledge) : Bool := xs.all fun x => !a.sameAs x

def beliefsOfAgents (a : Pledge) : Outcome (List Belief) := do
  let ns ← match a.agents with
    | .numbers ns => pure ns
    | .text s => (Text.split "," s).mapM fun w => orFault .value (Text.readInt? w)
  ns.mapM fun n => nth a.beliefs (n - 1)

end Pledge

instance : ToDatum Pointed := ⟨fun p => toDatum ("pk", p.place, p.beliefs)⟩
instance : ToDatum Pledge := ⟨fun w =>
  .list [.text "pkY", toDatum w.place, toDatum w.beliefs, .text w.action, .text w.coalition]⟩
instance : OfDatum Pointed := ⟨fun d =>
  let x := (d.get? "pk").getD .null
  ⟨ofDatum (x.item 0), ofDatum (x.item 1), ofDatum (x.item 2)⟩⟩
instance : OfDatum Pledge := ⟨fun d =>
  let x := (d.get? "pkY").getD .null
  ⟨ofDatum (x.item 0), ofDatum (x.item 1), ofDatum (x.item 2), ofDatum (x.item 3),
    ofDatum (x.item 4)⟩⟩

/-! ## Sets of pointed knowledge -/

def outside (part whole : List Pointed) : List Pointed := whole.filter (·.notIn part)

def meet {α : Type} (notIn : α → List α → Bool) (xs ys : List α) : List α :=
  xs.filter fun x => !notIn x ys

def inside {α : Type} (notIn : α → List α → Bool) (xs ys : List α) : Bool :=
  xs.length ≤ ys.length && xs.all fun x => !notIn x ys

def beliefs (m : Model) : Outcome (List Belief) := do
  return (parts (← assignmentSet m)).map Belief.ofList

def commonEntries (xs : List (List (List String))) : List (List String) :=
  if xs.length < 2 then [] else (common xs).toOption.getD []

def allAgents (m : Model) : Outcome (List Int) := do
  return (List.range (← m.agentCount).toNat).map fun (i : Nat) => (i : Int) + 1

def pointedKnowledge (m : Model) : Outcome (List Pointed) := do
  let all ← beliefs m
  let n ← m.agentCount
  let tuples := (sequences all n.toNat).filter fun bs => !(commonEntries (bs.map (·.entries))).isEmpty
  let agents ← allAgents m
  return m.states.flatMap fun s => tuples.map fun bs =>
    ⟨.letters (Place.lettersOf s), bs, .numbers agents⟩

def pledges (m : Model) (coalition : String) : Outcome (List Pledge) := do
  let pointed ← pointedKnowledge m
  let found ← pointed.mapM fun p => do
    let actions ← actionsAt m coalition p.place
    return (actions.getD []).map fun a => ⟨p.place, p.beliefs, a, coalition, p.agents⟩
  return found.flatten

def actionsIn (p : Pointed) (ws : List Pledge) : List String :=
  (ws.filter fun w => w.beliefs = p.beliefs && w.place = p.place).map (·.action)

def pointedOf (m : Model) (ws : List Pledge) : Outcome (List Pointed) := do
  return (← pointedKnowledge m).filter fun p => !(actionsIn p ws).isEmpty

abbrev Key := Place × List Belief

def keyOf (d : Datum) : Key :=
  match d.get? "pkY" with
  | some _ =>
    let w : Pledge := ofDatum d
    (w.place, w.beliefs)
  | none =>
    let p : Pointed := ofDatum d
    (p.place, p.beliefs)

def pledgesOf (m : Model) (keys : List Key) (coalition : String) : Outcome (List Pledge) := do
  return (← pledges m coalition).filter fun w => keys.contains (w.place, w.beliefs)

def pledgesAllowed (m : Model) (ws : List Pledge) (agents capacities : String) :
    Outcome (List Pledge) := do
  let agents := Text.split "," agents
  let capacities := Text.split "," capacities
  ws.filterM fun w => do
    let letters := Place.lettersOf w.action
    let hits ← (letters.zip (List.range letters.length)).mapM fun (letter, i) => do
      let agent ← orFault .value (Text.readInt? (← nth agents i))
      let able ← ofAgentAllowing m agent letter
      return able.contains (← nth capacities i)
    return hits.all id

/-! ## Successors -/

/-- The joint actions between two places in which an agent plays the same letter as in a given one;
none when the given one does not lead there. -/
def sameLetter (m : Model) (q r : Place) (move : Move) (agent : Int) :
    Outcome (Option (List Move)) :=
  match indexOf? m q, indexOf? m r with
  | some i, some j => do
    let cell ← nth (← nth m.graph i) j
    if !Text.contains cell.write move then return none
    match cell with
    | .num _ => .error .member
    | .text s =>
      let found ← (← m.movesOf s).filterM fun other => do
        return (← letterAt other (agent - 1)) = (← letterAt move (agent - 1))
      return some found
  | _, _ => .ok none

def learned (m : Model) (q r : Place) (move : Move) (agent : Int) :
    Outcome (Option (List Assignment)) := do
  let moves ← sameLetter m q r move agent
  let agents ← allAgents m
  match moves with
  | none => return none
  | some moves => return some (← moves.mapM fun mv => forMove m mv agents).flatten

def revised (m : Model) (w : Pledge) (r : Place) (move : Move) (agent : Int) :
    Outcome (List Assignment) := do
  match ← learned m w.place r move agent with
  | none => return []
  | some new =>
    let old ← nth w.beliefs (agent - 1)
    match old with
    | .one [] => .error .position
    | .many [] => .error .position
    | b => return b.toList.filter new.contains

def fitting (m : Model) (w : Pledge) (cell : String) : Outcome (List Move) := do
  (← m.movesOf cell).filterM fun move => do
    let members := visited (← Coalition.positions (Coalition.names w.coalition))
    let same ← (members.zip (List.range members.length)).mapM fun (j, i) => do
      return (← letterAt move j) = (← letterAt w.action i)
    return same.all id

def successors (m : Model) (w : Pledge) : Outcome (Option (List Pointed)) := do
  let _ ← coalitionChoices m w.coalition
  match indexOf? m w.place with
  | none => return none
  | some i =>
    let row ← nth m.graph i
    let cells := (row.zip (List.range row.length)).filter fun (c, _) => !c.isZero
    let reached ← cells.mapM fun (c, j) => do return (j, ← fitting m w c.write)
    let agents ← allAgents m
    let steps := reached.flatMap fun (j, moves) => moves.map (j, ·)
    let found ← steps.foldlM (fun found (j, move) => do
      let target ← m.stateAt j
      let new ← agents.mapM fun a => revised m w (.name target) move a
      let shared ← common new
      let p : Pointed := ⟨.name target, new.map Belief.ofList, .numbers agents⟩
      return if !shared.isEmpty && p.notIn found then found ++ [p] else found) []
    return some found

/-! ## Conditions on successors -/

def byPlace : List Pointed → List (Place × List Pointed)
  | [] => []
  | p :: rest => addTo p (byPlace rest)
where
  addTo (p : Pointed) (groups : List (Place × List Pointed)) : List (Place × List Pointed) :=
    (p.place, p :: ((groups.find? fun g => g.1 = p.place).map (·.2)).getD [])
      :: groups.filter fun g => g.1 ≠ p.place

/-- The action of a pledge whose place is that of a pointed knowledge and whose beliefs hold all that
stands in its beliefs. -/
def actionFor (p : Pointed) (w : Pledge) : Outcome (Option String) := do
  if p.place.spelled ≠ w.place then return none
  let rec check : Nat → List Belief → Outcome Bool
    | _, [] => .ok true
    | i, b :: rest => do
      let other ← if b.toList.isEmpty || b = .one [] then pure b else nth w.beliefs i
      if b.within other then check (i + 1) rest else return false
  return if ← check 0 p.beliefs then some w.action else none

def actionsFor (p : Pointed) (ws : List Pledge) : Outcome (List String) := do
  return (← ws.mapM (actionFor p)).filterMap id

def actionsForAll (ps : List Pointed) (ws : List Pledge) : Outcome (List String) := do
  return Text.distinct (← ps.mapM fun p => actionsFor p ws).flatten

def isUniform (ps : List Pointed) (ws : List Pledge) : Outcome Bool := do
  let counts ← (byPlace ps).mapM fun (_, group) => do return (← actionsForAll group ws).length
  return counts.all (· == 1)

/-- The pledges at the place of a pointed knowledge whose beliefs are all among its beliefs; none if
there are none. -/
def pledgesAt? (p : Pointed) (ws : List Pledge) : Option (List Pledge) :=
  let found := ws.filter fun w => w.beliefs.all p.beliefs.contains && w.place = p.place
  if found.isEmpty then none else some found

def allIn (ps : List Pointed) (keys : List Key) : Bool :=
  !ps.isEmpty && ps.all fun p => keys.contains (p.place.spelled, p.beliefs)

/-- The pledges of a coalition all of whose successors are among given ones. What it is computed from
has no meaning where it is computed. -/
def controllable (_ : Model) (_ : List Pledge) (_ : String) : Outcome (List Pledge) := .error .name

/-- The joint actions that some assignments allow. They have no meaning where they are computed. -/
def movesAllowed (as : List Assignment) : Outcome (List Move) :=
  if as.isEmpty then .ok [] else .error .name

end Arena.Capacity
