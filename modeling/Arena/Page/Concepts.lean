/-
The pages on solution concepts: agents are put into a coalition, strategies are typed or drawn, and
the coalition is asked for a sure win or the strategies for being an equilibrium.
-/
import Arena.Natural.Equilibrium
import Arena.Natural.Typed
import Arena.Page.Basic

namespace Arena.Page.Concepts

open Natural

def concepts : List String := ["Is Not Nash", "Sure Win", "Exists Nash"]

def askConcept : Page Datum := chooseText "Select your Solution Concept" concepts

def askRules (agents : List Datum) : Page (List (Datum × Datum)) :=
  agents.mapM fun a => do
    let name := a.display
    let typed ← askLines s!"Inserisci le coppie condizione,azione per l'agente {name}:"
    return (a, typed)

/-- Reads the typed rules, and shows why some are refused; answers whether none is. -/
def readRules (limits : Datum → Typed.Limits) (typed : List (Datum × Datum)) :
    Page (Bool × List (Datum × Strategy)) := do
  let found ← typed.mapM fun (a, input) => do
    let (refusals, s) := Typed.read (limits a) a.display (← orFault .member input.text?)
    refusals.forM fun why => notice .failure [.text why]
    return (refusals.isEmpty, a, s)
  return (found.all (·.1), found.map (·.2))

/-! ## Typing strategies -/

def typing (agents : List Datum) (bound : Int) (props : List String) : Page Datum := do
  if (← askConcept) != .text "Is Not Nash" then
    notice .info [.text "Funzionalità non implementata per questa opzione."]
    return .null
  notice .info [.text ("Per ciascun agente, inserisci coppie condizione,azione " ++
    "(una per riga, formato: condizione,azione)")]
  let typed ← askRules agents
  if !(← pressed "Salva Strategie Naturali") then return .null
  let (clean, strategies) ← readRules (fun _ => ⟨bound, props, none⟩) typed
  let d := Datum.dict (strategies.foldl (fun es (a, s) => Datum.putEntry es a (strategyDatum s)) [])
  if clean then
    notice .success [.text "Strategie naturali inserite correttamente:"]
    tell d
  return d

/-! ## The game -/

structure Game where
  source : String
  formula : Datum
  bound : Int
  agents : List Int
  actions : List (String × List String)
  props : List String

def Game.actionsOf (g : Game) (agent : String) : List String :=
  (g.actions.lookup ("agent" ++ agent)).getD []

def keep (d : Datum) : Page Unit := change ({ · with strategies? := some d })

def askStrategies (g : Game) : Page Unit := do
  notice .info [.text ("Per ciascun agente selezionato, inserisci le coppie condizione-azione, " ++
    "una per riga, seguendo il formato: condizione,azione")]
  let typed ← askRules (g.agents.map .int)
  if ← pressed "Salva Strategie Naturali Manuali" then
    let (clean, strategies) ← readRules (fun a => ⟨g.bound, g.props, some (g.actionsOf a.display)⟩) typed
    if clean then
      let d := profileDatum (strategies.map (·.2))
      notice .success [.text ("Strategie naturali inserite correttamente: " ++ d.print)]
      tell d
      keep d
  if ← pressed "Genera Strategia Naturale Randomica" then
    match ← drawn (Equilibrium.drawnProfile g.agents g.bound g.actions g.props) with
    | some p =>
      notice .success [.text "Strategia naturale generata randomicamente:"]
      tell (profileDatum p)
      keep (profileDatum p)
    | none => notice .failure [.text
        "Non è stato possibile generare una strategia valida. Riprova con altri parametri."]

/-- Whether the strategies of the session are an equilibrium. A decisive deviation takes its place
among them. -/
def isEquilibrium (g : Game) (formula : String) : Page (Option Finding) := do
  let given : Option (List Plan) := ofDatum (((← get).session.strategies?).getD .null)
  let e ← drawn
    (Equilibrium.isEquilibrium (← get).reader g.source formula g.bound given g.agents)
  if e.plans? ≠ given then keep (toDatum (e.plans?.map plansDatum))
  e.finding

def examine (g : Game) (concept : Datum) : Page Unit := do
  let formula ← g.formula.asText
  if concept == .text "Is Not Nash" then tell (← isEquilibrium g formula)
  else if concept == .text "Sure Win" || concept == .text "Exists Nash" then
    tell (← drawn (Equilibrium.sureWin (← get).reader g.source formula g.bound g.agents))
  else throw (.fault .unset)

def askCoalition (count : Int) : Page (List Int) := do
  let chosen ← (List.range count.toNat).mapM fun i => do
    let answer ← chooseText
      s!"Do you want agent-{i + 1} inside your game's strategy coalition?" ["No", "Yes"]
    return if answer == .text "Yes" then [((i + 1 : Nat) : Int)] else []
  return chosen.flatten

def main : Page Unit := do
  let model ← chooseModel
  let logic ← chooseText "Select your logic" ["LTL"]
  let formula ← askText "Write your formula for your agents" " "
  let bound ← (← chooseText "Insert Complexity upper bound of your game"
    ["1", "2", "3", "4", "5", "6", "7", "8"]).asInt
  let concept ← askConcept
  let (_, source) ← orFault .shape model
  let m ← Model.load .plain source
  let agents ← askCoalition (← m.agentCount)
  tellWith "Agenti selezionati:" agents
  let actions ← m.actions agents
  tellWith "List of valid atomic propositions:" m.props
  tellWith "List of valid agents' actions:" (tableDatum actions)
  let g : Game := ⟨source, formula, bound, agents, actions, m.props⟩
  if concept == .text "Is Not Nash" then askStrategies g else keep .null
  if ← pressed "Next : To Model Checking" then
    if logic == .text "LTL" then examine g concept
    tell "Execution time:"
    let e : Entry := .given (.list [logic, formula])
    change fun s => { s with entries? := some (s.entries?.getD [] ++ [e]) }
    goTo 7

end Arena.Page.Concepts
