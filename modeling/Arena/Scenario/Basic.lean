/-
Scenarios: documents that describe models with long names. A scenario is turned into the text of a
model in which every agent may idle in every state; its formula then speaks about numbered agents
and one-letter propositions.
-/
import Arena.Data.Document.Reader
import Arena.Scenario.Code

namespace Arena.Scenario

open Text

def inputOf (d : Datum) : Datum := (d.get? "input").getD d

def formulaOf (d : Datum) : String := trim ((d.get? "formula_natatl").getD (.text "")).display

def labellingOf (d : Datum) : Datum := (d.get? "labeling").getD (.dict [])

/-! ## Transitions -/

structure Link where
  source : Datum
  target : Datum
  move : String

def linkOf (agents : List String) (codes : Codes) (d : Datum) : Outcome Link := do
  let source ← d.part "from"
  let target ← d.part "to"
  let joint ← (← d.part "joint").members
  let letters ← (agents.zip joint).mapM fun (a, x) => orFault .key (codes.find? a x)
  return ⟨source, target, String.join letters⟩

/-- The joint actions from one state to another; from a state to itself all agents may idle. -/
def movesBetween (links : List Link) (agents : Nat) (p q : String) : List String :=
  let found := (links.filter fun l => l.source == .text p && l.target == .text q).map (·.move)
  distinct (if p = q then found ++ [repeated "I" agents] else found)

def rowOf (links : List Link) (agents : Nat) (states : List String) (p : String) : String :=
  join " " (states.map fun q =>
    match movesBetween links agents p q with
    | [] => "0"
    | moves => join "," moves)

/-! ## Models -/

structure Conversion where
  codes : Codes
  symbols : Symbols
  formula? : Option String
  text : String

def unknownSection : List String :=
  ["Unkown_Transition_by", "0 0 0 0 0 0 0 0", "0 0 t1 0 0 0 0 0", "0 0 0 c 0 0 0 0", "0 0 0 0 0 0 0 0",
   "0 0 0 0 0 t1 0 0", "0 0 0 0 0 0 0 0", "0 0 0 0 0 0 0 0", "0 0 0 0 0 0 0 0"]

def shortFormula (d : Datum) (symbols : Symbols) (agents : List String) : Outcome String := do
  return compact (← numberCoalition (shorten symbols (formulaOf d)) agents)

def convert (wantsFormula : Bool) (document : Datum) : Outcome Conversion := do
  let d := inputOf document
  let states ← d.part "states"
  let agents ← d.part "agents"
  let actions ← d.part "actions"
  let transitions ← d.part "transitions"
  let initial ← d.part "initial_state"
  let agents ← agents.asNames
  let codes ← codesOf agents actions
  let links ← (← transitions.members).mapM (linkOf agents codes)
  let states ← states.asNames
  let symbols ← symbolsOf states (labellingOf d)
  let labels ← states.mapM fun q => do
    let here ← labelsOf (labellingOf d) q
    return join " " (symbols.map fun (p, _) => if here.contains (.text p) then "1" else "0")
  let formula? ← if wantsFormula then some <$> shortFormula d symbols agents else pure none
  let initial ← match initial with
    | .text s => .ok s
    | _ => .error .shape
  let text := ["Transition"] ++ states.map (rowOf links agents.length states) ++ unknownSection ++
    ["Name_State", join " " states, "Initial_State", initial, "Atomic_propositions",
     join " " (symbols.map (·.2)), "Labelling"] ++ labels ++
    ["Number_of_agents", toString agents.length]
  return ⟨codes, symbols, formula?, join "\n" text ++ "\n"⟩

def Conversion.namesDatum (c : Conversion) : Datum :=
  .record [("action_code_map", codesDatum c.codes), ("ap_symbol_map", tableDatum c.symbols),
    ("aps_order", .names (c.symbols.map (·.1)))]

end Arena.Scenario
