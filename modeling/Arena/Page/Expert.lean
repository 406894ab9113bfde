/-
The page for experts: a model, a logic and a formula are chosen, and the checker's report is shown.
-/
import Arena.Natural.Quantified
import Arena.Page.Basic

namespace Arena.Page.Expert

open Natural

def logics : List String :=
  ["ATL", "ATLF", "CTL", "CTLF", "LTL", "SL", "CapATL", "OL", "OATL", "Memoryless NatATL",
    "Recall NatATL", "Optimized Memoryless NatATL", "Optimized Recall NatATL",
    "Memoryless NatATL[F]", "Recall NatATL[F]", "Space-Efficient NatSL", "Time-Efficient NatSL",
    "RBATL", "RABATL"]

def report (method : Checker.Method) (source : Outcome String) (formula : String) : Page Unit := do
  let r ← check method source formula
  tell r.result
  if let some verdict := r.initial? then tell verdict

def wholeReport (method : Checker.Method) (source : Outcome String) (formula : String) :
    Page Unit := do
  let r ← check method source formula
  tell (Datum.record (("res", .text r.result) ::
    (r.initial?.map fun i => ("initial_state", Datum.text i)).toList))

def degrees (source formula : String) : Page Unit := do
  let (v, k) : _ × Fuzzy.Kripke Fuzzy.Number ← Fuzzy.Branching.check source formula
  let _ ← v.get k.initial
  tell (tableDatum v)

def search (find : Formula.Logic → String → String → Drawing Finding) (source formula : String) :
    Page Unit := do
  tell (← drawn (find (← get).reader source formula))

def filtered (find : Formula.Logic → String → String → Drawing Finding) (reader : Formula.Logic)
    (source formula : String) : Drawing Finding :=
  findFiltered reader source formula (find reader source formula)

def truth (b : Bool) : Datum := .record [("Satisfiability", .bool b)]

/-- Checks a formula that quantifies over strategies. From then on all formulas are read with its
lexicon. The formula is looked at before the model. -/
def quantified (verdict : String → Drawing Datum) (source : Outcome String) (formula : String) :
    Page Unit := do
  modify ({ · with reader := .natSL })
  let _ ← NatSL.separated formula
  tell (← drawn (verdict (← source)))

def checkFormula (logic : String) (source : Outcome String) (formula : String) : Page Unit :=
  match logic with
  | "ATL" => report .alternating source formula
  | "ATLF" => report .graded source formula
  | "CTL" => throw (.fault .shape)
  | "CTLF" => do degrees (← source) formula
  | "CapATL" => wholeReport .capacity source formula
  | "OL" => report .obstruction source formula
  | "OATL" => report .coalitionObstruction source formula
  | "RBATL" => report .jointPrices source formula
  | "RABATL" => report .pricesPerAgent source formula
  | "Memoryless NatATL" => throw (.fault .file)
  | "Recall NatATL" => do search Recall.find (← source) formula
  | "Optimized Memoryless NatATL" => do search (filtered findMemoryless) (← source) formula
  | "Optimized Recall NatATL" => do search (filtered Recall.find) (← source) formula
  | "Memoryless NatATL[F]" => do search findGraded (← source) formula
  | "Recall NatATL[F]" => do search Recall.findGraded (← source) formula
  | "Space-Efficient NatSL" => quantified (fun source => do
      return (← Quantified.alternated source formula).elim (.dict []) truth) source formula
  | "Time-Efficient NatSL" => quantified (fun source => do
      return truth (← Quantified.sequential source formula)) source formula
  | _ => pure ()

def main : Page Unit := do
  let model ← chooseModel
  let logic ← chooseText "Select your logic" logics
  let formula ← askText "Write your formula" " "
  if ← pressed "Next : To Model Checking" then
    let source := orFault .shape (model.map (·.2))
    checkFormula (ofDatum logic) source (← orFault .member formula.text?)
    tell "Execution time:"
    addEntry (.given (.list [logic, formula]))
    goTo 7

end Arena.Page.Expert
