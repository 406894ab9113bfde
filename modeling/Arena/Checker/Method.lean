/-
The checkers side by side. A method checks a formula against a model text and answers a report. Only
the obstruction checker reads the model before it looks whether the formula is blank. The checker
with joint prices remembers what it has solved. `Report.value` reads the text of a result back.
-/
import Arena.Capacity.Checker
import Arena.Checker.Bounded
import Arena.Checker.Branching
import Arena.Checker.CoalitionObstruction
import Arena.Fuzzy.Alternating

namespace Arena.Checker

inductive Method where
  | branching
  | alternating
  | graded
  | obstruction
  | coalitionObstruction
  | jointPrices
  | pricesPerAgent
  | capacity
  deriving DecidableEq, Repr

/-- A check that may remember what it has solved. -/
abbrev Check (α : Type) := ExceptT Fault (StateM Bounded.Memory) α

/-- Checks a formula against a model text. There may be no text, but a blank formula does not need
one. -/
def Method.check (method : Method) (reader : Formula.Logic) (source : Outcome String)
    (formula : String) : Check Report := do
  let text ← if isBlankFormula formula && method ≠ .obstruction then pure "" else liftExcept source
  match method with
  | .branching => liftExcept (Branching.check reader text formula)
  | .alternating => liftExcept (Alternating.check reader text formula)
  | .graded => liftExcept (Fuzzy.Alternating.check Fuzzy.Number reader text formula)
  | .obstruction => liftExcept (Obstruction.check reader text formula)
  | .coalitionObstruction => liftExcept (CoalitionObstruction.check reader text formula)
  | .jointPrices => Bounded.checkWith .joint reader text formula
  | .pricesPerAgent => liftExcept (Bounded.check .perAgent reader text formula)
  | .capacity => liftExcept (Capacity.check reader text formula)
where
  liftExcept {α : Type} (x : Outcome α) : Check α := ExceptT.mk (pure x)

namespace Report

inductive Value where
  | states (set : Datum)
  | degrees (list : Datum)
  /-- A solved formula whose text denotes neither. -/
  | other (text : String)
  /-- A text that is no result of a solved formula. -/
  | message (text : String)

def setOr (default : Value) : Outcome Datum → Value
  | .ok d => .states d.toSet
  | .error _ => default

def value (s : String) : Value :=
  if Text.startsWith s "Result: " then
    let x := Text.slice s 8 s.length
    if Text.startsWith x "\x7b" || x = "set()" then setOr (.other x) (Names.readDatum x)
    else if Text.startsWith x "[" then
      match Expression.read x with
      | .ok d => .degrees d
      | .error _ => .other x
    else .other x
  else if Text.startsWith s "[" || Text.startsWith s "\x7b" then setOr (.message s) (Expression.read s)
  else .message s

end Report

end Arena.Checker
