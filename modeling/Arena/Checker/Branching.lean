/-
Branching-time formulas (CTL). The temporal operators are least and greatest fixpoints of the set of
states with a transition into a set.
-/
import Arena.Checker.Basic

namespace Arena.Checker.Branching

abbrev Edges := List (String × String)

/-! ## Predecessors -/

def somePre (edges : Edges) (s : Names) : Names :=
  Names.ofList ((edges.filter fun e => s.contains e.2).map (·.1))

def allPre (edges : Edges) (states : List String) (s : Names) : Names :=
  Names.ofList (states.filter fun q => edges.all fun e => e.1 ≠ q || s.contains e.2)

/-- The greatest set of states in the second set that are in the first set or whose transitions all
stay in the set. -/
def release (edges : Edges) (states : List String) (phi psi : Names) : Names :=
  let step (t : Names) : Names :=
    (Names.ofList states).filter fun q => psi.contains q &&
      (phi.contains q || edges.all fun e => e.1 ≠ q || t.contains e.2)
  stable step (states.length + psi.length + 2) psi

/-! ## Operators -/

inductive Unary where
  | not
  | someNext | everyNext
  | someEventually | everyEventually
  | someGlobally | everyGlobally
  deriving DecidableEq, Repr

inductive Binary where
  | or | and | implies | someUntil | everyUntil
  deriving DecidableEq, Repr

def Unary.of? (s : String) : Option Unary :=
  let ks := kindsIn .ctl s
  let both (a b : Formula.TokenKind) : Bool := ks.contains a && ks.contains b
  if ks.contains .not then some not
  else if both .somePath .next then some someNext
  else if both .everyPath .next then some everyNext
  else if both .somePath .eventually then some someEventually
  else if both .everyPath .eventually then some everyEventually
  else if both .somePath .globally then some someGlobally
  else if both .everyPath .globally then some everyGlobally
  else none

def Binary.of? (s : String) : Option Binary :=
  let ks := kindsIn .ctl s
  if ks.contains .or then some or
  else if ks.contains .and then some and
  else if ks.contains .implies then some implies
  else if ks.contains .somePath && ks.contains .untl then some someUntil
  else if ks.contains .everyPath && ks.contains .untl then some everyUntil
  else none

def reaching (states : List String) (edges : Edges) (s : Names) : Names :=
  stable (fun t => t.union (somePre edges t)) (states.length + s.length + 2) s

def staying (states : List String) (edges : Edges) (s : Names) : Names :=
  stable (fun t => s.inter (somePre edges t)) (states.length + s.length + 2) (Names.ofList states)

def through (states : List String) (edges : Edges) (phi psi : Names) : Names :=
  stable (fun t => t.union (phi.inter (somePre edges t))) (states.length + psi.length + 2) psi

def Unary.apply (m : Model) (op : Unary) (s : Names) : Outcome Names := do
  let all := m.stateSet
  match op with
  | not => return all.diff s
  | someNext => return somePre (← m.edges) s
  | everyNext => return allPre (← m.edges) m.states s
  | someEventually => return reaching m.states (← m.edges) s
  | everyEventually => return all.diff (staying m.states (← m.edges) (all.diff s))
  | someGlobally => return staying m.states (← m.edges) s
  | everyGlobally => return all.diff (reaching m.states (← m.edges) (all.diff s))

def Binary.apply (m : Model) (op : Binary) (s t : Names) : Outcome Names := do
  let all := m.stateSet
  match op with
  | or => return s.union t
  | and => return s.inter t
  | implies => return (all.diff s).union t
  | someUntil => return through m.states (← m.edges) s t
  | everyUntil =>
    let phi := all.diff s
    let psi := all.diff t
    return all.diff (through m.states (← m.edges) (phi.inter psi) psi)

/-! ## Checking -/

def one (m : Model) (label : String) (arg : Option String) : Outcome String :=
  match Unary.of? label with
  | none => .ok label
  | some op => do return (← op.apply m (← argument arg)).print

def two (m : Model) (label left right : String) : Outcome String :=
  match Binary.of? label with
  | none => .ok label
  | some op => do
    let s ← Names.read left
    let t ← Names.read right
    return (← op.apply m s t).print

def ground (m : Model) (f : Formula) : Outcome (Option Tree) := Tree.ground (atomText m) f

def solve (m : Model) (t : Tree) : Outcome String := t.solve (one m) (two m)

def checkModel (reader : Formula.Logic) (m : Model) (formula : String) : Outcome Report := do
  match ← Formula.parse reader .ctl .missing formula with
  | none => return .message "Errore di sintassi nella formula"
  | some f =>
    match ← ground m f with
    | none => return .message "Errore di sintassi: l'atomo non esiste"
    | some t => return .solved m (← solve m t)

def check (reader : Formula.Logic) (source formula : String) : Outcome Report := do
  if isBlankFormula formula then return .message "Error: formula non inserita"
  checkModel reader (← Model.load .plain source) formula

end Arena.Checker.Branching
