/-
The causes for which a computation has no value. The wording of those that are reported with a text
is in `Fault.message?`.
-/
import Arena.Text.Pieces

namespace Arena

/-- Why a computation has no value. -/
inductive Fault where
  | position
  | key
  | value
  | overflow
  | division
  | shape
  | member
  | name
  | unset
  | expression
  | document
  | markup
  | file
  | stop
  | depth
  | endless
  | exhausted
  | coalition (agent bound : String)
  | unknownState (state : String) (states : List String)
  | noMatrix
  | emptyRow
  | emptyRowAt (row : Nat)
  | malformedMove (move : String) (row column length : Nat) (agents : Int)
  | noIdle
  | noInitialMove
  | forest (state : Nat)
  | agentRange
  | unpricedAction (action : String) (agent : String)
  | noBranchingFormula
  | noFormula
  | noPrefix (formula : String)
  | noCoalition (formula : String)
  | noBound (formula : String)
  | unmappedNames (names : List String)
  | unmappedAgent (agent : String) (agents : String)
  | unknownAgent (agent : String) (agents : String)
  | noActionCode
  | noSymbol
  | noClosingBrace
  | unsupportedModel (kind : String)
  | unboundVariable (binder : String)
  | unboundUniversal (binder : String)
  | unreadStrategic
  | unknownOperator (operator : String)
  | expected (token got : String)
  | fewRows (needed found : Nat)
  | rowWidth (row found needed : Nat)
  | labelRows (needed found : Nat)
  | labelWidth (row found needed : Nat)
  deriving Repr, BEq

namespace Fault

def message? : Fault → Option String
  | coalition a b => some s!"Coalition value {a} exceeds maximum of {b}"
  | unknownState s ss =>
    let names := Text.quotedNames ss
    some s!"State '{s}' not found in states: {names}"
  | noMatrix => some "modified_graph is None"
  | emptyRow => some "All row elements are 0"
  | emptyRowAt r => some s!"All row elements are 0 (row {r})"
  | malformedMove m r c l n =>
    some s!"Malformed joint-action '{m}' at ({r},{c}): length {l} < n={n}"
  | noIdle => some "Idle error: There has to be at least one 'I' for each row"
  | noInitialMove =>
    some "Transition error: The initial state 's0' must have at least one non-zero transition"
  | forest i =>
    some ("Configuration error: State 's0' has no transitions to other states but state " ++
      s!"'s{i}' has transitions.")
  | agentRange => some "agent_index deve essere tra 1 e Number_of_agents"
  | unpricedAction a i => some s!"Azione letterale '{a}' non trovata per agente {i}"
  | noBranchingFormula => some "natatl_formula is None"
  | noFormula => some "NatATL formula is None"
  | noPrefix f =>
    some ("Invalid NatATL coalition/k prefix. Expected something like <\x7ba,b\x7d, k> ... " ++
      s!"Got: {f}")
  | noCoalition f => some s!"Invalid NatATL formula: cannot extract coalition. Got: {f}"
  | noBound f => some s!"Invalid NatATL formula: cannot extract k. Got: {f}"
  | unmappedNames ns =>
    some ("Coalition uses agent names (" ++ Text.quotedNames ns ++
      ") but model_agents was not provided for mapping.")
  | unmappedAgent a as =>
    some s!"Agent '{a}' not found in model_agents={as}. Cannot map coalition."
  | unknownAgent a as => some s!"Agent '{a}' not found in input.agents={as}"
  | noActionCode => some "Finite alphabet exhausted while assigning codes."
  | noSymbol => some "Finite alphabet exhausted while assigning AP symbols."
  | noClosingBrace => some "Invalid JSON: no closing '\x7d' found"
  | unsupportedModel k => some s!"Unsupported model type: <class '{k}'>"
  | unboundVariable v => some s!"Error: Binding variable '{v}' non associata ad alcun agente."
  | unboundUniversal v => some s!"Variabile universale '{v}' non associata ad alcun agente."
  | unreadStrategic => some "Errore nel parsing della formula NatSL."
  | unknownOperator o => some s!"Operator {o} not supported"
  | expected t g => some s!"Expected {t}, got {g}"
  | fewRows n f => some s!"Attesi ≥{n} righe di Transition, trovate {f}"
  | rowWidth r f n => some s!"Line {r} of Transition has {f} cols, need {n}"
  | labelRows n f => some s!"Attesi {n} lab lines, trovate {f}"
  | labelWidth r f n => some s!"Labelling riga {r} ha {f} val, servono {n}"
  | _ => none

end Fault

/-- A value or the cause for which there is none. -/
abbrev Outcome (α : Type) := Except Fault α

def orFault {α : Type} (cause : Fault) : Option α → Outcome α
  | some a => .ok a
  | none => .error cause

end Arena
