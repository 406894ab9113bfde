/-
Strategies typed by hand: one rule a line, the condition and the action with a comma between them. A
condition is refused, with a wording given here, when it is too long for the bound or has a word
that is no proposition.
-/
import Arena.Natural.Profile

namespace Arena.Natural.Typed

def lengthOf (condition : String) : Nat :=
  (Text.words condition).length + if Text.contains condition "!" then 1 else 0

def strangeWord? (props : List String) (condition : String) : Option String :=
  ((Text.words condition).filter fun w => !(["and", "or"].contains (Text.lower w))).map
    (fun w => if Text.startsWith w "!" then Text.slice w 1 w.length else w)
    |>.find? fun w => !props.contains w

def refusal? (condition : String) (bound : Int) (props : List String) : Option String :=
  let n := lengthOf condition
  if (n : Int) > bound then
    some s!"La complessità della condizione ({n}) supera il bound k={bound}."
  else (strangeWord? props condition).map fun w =>
    s!"Il simbolo '{w}' non è una atomic proposition valida."

/-- What rules are checked against: the bound, the propositions and, if they are known, the actions
of the agent. -/
structure Limits where
  bound : Int
  props : List String
  actions? : Option (List String) := none

def readRule (limits : Limits) (agent line : String) : Except String Rule :=
  match Text.split "," line with
  | [condition, action] =>
    let condition := Text.trim condition
    let action := Text.trim action
    match refusal? condition limits.bound limits.props with
    | some why =>
      .error s!"Errore per l'agente {agent} nella condizione '{condition}': {why}"
    | none =>
      match limits.actions? with
      | none => .ok ⟨condition, action⟩
      | some actions =>
        if actions.contains action then .ok ⟨condition, action⟩
        else
          let known := Text.quotedNames actions
          .error s!"L'azione '{action}' per l'agente {agent} non è valida. Azioni valide: {known}"
  | _ => .error s!"Formato non valido per l'agente {agent}: '{line}'. Uso: condizione,azione"

def linesOf (input : String) : List String :=
  ((Text.split "\n" input).map Text.trim).filter (· ≠ "")

def read (limits : Limits) (agent input : String) : List String × Strategy :=
  let rules := (linesOf input).map (readRule limits agent)
  (rules.filterMap fun | .error why => some why | .ok _ => none,
    rules.filterMap fun | .ok r => some r | .error _ => none)

end Arena.Natural.Typed
