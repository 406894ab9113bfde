/-
Strategy logic with natural strategies: quantifiers with bounds, a colon, bindings of variables to
agents, and an eventuality. The parser starts again behind a token that cannot go on. A formula
splits into coalition formulas, one for the existential variables and one for each universal one.
-/
import Arena.Formula.Grammar
import Arena.Formula.Lexicon

namespace Arena

/-- A quantifier over strategies of bounded complexity. -/
structure Quantifier where
  existential : Bool
  binder : String
  bound : Nat
  deriving DecidableEq, Repr

def Quantifier.letter (q : Quantifier) : String := if q.existential then "E" else "A"

/-- A formula of strategy logic: what is quantified, which agents play which variables, and the
proposition that has to hold eventually, or whose eventuality is negated. -/
structure NatSL where
  quantifiers : List Quantifier
  bindings : List (String × String)
  negated : Bool
  goal : String
  deriving DecidableEq, Repr

instance : ToDatum Quantifier := ⟨fun q => toDatum (q.letter, q.binder, q.bound)⟩

namespace NatSL

def goalWords (f : NatSL) : List String := (if f.negated then ["!"] else []) ++ ["F", f.goal]

instance : ToDatum NatSL :=
  ⟨fun f => .tuple [toDatum f.quantifiers, toDatum f.bindings, .tuple (f.goalWords.map .text)]⟩

open Formula Formula.Reading

/-! ## Parsing -/

def readQuantifiers (qs : List Quantifier) : Nat → List Token → Reading (List Quantifier)
  | 0, ts => stuck ts
  | _ + 1, [] => stuck []
  | fuel + 1, t :: rest =>
    if t.kind = .colon && !qs.isEmpty then found qs rest
    else if t.kind = .somePath || t.kind = .everyPath then
      let (bound?, rest) : Option Nat × List Token :=
        match rest with
        | b :: r =>
          if b.kind = .bound then (Text.readNat? (b.text.toList.drop 1).dropLast, r) else (some 1, rest)
        | [] => (some 1, [])
      match bound?, rest with
      | none, _ => failed .value
      | some _, [] => stuck []
      | some bound, x :: r =>
        if x.kind = .binding then
          readQuantifiers (qs ++ [⟨t.kind = .somePath, x.text, bound⟩]) fuel r
        else stuck rest
    else stuck (t :: rest)

/-- Reads the goal: an eventuality or its negation. -/
def readGoal : List Token → Reading (Bool × String)
  | [] => stuck []
  | t :: rest =>
    if t.kind = .negation then
      (expect .eventually () rest).andThen fun _ r =>
        match r with
        | [] => stuck []
        | p :: r' => if p.kind = .prop then found (true, p.text) r' else stuck r
    else if t.kind = .eventually then
      match rest with
      | [] => stuck []
      | p :: r => if p.kind = .prop then found (false, p.text) r else stuck rest
    else stuck (t :: rest)

def readBinding : List Token → Reading (String × String)
  | [] => stuck []
  | x :: rest =>
    if x.kind = .binding then
      (expect .comma () rest).andThen fun _ r =>
        match r with
        | [] => stuck []
        | a :: r' =>
          if a.kind = .agent then expect .rparen (x.text, a.text) r' else stuck r
    else stuck (x :: rest)

def readBindings (bs : List (String × String)) :
    Nat → List Token → Reading (List (String × String) × Bool × String)
  | 0, ts => stuck ts
  | _ + 1, [] => stuck []
  | fuel + 1, t :: rest =>
    if t.kind = .lparen then
      (readBinding rest).andThen fun b r => readBindings (bs ++ [b]) fuel r
    else if bs.isEmpty then stuck (t :: rest)
    else (readGoal (t :: rest)).andThen fun goal r => found (bs, goal) r

def readNatSL (ts : List Token) : Reading NatSL :=
  (readQuantifiers [] (ts.length + 1) ts).andThen fun qs r =>
    (readBindings [] (r.length + 1) r).andThen fun (bs, negated, goal) r' =>
      found ⟨qs, bs, negated, goal⟩ r'

def parseFrom : Nat → List Token → Outcome (Option NatSL)
  | 0, _ => .ok none
  | fuel + 1, ts =>
    match readNatSL ts with
    | failed cause => .error cause
    | found f [] => .ok (some f)
    | found _ (_ :: rest) => parseFrom fuel rest
    | stuck [] => .ok none
    | stuck (_ :: rest) => parseFrom fuel rest

def parse (s : String) : Outcome (Option NatSL) :=
  let ts := Logic.natSL.lexicon.tokens s
  parseFrom (ts.length + 1) ts

/-! ## Agents -/

def agentNumber (a : String) : Outcome Int := orFault .value (Text.readInt? a)

/-- The agent that plays a variable; a later binding replaces an earlier one. -/
def agentOf? (f : NatSL) (x : String) : Option String :=
  (f.bindings.reverse.find? fun b => b.1 == x).map (·.2)

def checkBindings (f : NatSL) : Outcome Unit :=
  match f.quantifiers.find? fun q => (f.agentOf? q.binder).isNone with
  | some q => .error (.unboundVariable q.binder)
  | none => .ok ()

def agentCount (f : NatSL) : Outcome Nat := do
  return (Text.distinct (← f.bindings.mapM fun b => agentNumber b.2)).length

def agentsOf (f : NatSL) (existential : Bool) : Outcome (List Int) :=
  ((f.quantifiers.filter (·.existential == existential)).filterMap fun q => f.agentOf? q.binder).mapM agentNumber

/-- The agents of the universal variables, if all variables are bound. -/
def universalAgents (f : NatSL) : Outcome (List Int) := do
  f.checkBindings
  let _ ← f.agentsOf true
  f.agentsOf false

/-! ## Transformations -/

/-- The temporal operator and the proposition; a negated goal has no such pair. -/
def operatorAndGoal (f : NatSL) : Outcome (String × String) :=
  if f.negated then .error .value else .ok ("F", f.goal)

def temporal (f : NatSL) : Outcome String := do
  let (o, p) ← f.operatorAndGoal
  return o ++ p

def toBranching (f : NatSL) (negated : Bool) : Outcome String := do
  let (o, p) ← f.operatorAndGoal
  return (if negated then "!A" else "A") ++ o ++ p

def skolemize (f : NatSL) : NatSL :=
  { f with quantifiers :=
      f.quantifiers.filter (·.existential) ++ f.quantifiers.filter (!·.existential) }

def normalize (s : String) : Outcome (Bool × String) := do
  let negated := Text.startsWith s "!(" && Text.endsWith s ")"
  let s := if negated then String.ofList (s.toList.drop 2).dropLast else s
  let (quantifiers, rest) ← orFault .value (Text.cut? ":" s)
  let swap (c : Char) : Char :=
    if negated then if c = 'E' then 'A' else if c = 'A' then 'E' else c else c
  return (negated, String.ofList (quantifiers.toList.map swap) ++ ":" ++ rest)

def coalitionFormula (agents : List Int) (bound : Nat) (goal : String) : String :=
  "<\x7b" ++ Text.join "," (agents.map toString) ++ "\x7d, " ++ toString bound ++ ">" ++ goal

def separate (f : NatSL) (goal : String) : Outcome (List String × List String) := do
  let _ ← f.agentCount
  let existential := f.quantifiers.filter (·.existential)
  let agents ← f.agentsOf true
  let together :=
    if existential.isEmpty then []
    else [coalitionFormula agents ((existential.map (·.bound)).foldl (· + ·) 0) goal]
  let each ← (f.quantifiers.filter (!·.existential)).mapM fun q =>
    match f.agentOf? q.binder with
    | some a => do return coalitionFormula [← agentNumber a] q.bound goal
    | none => .error (.unboundUniversal q.binder)
  return (together, each)

def separated (s : String) : Outcome (List String × List String) := do
  let f ← orFault .unreadStrategic (← parse s)
  let goal ← f.temporal
  let (es, us) ← f.separate goal
  let sign (x : String) : String := if Text.startsWith s "!" then "!" ++ x else x
  return (es.map sign, us.map sign)

def coalitionFormulas (s : String) : Outcome (List String) := do
  let (es, us) ← separated s
  return es ++ us

end NatSL

end Arena
