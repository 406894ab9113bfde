/-
Graded branching-time formulas. Conjunction is the minimum, disjunction the maximum, negation the
complement; temporal operators are computed by rounds, the universal until by settling states in the
order of their degrees.
-/
import Arena.Fuzzy.Structure

namespace Arena.Fuzzy.Branching

variable {α : Type} [Degree α]

open Degree (zero one complement less same maxOf minOf)

/-! ## Operators -/

def someNext (k : Kripke α) (phi : Valuation α) : Valuation α :=
  .tabulate k.states fun s => maxOf zero ((k.post s).map fun (t, r) =>
    Degree.min r ((phi.get? t).getD zero))

def everyNext (k : Kripke α) (phi : Valuation α) : Valuation α :=
  .tabulate k.states fun s => minOf one ((k.post s).map fun (t, r) =>
    Degree.min r ((phi.get? t).getD zero))

def untilAt (k : Kripke α) (phi v : Valuation α) (s : String) : Outcome α := do
  let next ← (k.post s).mapM fun (t, r) => do return Degree.min r (← v.get t)
  let here ← v.get s
  return Degree.max here (Degree.min ((phi.get? s).getD zero) (maxOf zero next))

def untilRound (k : Kripke α) (phi v : Valuation α) : Outcome (Valuation α) := do
  let new ← k.states.mapM fun s => do return (s, ← untilAt k phi v s)
  return new.foldl (fun v (s, x) => v.put s x) v

def untilRounds (k : Kripke α) (phi : Valuation α) : Nat → Valuation α → Outcome (Valuation α)
  | 0, v => .ok v
  | n + 1, v => do untilRounds k phi n (← untilRound k phi v)

/-- The degree to which some path goes through one formula to another: as many rounds as states. -/
def someUntil (k : Kripke α) (phi psi : Valuation α) : Outcome (Valuation α) :=
  untilRounds k phi k.states.length psi

def sameValues (v w : Valuation α) : Bool :=
  v.length == w.length && v.all fun (s, x) => ((w.get? s).map (same x)).getD false

def globallyRound (k : Kripke α) (phi v : Valuation α) : Valuation α :=
  let next := someNext k v
  .tabulate k.states fun s => Degree.min ((phi.get? s).getD zero) ((next.get? s).getD zero)

def globallyRounds (k : Kripke α) (phi : Valuation α) : Nat → Valuation α → Outcome (Valuation α)
  | 0, _ => .error .endless
  | n + 1, v =>
    let v' := globallyRound k phi v
    if sameValues v' v then .ok v else globallyRounds k phi n v'

/-- A bound on the rounds: each changes a state to a smaller one of the degrees that occur. -/
def globallyBound (k : Kripke α) (phi : Valuation α) : Nat :=
  let degrees := phi.length + (k.edges.map fun e => e.2.length).foldl (· + ·) 0 + 2
  (k.states.length + 1) * (degrees + 1) + 2

def someGlobally (k : Kripke α) (phi : Valuation α) : Outcome (Valuation α) :=
  globallyRounds k phi (globallyBound k phi) (.tabulate k.states fun _ => one)

/-! ### Universal until -/

structure Settling (α : Type) where
  value : Valuation α
  worst : Valuation α
  pending : Valuation Nat
  todo : List String
  queue : List (α × String)

/-- Whether an entry of the queue comes before another: larger degree, then smaller name. -/
def comesBefore (a b : α × String) : Bool :=
  less b.1 a.1 || (!less a.1 b.1 && decide (a.2 < b.2))

def first? : List (α × String) → Option (α × String)
  | [] => none
  | e :: rest => some (rest.foldl (fun best e => if comesBefore e best then e else best) e)

def dropEntry (e : α × String) : List (α × String) → List (α × String)
  | [] => []
  | f :: rest => if f.2 == e.2 && same f.1 e.1 then rest else f :: dropEntry e rest

/-- The next state to settle, with the rest of the queue. Entries of settled states and entries whose
degree has changed since are passed over. -/
def nextState (value : Valuation α) (todo : List String) :
    Nat → List (α × String) → Outcome (String × List (α × String))
  | 0, _ => .error .position
  | n + 1, queue =>
    match first? queue with
    | none => .error .position
    | some e =>
      let rest := dropEntry e queue
      let current := ((value.get? e.2).map (same e.1)).getD false
      if todo.contains e.2 && current then .ok (e.2, rest) else nextState value todo n rest

def inform (k : Kripke α) (phi : Valuation α) (s : String) (st : Settling α) (t : String) :
    Outcome (Settling α) := do
  match (k.post t).get? s with
  | none => return st
  | some r =>
    let vs ← st.value.get s
    let w := Degree.min (← st.worst.get t)
      (Degree.min ((phi.get? t).getD zero) (Degree.min r vs))
    let count := (← st.pending.get t) - 1
    let st := { st with worst := st.worst.put t w, pending := st.pending.put t count }
    if count ≠ 0 then return st
    let vt ← st.value.get t
    let new := Degree.max vt w
    if less vt new then
      return { st with value := st.value.put t new, queue := st.queue ++ [(new, t)] }
    return st

def settleAll (k : Kripke α) (phi : Valuation α) : Nat → Settling α → Outcome (Settling α)
  | 0, st => .ok st
  | n + 1, st => do
    if st.todo.isEmpty then return st
    let (s, queue) ← nextState st.value st.todo (st.queue.length + 1) st.queue
    let st := { st with todo := st.todo.erase s, queue }
    settleAll k phi n (← st.todo.foldlM (inform k phi s) st)

def everyUntil (k : Kripke α) (phi psi : Valuation α) : Outcome (Valuation α) := do
  let states := Text.distinct k.states
  let queue ← k.states.mapM fun s => do return (← psi.get s, s)
  let start : Settling α := {
    value := psi
    worst := .tabulate k.states fun _ => one
    pending := .tabulate k.states fun s => (k.post s).length
    todo := states
    queue }
  return (← settleAll k phi states.length start).value

/-! ## Formulas -/

inductive Term where
  /-- No formula, where an operator has no argument. -/
  | absent
  /-- A formula at whose place the text has ended. -/
  | blank
  | atom (name : String)
  | node (op : String) (left right : Term)
  deriving DecidableEq, Repr

def Term.toDatum : Term → Datum
  | absent => .null
  | blank => .record [("op", .null), ("left", .null), ("right", .null)]
  | atom a => .record [("atom", .text a)]
  | node o l r => .record [("op", .text o), ("left", l.toDatum), ("right", r.toDatum)]

/-- The term that data denotes: an atom, or an operator with its arguments. -/
def Term.ofDatum : Datum → Term
  | .text s => atom s
  | .null => absent
  | .list [.text o] => node o absent absent
  | .list [.text o, l] => node o (ofDatum l) absent
  | .list [.text o, l, r] => node o (ofDatum l) (ofDatum r)
  | _ => blank

instance : ToDatum Term := ⟨Term.toDatum⟩
instance : OfDatum Term := ⟨Term.ofDatum⟩

def vocabulary : List String :=
  ["EX", "AX", "EU", "AU", "EF", "AF", "EG", "AG", "AND", "OR", "IMPLIES", "NOT", "(", ")"]

def startsIdentifier (c : Char) : Bool := c.isAlpha || c == '_'

def continuesIdentifier (c : Char) : Bool := c.isAlphanum || c == '_'

def lexeme? (s : List Char) : Option (List Char) :=
  match (vocabulary.map String.toList).find? (·.isPrefixOf s) with
  | some w => some w
  | none =>
    match s with
    | [] => none
    | c :: _ => if startsIdentifier c then some (s.takeWhile continuesIdentifier) else none

/-- The lexemes of a text; characters that start none are passed over. -/
def lexemesFrom : Nat → List Char → List String
  | 0, _ => []
  | _ + 1, [] => []
  | n + 1, c :: rest =>
    match lexeme? (c :: rest) with
    | some w => String.ofList w :: lexemesFrom n ((c :: rest).drop w.length)
    | none => lexemesFrom n rest

def lexemes (s : String) : List String := lexemesFrom (s.length + 1) s.toList

def shown (t : Option String) : String := t.getD "None"

def require (x : String) (ts : List String) : Outcome (List String) :=
  if ts.head? = some x then .ok ts.tail else .error (.expected x (shown ts.head?))

def levels : List String := ["IMPLIES", "OR", "AND"]

mutual

def parseLevel : Nat → List String → List String → Outcome (Term × List String)
  | 0, _, _ => .error .endless
  | fuel + 1, [], ts => parsePrefixed fuel ts
  | fuel + 1, op :: higher, ts => do
    let (left, ts) ← parseLevel fuel higher ts
    parseMore fuel op higher left ts

def parseMore : Nat → String → List String → Term → List String → Outcome (Term × List String)
  | 0, _, _, _, _ => .error .endless
  | fuel + 1, op, higher, left, ts =>
    if ts.head? = some op then do
      let (right, ts) ← parseLevel fuel higher ts.tail
      parseMore fuel op higher (.node op left right) ts
    else .ok (left, ts)

def parsePrefixed : Nat → List String → Outcome (Term × List String)
  | 0, _ => .error .endless
  | _ + 1, [] => .ok (.blank, [])
  | fuel + 1, t :: ts =>
    if ["NOT", "EX", "AX", "EF", "AF", "EG", "AG"].contains t then do
      let (a, ts) ← parsePrefixed fuel ts
      return (.node t a .absent, ts)
    else if t = "EU" || t = "AU" then do
      let ts ← require "(" ts
      let (l, ts) ← parseLevel fuel levels ts
      let ts ← require "," ts
      let (r, ts) ← parseLevel fuel levels ts
      let ts ← require ")" ts
      return (.node t l r, ts)
    else if t = "(" then do
      let (a, ts) ← parseLevel fuel levels ts
      let ts ← require ")" ts
      return (a, ts)
    else .ok (.atom t, ts)

end

def parse (s : String) : Outcome Term := do
  let ts := lexemes s
  return (← parseLevel (6 * ts.length + 8) levels ts).1

/-! ## Solving -/

def solve (k : Kripke α) : Term → Outcome (Valuation α)
  | .absent => .error .member
  | .blank => .error (.unknownOperator "None")
  | .atom a => Valuation.tabulateM k.states fun s => do return ((← k.label s).get? a).getD zero
  | .node op left right => do
    let all : Valuation α := .tabulate k.states fun _ => one
    let negate (v : Valuation α) : Outcome (Valuation α) :=
      Valuation.tabulateM k.states fun s => do return complement (← v.get s)
    let both (f : α → α → α) : Outcome (Valuation α) := do
      let v ← solve k left
      let w ← solve k right
      Valuation.tabulateM k.states fun s => do return f (← v.get s) (← w.get s)
    match op with
    | "NOT" => negate (← solve k left)
    | "EX" => return someNext k (← solve k left)
    | "AX" => return everyNext k (← solve k left)
    | "EU" =>
      let v ← solve k left
      let w ← solve k right
      someUntil k v w
    | "AU" =>
      let v ← solve k left
      let w ← solve k right
      everyUntil k v w
    | "EG" => someGlobally k (← solve k left)
    | "EF" => someUntil k all (← solve k left)
    | "AF" => negate (← someGlobally k (← negate (← solve k left)))
    | "AG" => negate (← someUntil k (← negate (← solve k left)) all)
    | "AND" => both Degree.min
    | "OR" => both Degree.max
    | "IMPLIES" => both fun x y => Degree.max (complement x) y
    | _ => .error (.unknownOperator op)

def check (source formula : String) : Outcome (Valuation α × Kripke α) := do
  let k ← Kripke.read source
  let v ← solve k (← parse formula)
  let _ ← Valuation.get v k.initial
  return (v, k)

end Arena.Fuzzy.Branching
