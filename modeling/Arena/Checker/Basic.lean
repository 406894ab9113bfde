/-
What the checkers share. Grounding replaces the atoms of a formula by the texts of the sets where
they hold. Then the tree is solved from the leaves up: the text of a node is first its operator,
then the set where the subformula holds. A text that mentions no operator of its place is left as it
is.
-/
import Arena.Data.Names
import Arena.Formula.Parse
import Arena.Model.Reader

namespace Arena

namespace Model

def positionsWith (column : Nat) : Nat → Matrix → Outcome (List Nat)
  | _, [] => .ok []
  | i, row :: rest => do
    let cell ← nth row column
    let others ← positionsWith column (i + 1) rest
    return if cell = .num 1 then i :: others else others

/-- The positions of the states where an atomic proposition holds; none for an unknown proposition. -/
def positionsOf (m : Model) (p : String) : Outcome (Option (List Nat)) :=
  match m.propIndex? p with
  | none => .ok none
  | some k => do return some (← positionsWith k 0 m.labels)

/-- The states where an atomic proposition holds; none for an unknown proposition. -/
def statesOf (m : Model) (p : String) : Outcome (Option Names) := do
  match ← m.positionsOf p with
  | none => return none
  | some is => return some (Names.ofList (← is.mapM fun (i : Nat) => m.stateAt i))

def stateSet (m : Model) : Names := Names.ofList m.states

def positions (m : Model) (s : Names) : Outcome (List Nat) := do
  return Text.distinct (← s.mapM m.stateIndex)

end Model

namespace Checker

/-! ## Trees of texts -/

inductive Tree where
  | leaf (text : String)
  | unary (text : String) (arg : Tree)
  | binary (text : String) (left right : Tree)
  deriving DecidableEq, Repr

namespace Tree

def text : Tree → String
  | leaf t => t
  | unary t _ => t
  | binary t _ _ => t

def withText (t : String) : Tree → Tree
  | leaf _ => leaf t
  | unary _ a => unary t a
  | binary _ l r => binary t l r

/-- The formula with its atoms replaced by texts; none when some atom has no text. -/
def ground (atom : String → Outcome (Option String)) : Formula → Outcome (Option Tree)
  | .atom s => do return (← atom s).map leaf
  | .hole => do return (← atom "None").map leaf
  | .unary o a => do
    match ← ground atom a with
    | none => return none
    | some a => return some (unary o a)
  | .binary o l r => do
    match ← ground atom l with
    | none => return none
    | some l =>
      match ← ground atom r with
      | none => return none
      | some r => return some (binary o l r)
  | .starred a => ground atom a

/-- Solves a tree from the leaves to the root. A leaf is a node with one subformula missing. -/
def solve (one : String → Option String → Outcome String)
    (two : String → String → String → Outcome String) : Tree → Outcome String
  | leaf t => one t none
  | unary t a => do one t (some (← solve one two a))
  | binary t l r => do
    let x ← solve one two l
    let y ← solve one two r
    two t x y

end Tree

def atomText (m : Model) (p : String) : Outcome (Option String) := do
  return (← m.statesOf p).map Names.print

def argument (arg : Option String) : Outcome Names :=
  match arg with
  | some s => Names.read s
  | none => .error .member

def kindsIn (l : Formula.Logic) (s : String) : List Formula.TokenKind :=
  (l.lexicon.tokens s).map (·.kind)

/-! ## Loops -/

def stable (step : Names → Names) : Nat → Names → Names
  | 0, t => t
  | n + 1, t =>
    let t' := step t
    if t'.same t then t else stable step n t'

def shrink (step : Names → Outcome Names) : Nat → Names → Names → Outcome Names
  | 0, _, _ => .error .endless
  | n + 1, p, t => do
    if p.subset t then return p
    shrink step n t (← step t)

def grow (step : Names → Outcome Names) : Nat → Names → Names → Outcome Names
  | 0, _, _ => .error .endless
  | n + 1, p, t => do
    if t.subset p then return p
    let p := p.union t
    grow step n p (← step p)

def converge (step : Names → Outcome Names) : Nat → Names → Names → Outcome Names
  | 0, _, _ => .error .endless
  | n + 1, p, t => do
    if t.same p then return p
    converge step n t (← step t)

/-! ## Reports -/

/-- What a checker reports: the result and, for most logics, the verdict on the initial state. -/
structure Report where
  result : String
  initial? : Option String := none
  deriving DecidableEq, Repr

namespace Report

def message (s : String) : Report := ⟨s, some ""⟩

def truth (b : Bool) : String := if b then "True" else "False"

/-- Whether the initial state is reported to satisfy the formula: its name occurs in the result. -/
def verdict (m : Model) (result : String) : Bool := Text.contains result m.initial

def solved (m : Model) (result : String) : Report where
  result := "Result: " ++ result
  initial? := some ("Initial state " ++ m.initial ++ ": " ++ truth (verdict m result))

end Report

def isBlankFormula (s : String) : Bool := (Text.trim s).isEmpty

end Checker

end Arena
