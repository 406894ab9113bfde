/-
Headings of formulas about natural strategies: `<{a,b}, k>` says that the agents `a` and `b` have
strategies of complexity at most `k`. A heading is read loosely, where agents may be names and
blanks stand anywhere, or strictly, where agents are numbers and a blank may stand only before the
bound.
-/
import Arena.Formula.Parse
import Arena.Text.Match

namespace Arena.Natural

open Text

/-- What a heading says: whether a negation stands before it, its coalition and its bound. -/
structure Heading where
  negated : Bool
  coalition : String
  bound : String
  deriving DecidableEq, Repr

namespace Heading

/-! ## Loose headings -/

/-- A coalition in braces with what stands before and behind it: the opening, the coalition, and the
closing with its comma. -/
def fences : Matcher (String × String × String) := fun _ s => do
  let rest ← expect? '<' s
  let rest ← expect? '\x7b' (skipBlanks rest)
  let inner := skipBlanks rest
  let isInside (c : Char) : Bool := c != '\x7d'
  let closing := inner.dropWhile isInside
  let rest ← expect? '\x7d' closing
  let rest ← expect? ',' (skipBlanks rest)
  return ((String.ofList (s.take (s.length - inner.length)), String.ofList (inner.takeWhile isInside),
    String.ofList (closing.take (closing.length - rest.length))), rest)

def braces : Matcher String := fun before s =>
  (fences before s).map fun ((_, inside, _), rest) => (inside, rest)

def unsigned : Matcher Heading := fun before s => do
  let (c, rest) ← braces before s
  let (k, rest) ← digits? (skipBlanks rest)
  let rest ← expect? '>' (skipBlanks rest)
  return (⟨false, c, String.ofList k⟩, rest)

def loose : Matcher Heading := fun before s =>
  match (behind? ['!'] s).or (behind? ['n', 'o', 't'] s) with
  | some rest => (unsigned before (skipBlanks rest)).map fun (h, r) => ({ h with negated := true }, r)
  | none => unsigned before s

def members (coalition : String) : List String :=
  ((split "," coalition).map trim).filter (· ≠ "")

/-- The formula in branching time: the first heading becomes a quantifier over all paths, and a
negation before it goes around the formula. -/
def toBranching (formula? : Option String) : Outcome String := do
  let formula := trim (← orFault .noBranchingFormula formula?)
  match loose.first? formula with
  | none => .error (.noPrefix formula)
  | some (before, h, after) =>
    let f := before ++ "A" ++ after
    return if h.negated then "!(" ++ f ++ ")" else f

def boundOf (formula? : Option String) : Outcome Int := do
  let formula := trim (← orFault .noFormula formula?)
  match loose.first? formula with
  | none => .error (.noBound formula)
  | some (_, h, _) => orFault .value (readInt? h.bound)

/-- The number of a named agent: the last place of the name in the list of agents. -/
def numberOf? (agents : List String) (name : String) : Option Nat :=
  ((agents.zip (List.range agents.length)).reverse.find? (·.1 == name)).map (·.2 + 1)

/-- The agents of the first coalition; names are numbered by a list of agents. -/
def agentsOf (formula? : Option String) (agents? : Option (List String)) : Outcome (List Int) := do
  let formula := trim (← orFault .noFormula formula?)
  match braces.first? formula with
  | none => .error (.noCoalition formula)
  | some (_, inside, _) =>
    let items := members (trim inside)
    if items.all isNumeral then items.mapM fun a => orFault .value (readInt? a)
    else
      let agents := agents?.getD []
      if agents.isEmpty then .error (.unmappedNames items)
      items.mapM fun a => do
        let n ← orFault (.unmappedAgent a (quotedNames agents)) (numberOf? agents a)
        return (n : Int)

/-! ## Strict headings -/

/-- Numerals with commas between them. The first argument bounds their number. -/
def numerals? : Nat → List Char → Option (List Char × List Char)
  | 0, _ => none
  | n + 1, s => do
    let (ds, rest) ← digits? s
    match expect? ',' rest with
    | none => return (ds, rest)
    | some rest =>
      let (more, rest) ← numerals? n rest
      return (ds ++ ',' :: more, rest)

def strictUnsigned : Matcher Heading := fun _ s => do
  let s ← behind? ['<', '\x7b'] s
  let (c, rest) ← numerals? (s.length + 1) s
  let rest ← behind? ['\x7d', ','] rest
  let (k, rest) ← digits? (skipBlanks rest)
  let rest ← expect? '>' rest
  return (⟨false, String.ofList c, String.ofList k⟩, rest)

def strict : Matcher Heading := fun before s =>
  match (behind? ['!'] s).or (behind? ['n', 'o', 't'] s) with
  | some rest => (strictUnsigned before rest).map fun (h, r) => ({ h with negated := true }, r)
  | none => strictUnsigned before s

def strictFirst (formula : String) : Outcome Heading :=
  orFault .member ((strict.first? formula).map (·.2.1))

/-- The formula in branching time: every strict heading becomes a quantifier over all paths, and a
negation before the first goes around the formula. -/
def strictToBranching (formula : String) : Outcome String := do
  let h ← strictFirst formula
  let _ ← orFault .value (readInt? h.bound)
  let f := strict.replaceAll (fun _ => "A") formula
  return if h.negated then "!(" ++ f ++ ")" else f

def strictBoundOf (formula : String) : Outcome Int := do
  orFault .value (readInt? (← strictFirst formula).bound)

def strictAgentsOf (formula : String) : Outcome (List Int) := do
  let items := (strict.all formula).flatMap fun h => split "," h.coalition
  let agents ← items.mapM fun a => orFault .value (readInt? a)
  return agents.eraseDups.mergeSort (· ≤ ·)

/-- The formula of alternating time: strict headings lose their bounds. -/
def toAlternating (formula : String) : String :=
  strictUnsigned.replaceAll (fun h => "<" ++ h.coalition ++ ">") formula

/-! ## Formulas as trees -/

def quantify (s : String) : String := strictUnsigned.replaceAll (fun _ => "A") s

def isNegation (reader : Formula.Logic) (formula : String) : Outcome Bool := do
  match ← Formula.parse reader .ctl .missing formula with
  | some (.unary o _) => return o = "!" || o = "not"
  | some (.binary o _ _) => return o = "!" || o = "not"
  | _ => return false

/-- Words behind `AX` and `AF`. -/
def nextOrEventually (operator : String) : Matcher String := fun _ s => do
  let rest ← behind? operator.toList s
  return (operator ++ String.ofList (rest.takeWhile isWordChar), rest.dropWhile isWordChar)

/-- Replaces the first occurrence of each of some pieces by the next proposition, as long as there
are propositions; answers the formula and the propositions left, or none when they ran out. -/
def fill : List String → String → List String → String × Option (List String)
  | [], formula, props => (formula, some props)
  | _ :: _, formula, [] => (formula, none)
  | piece :: rest, formula, p :: props => fill rest (replaceFirst piece p formula) props

/-- Replaces the subformulas with `AX`, then those with `AF`, by propositions from a text. -/
def fillFrom (formula propositions : String) : String :=
  match fill ((nextOrEventually "AX").all formula) formula (words propositions) with
  | (f, none) => f
  | (f, some props) => (fill ((nextOrEventually "AF").all f) f props).1

end Heading

end Arena.Natural
