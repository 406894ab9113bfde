/-
Short names. Actions and propositions have long names in a scenario; in a model an action is one
capital and a proposition one small letter: the first of its own letters that is still free, or else
of the alphabet.
-/
import Arena.Data.Access
import Arena.Natural.Heading

namespace Arena.Scenario

open Text

/-! ## Choosing letters -/

/-- How short names are chosen: in which case, from which alphabet, and why there may be none. -/
structure Style where
  change : String → String
  alphabet : List Char
  cause : Fault

def smallLetters : List Char := (List.range 26).map fun i => Char.ofNat (97 + i)

def capital : Style := ⟨upper, smallLetters.map Char.toUpper, .noActionCode⟩

def small : Style := ⟨lower, smallLetters, .noSymbol⟩

def isPlain (s : String) : Bool := !s.isEmpty && s.toList.all isLetterOrNumeral

def Style.pick (style : Style) (preferred : List Char) (used : List String) : Outcome String :=
  let wanted := (preferred.map fun c => style.change (String.singleton c)).filter isPlain
  orFault style.cause ((wanted ++ style.alphabet.map String.singleton).find? (!used.contains ·))

/-! ## Actions -/

abbrev Codes := List (String × List (Datum × String))

/-- The characters of an action that its code may be: letters, or numerals if there are none. -/
def wantedOfAction (action : Datum) : List Char :=
  let cs := (trim action.display).toList
  match cs.filter isLetter with
  | [] => cs.filter isLetterOrNumeral
  | ls => ls

/-- The codes of actions; an action that is repeated gets another one. -/
def codesFrom (used : List String) (codes : List (Datum × Datum)) :
    List Datum → Outcome (List (Datum × Datum))
  | [] => .ok codes
  | a :: rest => do
    let code ← capital.pick (wantedOfAction a) used
    codesFrom (code :: used) (Datum.putEntry codes a (.text code)) rest

def codesOf (agents : List String) (actions : Datum) : Outcome Codes := do
  let found ← agents.mapM fun a => do
    let codes ← codesFrom [] [] (← (← actions.part a).members)
    return (a, codes.map fun (k, v) => (k, v.display))
  return found.foldl (fun t (a, cs) =>
    if t.any (·.1 == a) then t.map fun e => if e.1 == a then (a, cs) else e else t ++ [(a, cs)]) []

def Codes.find? (codes : Codes) (agent : String) (action : Datum) : Option String := do
  let (_, cs) ← List.find? (·.1 == agent) codes
  let (_, code) ← cs.find? (·.1 == action)
  return code

def codesDatum (codes : Codes) : Datum :=
  tableDatum (codes.map fun (a, cs) => (a, Datum.dict (cs.map fun (k, v) => (k, .text v))))

/-! ## Propositions -/

abbrev Symbols := List (String × String)

def labelsOf (labelling : Datum) (state : String) : Outcome (List Datum) :=
  match labelling with
  | .dict _ => ((labelling.get? state).getD (.list [])).members
  | _ => .error .member

def dividesWords (c : Char) : Bool := c == '_' || c == '-' || isBlank c

/-- The characters of a proposition that its symbol may be: its first character, then its letters. -/
def wantedOfProp (p : String) : List Char :=
  ((trim p).toList.take 1).filter (!dividesWords ·) ++ p.toList.filter isLetter

def symbolsFrom (used : List String) : List Datum → Outcome Symbols
  | [] => .ok []
  | .text p :: rest => do
    let symbol ← small.pick (wantedOfProp p) used
    return (p, symbol) :: (← symbolsFrom (symbol :: used) rest)
  | _ :: _ => .error .member

def symbolsOf (states : List String) (labelling : Datum) : Outcome Symbols := do
  let props := (← states.mapM (labelsOf labelling)).flatten
  symbolsFrom [] (distinct props)

/-- A text with the names of propositions replaced by their symbols, long names first. Only whole
words are replaced. -/
def shorten (symbols : Symbols) (s : String) : String :=
  (symbols.mergeSort fun a b => b.1.length ≤ a.1.length).foldl
    (fun s (p, symbol) => (wholeWord p).replaceAll (fun _ => symbol) s) s

/-! ## Coalitions -/

def coalitionOf (formula : String) : List String :=
  match Natural.Heading.braces.first? formula with
  | some (_, inside, _) => Natural.Heading.members inside
  | none => []

def numberCoalition (formula : String) (agents : List String) : Outcome String := do
  match Natural.Heading.fences.first? formula with
  | none => return formula
  | some (before, (opening, inside, closing), after) =>
    let names := Natural.Heading.members inside
    if names.isEmpty || names.all isNumeral then return formula
    let places ← names.mapM fun a =>
      orFault (.unknownAgent a (quotedNames agents)) (Natural.Heading.numberOf? agents a)
    return before ++ opening ++ join "," (places.map toString) ++ closing ++ after

def compact (s : String) : String := String.ofList (s.toList.filter (!isBlank ·))

end Arena.Scenario
