/-
Parsing a text with the lexicon of one formula language and the grammar of another. Some languages
check coalitions against the number of agents: two then have no formula, one reports the agent. One
has no formula with a strength that cannot be read.
-/
import Arena.Formula.Grammar
import Arena.Formula.Lexicon

namespace Arena.Formula

/-! ## Heads -/

/-- The runs of digits in a text; `run` is the current one, reversed. -/
def digitRunsFrom (run : List Char) : List Char → List (List Char)
  | [] => if run.isEmpty then [] else [run.reverse]
  | c :: rest =>
    if Text.isDigit c then digitRunsFrom (c :: run) rest
    else if run.isEmpty then digitRunsFrom [] rest
    else run.reverse :: digitRunsFrom [] rest

def digitRuns (s : String) : List String := (digitRunsFrom [] s.toList).map String.ofList

def checkAgents (agents : AgentCount) : List String → Outcome Unit
  | [] => .ok ()
  | a :: rest => do
    let n ← orFault .value (Text.readInt? a)
    let max ← agents.count
    if n > max then .error (.coalition a agents.shown) else checkAgents agents rest

def plainHead : HeadRule := fun _ head operator => .ok (some (head ++ operator))

def checkedHead (agents : AgentCount) : HeadRule := fun _ head operator => do
  checkAgents agents (digitRuns head)
  return some (head ++ operator)

def partlyCheckedHead (agents : AgentCount) : HeadRule := fun between head operator => do
  if between then checkAgents agents (digitRuns head)
  return some (head ++ operator)

/-- The strength of a demon, the first run of digits, must be one that can be read. -/
def strengthHead : HeadRule := fun _ head operator => do
  let _ ← orFault .value (Text.readInt? ((digitRuns head).headD ""))
  return some (head ++ operator)

/-- The coalition and the bound that stand as numerals in braces, a comma and a numeral, at the
first place where they do. -/
def bracedCoalition? : List Char → Option (String × String)
  | [] => none
  | c :: rest =>
    let here : Option (String × String) :=
      if c = '\x7b' then
        match numeralList rest with
        | none => none
        | some (agents, r) =>
          match literal "\x7d," r with
          | none => none
          | some (_, r) =>
            match run Text.isDigit (r.dropWhile Text.isBlank) with
            | none => none
            | some (k, _) => some (String.ofList agents, String.ofList k)
      else none
    match here with
    | some r => some r
    | none => bracedCoalition? rest

def naturalHead (agents : AgentCount) : HeadRule := fun _ head operator =>
  match bracedCoalition? head.toList with
  | none => .ok none
  | some (coalition, k) => do
    checkAgents agents (Text.split "," coalition)
    return some ("<\x7b" ++ coalition ++ "\x7d, " ++ k ++ ">" ++ operator)

/-! ## Grammars -/

namespace Grammar

def propositional : Grammar where
  atoms := [.prop]
  binaries := [.and, .or, .implies]
  unaries := [.not]
  heads := []
  headUnaries := []
  headBinaries := []
  stars := false
  capacities := false
  binaryLabel := Token.text
  headRule := plainHead

def ctl : Grammar :=
  { propositional with
    heads := [.everyPath, .somePath]
    headUnaries := [.globally, .next, .eventually]
    headBinaries := [.untl] }

def atl (agents : AgentCount) : Grammar :=
  { propositional with
    heads := [.coalition]
    headUnaries := [.globally, .next, .eventually]
    headBinaries := [.untl]
    headRule := checkedHead agents }

def ltl : Grammar :=
  { propositional with
    binaries := [.and, .or, .implies, .untl]
    unaries := [.not, .next, .globally, .eventually]
    binaryLabel := fun t => if t.kind = .untl then "U" else t.text }

def natATL (agents : AgentCount) : Grammar :=
  { atl agents with headRule := naturalHead agents }

def capATL (agents : AgentCount) : Grammar :=
  { propositional with
    binaries := [.and]
    heads := [.coalition]
    headUnaries := [.next]
    headBinaries := [.untl, .release]
    capacities := true
    headRule := partlyCheckedHead agents }

def withConstants (head : TokenKind) : Grammar :=
  { propositional with
    atoms := [.prop, .falsum, .verum]
    heads := [head]
    headUnaries := [.globally, .next, .eventually]
    headBinaries := [.untl, .weak, .release] }

def guard : Grammar :=
  { propositional with
    binaries := [.and, .or, .implies, .concat, .choice]
    stars := true }

end Grammar

/-- The grammar of a language; the strategy language with quantifiers has a parser of its own. -/
def Logic.grammar (agents : AgentCount) : Logic → Grammar
  | ctl => Grammar.ctl
  | atl => Grammar.atl agents
  | ltl => Grammar.ltl
  | natATL => Grammar.natATL agents
  | capATL => Grammar.capATL agents
  | oatl => Grammar.withConstants .demonicCoalition
  | ol => { Grammar.withConstants .demonic with headRule := strengthHead }
  | rabatl => Grammar.withConstants .boundedCoalition
  | rbatl => Grammar.withConstants .boundedCoalition
  | guard => Grammar.guard
  | natSL => Grammar.propositional

/-- Parses a text as a formula of a language, with the tokens of the `reader` lexicon. -/
def parse (reader language : Logic) (agents : AgentCount) (s : String) :
    Outcome (Option Formula) :=
  let result := (language.grammar agents).parse (reader.lexicon.tokens s)
  match language, result with
  | .atl, .error (.coalition _ _) => .ok none
  | .natATL, .error (.coalition _ _) => .ok none
  | .ol, .error _ => .ok none
  | _, r => r

end Arena.Formula
