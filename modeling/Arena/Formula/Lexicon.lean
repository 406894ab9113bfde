/-
The lexicons of the formula languages. They differ in the order of their rules, which decides how
the letters of a keyword inside a longer word are read.
-/
import Arena.Formula.Token

namespace Arena.Formula

inductive Logic where
  /-- Branching time with path quantifiers. -/
  | ctl
  /-- Strategic ability of coalitions. -/
  | atl
  /-- Linear time. -/
  | ltl
  /-- Strategic ability with natural strategies of bounded complexity. -/
  | natATL
  /-- Strategic ability under uncertain capacities. -/
  | capATL
  /-- Coalitions against a demon who removes transitions. -/
  | oatl
  /-- A demon who removes transitions. -/
  | ol
  /-- Coalitions with a bound on each agent's resources. -/
  | rabatl
  /-- Coalitions with a bound on resources. -/
  | rbatl
  /-- Guards of strategies: Boolean and regular expressions. -/
  | guard
  /-- Strategy quantifiers with bounds and bindings. -/
  | natSL
  deriving DecidableEq, Repr

namespace Lexicon

/-! ## Rules shared by the languages -/

def globally : Rule := ⟨.globally, oneOf ["G", "globally", "always"]⟩
def implies : Rule := ⟨.implies, oneOf ["->", ">", "implies"]⟩
def eventually : Rule := ⟨.eventually, oneOf ["F", "eventually"]⟩
def or : Rule := ⟨.or, oneOf ["||", "|", "or"]⟩
def and : Rule := ⟨.and, oneOf ["&&", "&", "and"]⟩
def everyPath : Rule := ⟨.everyPath, oneOf ["A", "forall"]⟩
def untl : Rule := ⟨.untl, oneOf ["U", "until"]⟩
def somePath : Rule := ⟨.somePath, oneOf ["E", "exist"]⟩
def next : Rule := ⟨.next, oneOf ["X", "next"]⟩
def not : Rule := ⟨.not, oneOf ["!", "not"]⟩
def lparen : Rule := ⟨.lparen, literal "("⟩
def rparen : Rule := ⟨.rparen, literal ")"⟩
def release : Rule := ⟨.release, oneOf ["R", "release"]⟩
def falsum : Rule := ⟨.falsum, oneOf ["#", "false"]⟩
def verum : Rule := ⟨.verum, oneOf ["@", "true"]⟩
def weak : Rule := ⟨.weak, oneOf ["W", "weak"]⟩

def prop : Rule := ⟨.prop, run Char.isLower⟩

/-- A coalition: numerals in angle brackets. -/
def coalition : Rule := ⟨.coalition, sequence [literal "<", numeralList, literal ">"]⟩

def positive : Matcher :=
  sequence [one fun c => '1' ≤ c && c ≤ '9', anyRun Text.isDigit]

def boundedCoalition : Rule :=
  ⟨.boundedCoalition,
    sequence [literal "<", numeralList, literal ">", literal "<", numeralList, literal ">"]⟩

/-! ## The lexicons -/

def ctl : Lexicon :=
  [globally, implies, eventually, or, and, everyPath, untl, somePath, prop, next, not, lparen,
    rparen]

def atl : Lexicon :=
  [globally, coalition, implies, eventually, or, and,
    ⟨.prop, run fun c => c.isLower || c == '_' || Text.isDigit c⟩, untl, next, not, lparen, rparen]

def ltl : Lexicon :=
  [globally, implies, eventually, or, and, untl, prop, next, not, lparen, rparen]

def natATL : Lexicon :=
  [⟨.coalition, sequence [literal "<\x7b", numeralList, literal "\x7d,", anyRun Text.isBlank,
      run Text.isDigit, literal ">"]⟩,
    globally, implies, eventually, or, and, untl, prop, next, not, lparen, rparen]

def capATL : Lexicon :=
  [coalition, and, release, untl, next, ⟨.knows, oneOf ["K", "kcap"]⟩, ⟨.agent, run Char.isDigit⟩,
    prop, not, ⟨.is, oneOf ["is", "IS"]⟩, lparen, rparen]

def oatl : Lexicon :=
  [⟨.demonicCoalition, sequence [literal "<", numeralList, literal "><", positive, literal ">"]⟩,
    globally, implies, eventually, or, and, release, falsum, untl, verum, weak, next, prop, not,
    lparen, rparen]

def ol : Lexicon :=
  [globally, implies, eventually, ⟨.demonic, sequence [literal "<J", positive, literal ">"]⟩, or,
    and, release, falsum, untl, verum, weak, next, prop, not, lparen, rparen]

def rabatl : Lexicon :=
  [boundedCoalition, globally, implies, eventually,
    ⟨.prop, sequence [run Char.isLower, anyRun Text.isDigit]⟩, or, and, release, falsum, untl,
    verum, weak, next, not, lparen, rparen]

def rbatl : Lexicon :=
  [boundedCoalition, globally, implies, eventually, or, and, release,
    ⟨.prop, run fun c => c.isLower || c.isDigit⟩, falsum, untl, verum, weak, next, not, lparen,
    rparen]

def guard : Lexicon :=
  [implies, or, and, prop, not, lparen, rparen, ⟨.star, literal "*"⟩, ⟨.concat, literal "."⟩,
    ⟨.choice, literal "|"⟩]

def natSL : Lexicon :=
  [⟨.prop, one fun c => 'a' ≤ c && c ≤ 'h'⟩,
    ⟨.bound, sequence [literal "\x7b", run Text.isDigit, literal "\x7d"]⟩,
    ⟨.binding, one fun c => 'x' ≤ c && c ≤ 'z'⟩, ⟨.agent, run Text.isDigit⟩, lparen, rparen,
    ⟨.colon, literal ":"⟩, ⟨.comma, literal ","⟩, ⟨.somePath, literal "E"⟩,
    ⟨.everyPath, literal "A"⟩, ⟨.eventually, literal "F"⟩, ⟨.negation, literal "!"⟩]

end Lexicon

def Logic.lexicon : Logic → Lexicon
  | ctl => Lexicon.ctl
  | atl => Lexicon.atl
  | ltl => Lexicon.ltl
  | natATL => Lexicon.natATL
  | capATL => Lexicon.capATL
  | oatl => Lexicon.oatl
  | ol => Lexicon.ol
  | rabatl => Lexicon.rabatl
  | rbatl => Lexicon.rbatl
  | guard => Lexicon.guard
  | natSL => Lexicon.natSL

/-- Whether a text mentions an operator, given by its printed name: a token of that kind occurs in
it. A guard mentions an operator when the name itself occurs in it, in any case of letters. -/
def Logic.mentions (l : Logic) (operator s : String) : Bool :=
  if l = guard then Text.contains (Text.lower s) (Text.lower operator)
  else (l.lexicon.tokens s).any fun t => t.kind.label == operator

end Arena.Formula
