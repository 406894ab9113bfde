/-
Tokens of the formula languages and their lexer. At each position the first rule of a lexicon that
matches gives the token; a character that no rule matches is passed over, so blanks and foreign
characters only end words.
-/
import Arena.Data.Exchange

namespace Arena.Formula

inductive TokenKind where
  | globally | implies | eventually | or | and | everyPath | untl | somePath | prop | next | not
  | lparen | rparen | coalition | release | knows | agent | is | demonicCoalition | falsum | verum
  | weak | demonic | boundedCoalition | star | concat | choice | bound | binding | colon | comma
  | negation
  deriving DecidableEq, Repr

def TokenKind.label : TokenKind → String
  | globally => "GLOBALLY" | implies => "IMPLIES" | eventually => "EVENTUALLY" | or => "OR"
  | and => "AND" | everyPath => "FORALL" | untl => "UNTIL" | somePath => "EXIST" | prop => "PROP"
  | next => "NEXT" | not => "NOT" | lparen => "LPAREN" | rparen => "RPAREN"
  | coalition => "COALITION" | release => "RELEASE" | knows => "KCAP" | agent => "AGENT"
  | is => "IS" | demonicCoalition => "COALITION_DEMONIC" | falsum => "FALSE" | verum => "TRUE"
  | weak => "WEAK" | demonic => "DEMONIC" | boundedCoalition => "COALITION_BOUND" | star => "STAR"
  | concat => "CONCAT" | choice => "CHOICE" | bound => "BOUND" | binding => "BINDING"
  | colon => "COLON" | comma => "COMMA" | negation => "NEG"

structure Token where
  kind : TokenKind
  text : String
  deriving DecidableEq, Repr

instance : ToDatum Token := ⟨fun t => .tuple [.text t.kind.label, .text t.text]⟩

/-! ## Matchers -/

abbrev Matcher := List Char → Option (List Char × List Char)

def literal (w : String) : Matcher := fun s =>
  if w.toList.isPrefixOf s then some (w.toList, s.drop w.toList.length) else none

def anyRun (p : Char → Bool) : Matcher := fun s => some (s.takeWhile p, s.dropWhile p)

def run (p : Char → Bool) : Matcher := fun s =>
  if (s.takeWhile p).isEmpty then none else some (s.takeWhile p, s.dropWhile p)

def one (p : Char → Bool) : Matcher
  | [] => none
  | c :: rest => if p c then some ([c], rest) else none

def sequence : List Matcher → Matcher
  | [], s => some ([], s)
  | m :: ms, s =>
    match m s with
    | none => none
    | some (a, rest) =>
      match sequence ms rest with
      | none => none
      | some (b, rest') => some (a ++ b, rest')

def firstOf : List Matcher → Matcher
  | [], _ => none
  | m :: ms, s =>
    match m s with
    | some r => some r
    | none => firstOf ms s

def oneOf (ws : List String) : Matcher := firstOf (ws.map literal)

/-- Reads numerals separated by single commas; `fuel` bounds the number of numerals. -/
def numerals : Nat → Matcher
  | 0, _ => none
  | fuel + 1, s =>
    match run Text.isDigit s with
    | none => none
    | some (n, rest) =>
      match rest with
      | ',' :: rest' =>
        match numerals fuel rest' with
        | some (m, rest'') => some (n ++ ',' :: m, rest'')
        | none => some (n, rest)
      | _ => some (n, rest)

def numeralList : Matcher := fun s => numerals (s.length + 1) s

/-! ## The lexer -/

structure Rule where
  kind : TokenKind
  reads : Matcher

abbrev Lexicon := List Rule

def Lexicon.front? : Lexicon → List Char → Option (TokenKind × List Char)
  | [], _ => none
  | r :: rs, s =>
    match r.reads s with
    | some (lexeme, _) => some (r.kind, lexeme)
    | none => front? rs s

/-- The tokens of a text; `skip` counts the characters of the current token still to be passed. -/
def Lexicon.tokensFrom (lx : Lexicon) : Nat → List Char → List Token
  | _, [] => []
  | skip + 1, _ :: rest => tokensFrom lx skip rest
  | 0, c :: rest =>
    match lx.front? (c :: rest) with
    | some (kind, lexeme) =>
      ⟨kind, String.ofList lexeme⟩ :: tokensFrom lx (lexeme.length - 1) rest
    | none => tokensFrom lx 0 rest

def Lexicon.tokens (lx : Lexicon) (s : String) : List Token := lx.tokensFrom 0 s.toList

end Arena.Formula
