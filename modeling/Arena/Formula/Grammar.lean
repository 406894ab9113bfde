/-
Grammars of the formula languages and their parser. An operand is an atom, a formula in parentheses,
an operator in front of a formula, or a coalition with a temporal operator; binary operators group
to the right and an operator in front takes all that follows. The parser stops at a token that
cannot go on; unless the input ends there, it drops everything up to that token and starts again
behind it.
-/
import Arena.Formula.Token

namespace Arena

/-- A label is the text of the operator as written, with the coalition or path quantifier in front. -/
inductive Formula where
  | atom (name : String)
  /-- A subformula that has no value: a coalition that its language cannot read. -/
  | hole
  | unary (label : String) (arg : Formula)
  | binary (label : String) (left right : Formula)
  | starred (arg : Formula)
  deriving DecidableEq, Repr

namespace Formula

def toDatum : Formula → Datum
  | atom s => .text s
  | hole => .null
  | unary o a => .tuple [.text o, a.toDatum]
  | binary o l r => .tuple [.text o, l.toDatum, r.toDatum]
  | starred a => .tuple [a.toDatum, .text "*"]

def ofDatum : Datum → Formula
  | .text s => atom s
  | .tuple [.text o, a] => unary o (ofDatum a)
  | .tuple [.text o, l, r] => binary o (ofDatum l) (ofDatum r)
  | _ => hole

instance : ToDatum Formula := ⟨toDatum⟩
instance : OfDatum Formula := ⟨ofDatum⟩

/-- The number of agents as a formula meets it: how it is written and what it counts. -/
structure AgentCount where
  shown : String
  count : Outcome Int

namespace AgentCount

def ofInt (n : Int) : AgentCount := ⟨toString n, .ok n⟩

def ofText (s : String) : AgentCount := ⟨s, orFault .value (Text.readInt? s)⟩

def missing : AgentCount := ⟨"None", .error .shape⟩

instance : OfDatum AgentCount :=
  ⟨fun | .int n => ofInt n | .text s => ofText s | .bool b => ofInt b.toNat | _ => missing⟩

end AgentCount

/-- How a head (a path quantifier or a coalition) joins its operator: `between` says whether the
operator stands between two formulas. No label means that the head cannot be read. -/
abbrev HeadRule := (between : Bool) → (head operator : String) → Outcome (Option String)

/-- The grammar of a language, given by the roles of its tokens. -/
structure Grammar where
  atoms : List TokenKind
  binaries : List TokenKind
  unaries : List TokenKind
  heads : List TokenKind
  headUnaries : List TokenKind
  headBinaries : List TokenKind
  stars : Bool
  capacities : Bool
  binaryLabel : Token → String
  headRule : HeadRule

/-- What the parser finds at the front of a list of tokens. -/
inductive Reading (α : Type) where
  | found (value : α) (rest : List Token)
  /-- No value; the first token of `rest` cannot go on. -/
  | stuck (rest : List Token)
  | failed (cause : Fault)

namespace Reading

def andThen {α β : Type} (r : Reading α) (f : α → List Token → Reading β) : Reading β :=
  match r with
  | found a rest => f a rest
  | stuck rest => stuck rest
  | failed cause => failed cause

def expect {α : Type} (kind : TokenKind) (value : α) : List Token → Reading α
  | [] => stuck []
  | t :: rest => if t.kind = kind then found value rest else stuck (t :: rest)

end Reading

open Reading

/-! ## Formulas on capacities -/

/-- Reads a formula on capacities: `a is c`, its negations and conjunctions. -/
def readCapacity (closing : List TokenKind) : Nat → List Token → Reading Formula
  | 0, ts => stuck ts
  | _ + 1, [] => stuck []
  | fuel + 1, t :: rest =>
    let operand : Reading Formula :=
      match t.kind with
      | .lparen => (readCapacity closing fuel rest).andThen fun f r => expect .rparen f r
      | .not => (readCapacity closing fuel rest).andThen fun f r => found (.unary t.text f) r
      | .agent =>
        (expect .is () rest).andThen fun _ r =>
          match r with
          | [] => stuck []
          | p :: r' => if p.kind = .prop then found (.atom (t.text ++ p.text)) r' else stuck r
      | _ => stuck (t :: rest)
    operand.andThen fun f r =>
      match r with
      | [] => found f []
      | o :: r' =>
        if o.kind = .and then
          (readCapacity closing fuel r').andThen fun g r'' => found (.binary o.text f g) r''
        else if o.kind ∈ closing then found f r
        else stuck r

/-! ## Formulas -/

namespace Grammar

def closing (g : Grammar) : List TokenKind := .rparen :: g.headBinaries

def withHead (g : Grammar) (between : Bool) (head operator : String) (build : String → Formula)
    (rest : List Token) : Reading Formula :=
  match g.headRule between head operator with
  | .ok (some label) => found (build label) rest
  | .ok none => found .hole rest
  | .error cause => failed cause

def readStars (g : Grammar) (f : Formula) : List Token → Formula × List Token
  | [] => (f, [])
  | t :: rest => if g.stars && t.kind = .star then readStars g (.starred f) rest else (f, t :: rest)

/-- Reads what stands before the first operator between two formulas. -/
def readOperand (g : Grammar) (fuel : Nat) (read : List Token → Reading Formula) (t : Token)
    (rest : List Token) : Reading Formula :=
  if t.kind ∈ g.atoms then found (.atom t.text) rest
  else if t.kind = .lparen then
    (read rest).andThen fun f r => expect .rparen f r
  else if t.kind ∈ g.unaries then
    (read rest).andThen fun f r => found (.unary t.text f) r
  else if t.kind ∈ g.heads then
    match rest with
    | [] => stuck []
    | o :: r =>
      if o.kind ∈ g.headUnaries then
        (read r).andThen fun f r' =>
          g.withHead false t.text o.text (fun label => .unary label f) r'
      else
        (read rest).andThen fun f r =>
          match r with
          | [] => stuck []
          | o :: r' =>
            if o.kind ∈ g.headBinaries then
              (read r').andThen fun h r'' =>
                g.withHead true t.text o.text (fun label => .binary label f h) r''
            else stuck r
  else if g.capacities && t.kind = .knows then
    match rest with
    | [] => stuck []
    | a :: r =>
      if a.kind = .agent then
        (readCapacity g.closing fuel r).andThen fun f r' =>
          found (.unary (t.text ++ a.text) f) r'
      else stuck rest
  else stuck (t :: rest)

/-- Reads an operator behind a formula, and the formula behind the operator. -/
def readRest (g : Grammar) (read : List Token → Reading Formula) (f : Formula) (r : List Token) :
    Reading Formula :=
  match g.readStars f r with
  | (f, []) => found f []
  | (f, o :: r) =>
    if o.kind ∈ g.binaries then
      (read r).andThen fun h r' => found (.binary (g.binaryLabel o) f h) r'
    else if o.kind ∈ g.closing then found f (o :: r)
    else stuck (o :: r)

def readFormula (g : Grammar) : Nat → List Token → Reading Formula
  | 0, ts => stuck ts
  | _ + 1, [] => stuck []
  | fuel + 1, t :: rest =>
    (g.readOperand fuel (readFormula g fuel) t rest).andThen (g.readRest (readFormula g fuel))

def parseFrom (g : Grammar) : Nat → List Token → Outcome (Option Formula)
  | 0, _ => .ok none
  | fuel + 1, ts =>
    match g.readFormula (ts.length + 1) ts with
    | failed cause => .error cause
    | found f [] => .ok (if f = .hole then none else some f)
    | found _ (_ :: rest) => parseFrom g fuel rest
    | stuck [] => .ok none
    | stuck (_ :: rest) => parseFrom g fuel rest

def parse (g : Grammar) (ts : List Token) : Outcome (Option Formula) :=
  g.parseFrom (ts.length + 1) ts

end Grammar

end Formula

end Arena
