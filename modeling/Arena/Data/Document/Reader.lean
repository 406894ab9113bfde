/-
Reading documents. A document is one value with blanks around it: `null`, `true`, `false`, a number,
a quoted text, a list or a table. Of two entries with one key the later counts, at the place of the
earlier. A number with a fraction or an exponent is no integer.
-/
import Arena.Data.Document
import Arena.Data.Expression

namespace Arena.Document

def isSpace (c : Char) : Bool := c == ' ' || c == '\t' || c == '\n' || c == '\r'

def skipSpace (s : List Char) : List Char := s.dropWhile isSpace

/-! ## Texts -/

def shortUnit? : Char → Option Nat
  | '"' => some 34
  | '\\' => some 92
  | '/' => some 47
  | 'b' => some 8
  | 'f' => some 12
  | 'n' => some 10
  | 'r' => some 13
  | 't' => some 9
  | _ => none

def units? (done : List Nat) : List Char → Option (List Nat × List Char)
  | [] => none
  | '"' :: rest => some (done, rest)
  | '\\' :: 'u' :: a :: b :: c :: d :: rest => do
    let n ← Expression.hexValue? [a, b, c, d]
    units? (n :: done) rest
  | '\\' :: c :: rest => do
    let n ← shortUnit? c
    units? (n :: done) rest
  | c :: rest => if c.toNat < 32 then none else units? (c.toNat :: done) rest

/-- The characters of code units; two units that belong together are one character. -/
def charsOf : List Nat → List Char
  | [] => []
  | [n] => [Char.ofNat n]
  | m :: n :: rest =>
    if 0xd800 ≤ m && m < 0xdc00 && 0xdc00 ≤ n && n < 0xe000 then
      Char.ofNat (0x10000 + (m - 0xd800) * 1024 + (n - 0xdc00)) :: charsOf rest
    else Char.ofNat m :: charsOf (n :: rest)

def text? (s : List Char) : Option (String × List Char) :=
  (units? [] s).map fun (ns, rest) => (String.ofList (charsOf ns.reverse), rest)

/-! ## Numbers -/

def digitsOf (s : List Char) : List Char := s.takeWhile Char.isDigit

def integerDigits : List Char → List Char
  | '0' :: _ => ['0']
  | s => digitsOf s

def fractionChars : List Char → List Char
  | '.' :: s => if (digitsOf s).isEmpty then [] else '.' :: digitsOf s
  | _ => []

def exponentChars : List Char → List Char
  | e :: s =>
    let sign := match s with
      | '+' :: _ => ['+']
      | '-' :: _ => ['-']
      | _ => []
    let ds := digitsOf (s.drop sign.length)
    if (e = 'e' || e = 'E') && !ds.isEmpty then e :: sign ++ ds else []
  | _ => []

def number? (s : List Char) : Option (Datum × List Char) := do
  let sign := if s.head? = some '-' then ['-'] else []
  let s := s.drop sign.length
  let whole := integerDigits s
  if whole.isEmpty then none
  let s := s.drop whole.length
  let fraction := fractionChars s
  let s := s.drop fraction.length
  let exponent := exponentChars s
  let rest := s.drop exponent.length
  if fraction.isEmpty && exponent.isEmpty then
    return (.int (← Text.readInt? (String.ofList (sign ++ whole))), rest)
  else return (.float (← Text.readNumber? (String.ofList (sign ++ whole ++ fraction ++ exponent))), rest)

/-! ## Values -/

def constants : List (String × Datum) :=
  [("null", .null), ("true", .bool true), ("false", .bool false), ("NaN", .float (0 / 0)),
   ("Infinity", .float (1 / 0)), ("-Infinity", .float (-1 / 0))]

def constant? (s : List Char) : Option (Datum × List Char) :=
  constants.findSome? fun (w, d) =>
    if w.toList.isPrefixOf s then some (d, s.drop w.length) else none

mutual

/-- A value and the rest behind it. Every level and every element uses up fuel. -/
def value? : Nat → List Char → Option (Datum × List Char)
  | 0, _ => none
  | _ + 1, '"' :: s => (text? s).map fun (t, rest) => (.text t, rest)
  | fuel + 1, '[' :: s =>
    match skipSpace s with
    | ']' :: rest => some (.list [], rest)
    | s => (items? fuel s).map fun (xs, rest) => (.list xs, rest)
  | fuel + 1, '\x7b' :: s =>
    match skipSpace s with
    | '\x7d' :: rest => some (.dict [], rest)
    | s => (entries? fuel [] s).map fun (es, rest) => (.dict es, rest)
  | _ + 1, s => (constant? s).or (number? s)

def items? : Nat → List Char → Option (List Datum × List Char)
  | 0, _ => none
  | fuel + 1, s => do
    let (x, rest) ← value? fuel s
    match skipSpace rest with
    | ']' :: rest => return ([x], rest)
    | ',' :: rest =>
      let (xs, rest) ← items? fuel (skipSpace rest)
      return (x :: xs, rest)
    | _ => none

def entries? : Nat → List (Datum × Datum) → List Char → Option (List (Datum × Datum) × List Char)
  | fuel + 1, done, '"' :: s => do
    let (key, rest) ← text? s
    match skipSpace rest with
    | ':' :: rest =>
      let (x, rest) ← value? fuel (skipSpace rest)
      let done := Datum.putEntry done (.text key) x
      match skipSpace rest with
      | '\x7d' :: rest => return (done, rest)
      | ',' :: rest => entries? fuel done (skipSpace rest)
      | _ => none
    | _ => none
  | _, _, _ => none

end

def read (s : String) : Outcome Datum :=
  match value? (s.length + 1) (skipSpace s.toList) with
  | some (d, rest) => if (skipSpace rest).isEmpty then .ok d else .error .document
  | none => .error .document

def readLoose (s : String) : Outcome Datum :=
  match (Text.trim (Text.unifyLineEnds s)).toList.reverse.dropWhile (· != '\x7d') with
  | [] => .error .noClosingBrace
  | cs => read (String.ofList cs.reverse)

end Arena.Document
