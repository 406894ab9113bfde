/-
Expressions that denote values: `Expression.read` accepts what `Datum.print` writes, and other
spellings. A text that is no expression, a name without a meaning and a set with a member that may
change are told apart.
-/
import Arena.Data.Datum
import Arena.Fault

namespace Arena.Expression

/-! ## Lexemes -/

inductive Lexeme where
  | name (s : String)
  | number (d : Datum)
  | text (s : String)
  | mark (c : Char)

def hexDigit? (c : Char) : Option Nat :=
  if '0' ≤ c && c ≤ '9' then some (c.toNat - '0'.toNat)
  else if 'a' ≤ c && c ≤ 'f' then some (c.toNat - 'a'.toNat + 10)
  else if 'A' ≤ c && c ≤ 'F' then some (c.toNat - 'A'.toNat + 10)
  else none

def hexValue? (cs : List Char) : Option Nat :=
  cs.foldlM (fun n c => do return n * 16 + (← hexDigit? c)) 0

def isOctal (c : Char) : Bool := '0' ≤ c && c ≤ '7'

def shortEscape? : Char → Option Char
  | '\\' => some '\\'
  | '\'' => some '\''
  | '"' => some '"'
  | 'a' => some '\x07'
  | 'b' => some '\x08'
  | 'f' => some '\x0c'
  | 'n' => some '\n'
  | 'r' => some '\r'
  | 't' => some '\t'
  | 'v' => some '\x0b'
  | _ => none

def readEscape? : List Char → Option (List Char × List Char)
  | [] => none
  | '\n' :: rest => some ([], rest)
  | c :: rest =>
    let hex (n : Nat) : Option (List Char × List Char) := do
      let digits := rest.take n
      if digits.length < n then none
      let v ← hexValue? digits
      return ([Char.ofNat v], rest.drop n)
    match c with
    | 'x' => hex 2
    | 'u' => hex 4
    | 'U' => hex 8
    | _ =>
      match shortEscape? c with
      | some d => some ([d], rest)
      | none =>
        if isOctal c then
          let digits := c :: (rest.take 2).takeWhile isOctal
          let v := digits.foldl (fun n d => n * 8 + (d.toNat - '0'.toNat)) 0
          some ([Char.ofNat v], rest.drop (digits.length - 1))
        else some (['\\', c], rest)

def readQuoted? (quote : Char) : Nat → List Char → List Char → Option (List Char × List Char)
  | 0, _, _ => none
  | _ + 1, _, [] => none
  | fuel + 1, before, c :: rest =>
    if c = quote then some (before.reverse, rest)
    else if c = '\n' then none
    else if c = '\\' then do
      let (cs, rest) ← readEscape? rest
      readQuoted? quote fuel (cs.reverse ++ before) rest
    else readQuoted? quote fuel (c :: before) rest

def isNumeralChar (c : Char) : Bool := c.isAlphanum || c == '_' || c == '.'

/-- The characters of a numeral; a sign may follow the mark of an exponent. -/
def numeralChars : List Char → List Char
  | [] => []
  | 'e' :: '-' :: rest => 'e' :: '-' :: numeralChars rest
  | 'e' :: '+' :: rest => 'e' :: '+' :: numeralChars rest
  | c :: rest => if isNumeralChar c then c :: numeralChars rest else []

def readNumeral? (s : List Char) : Option Datum :=
  let word := String.ofList s
  if s.all fun c => c.isDigit || c == '_' then
    if s.head? == some '0' && s.any (fun c => c ≠ '0' && c ≠ '_') then none
    else (Text.readInt? word).map Datum.int
  else if s.any fun c => c.isAlpha && c ≠ 'e' && c ≠ 'E' then none
  else (Text.readNumber? word).map Datum.float

def lexemes : Nat → List Char → Option (List Lexeme)
  | 0, _ => none
  | _ + 1, [] => some []
  | fuel + 1, c :: rest =>
    if c = ' ' || c = '\t' || c = '\n' || c = '\x0c' then lexemes fuel rest
    else if c = '#' then lexemes fuel (rest.dropWhile (· ≠ '\n'))
    else if c = '\'' || c = '"' then do
      let (s, rest) ← readQuoted? c (rest.length + 1) [] rest
      return .text (String.ofList s) :: (← lexemes fuel rest)
    else if c.isDigit || (c = '.' && (rest.head?.map Char.isDigit).getD false) then do
      let word := numeralChars (c :: rest)
      return .number (← readNumeral? word) :: (← lexemes fuel ((c :: rest).drop word.length))
    else if c = '_' || Text.isLetter c then do
      let word := (c :: rest).takeWhile Text.isWordChar
      return .name (String.ofList word) :: (← lexemes fuel ((c :: rest).drop word.length))
    else if "()[]\x7b\x7d,:-+".toList.contains c then do
      return .mark c :: (← lexemes fuel rest)
    else none

/-! ## Values -/

def reserved : List String :=
  ["and", "as", "assert", "async", "await", "break", "class", "continue", "def", "del", "elif",
    "else", "except", "finally", "for", "from", "global", "if", "import", "in", "is", "lambda",
    "nonlocal", "not", "or", "pass", "raise", "return", "try", "while", "with", "yield"]

def numeric? : Datum → Option Float
  | .bool b => some (if b then 1 else 0)
  | .int n => some (Float.ofInt n)
  | .float x => some x
  | _ => none

def same (a b : Datum) : Bool :=
  match a, b with
  | .int m, .int n => m == n
  | _, _ =>
    match numeric? a, numeric? b with
    | some x, some y => x == y
    | none, none => a == b
    | _, _ => false

mutual

def fixed : Datum → Bool
  | .list _ => false
  | .set _ => false
  | .dict _ => false
  | .tuple xs => fixedAll xs
  | _ => true

def fixedAll : List Datum → Bool
  | [] => true
  | x :: xs => fixed x && fixedAll xs

end

def makeSet (xs : List Datum) : Outcome Datum :=
  if !fixedAll xs then .error .shape
  else .ok (.set (xs.foldl (fun s x => if s.any (same x) then s else s ++ [x]) []))

def makeDict (es : List (Datum × Datum)) : Outcome Datum :=
  if !fixedAll (es.map (·.1)) then .error .shape
  else .ok (.dict (es.foldl (fun d e => Datum.putEntry d e.1 e.2) []))

def opposite : Datum → Outcome Datum
  | .bool b => .ok (.int (if b then -1 else 0))
  | .int n => .ok (.int (-n))
  | .float x => .ok (.float (-x))
  | _ => .error .shape

def valuesOf (vs : List (Outcome Datum)) : Outcome (List Datum) := vs.mapM id

def entriesOf (es : List (Outcome Datum × Outcome Datum)) : Outcome (List (Datum × Datum)) :=
  es.mapM fun e => do
    let k ← e.1
    let v ← e.2
    return (k, v)

def joinTexts : List Lexeme → String × List Lexeme
  | .text s :: rest => let (t, rest) := joinTexts rest; (s ++ t, rest)
  | rest => ("", rest)

mutual

/-- Reads a value from the front of some lexemes. The outer option says whether they are an
expression, the inner outcome which value it has. -/
def value? : Nat → List Lexeme → Option (Outcome Datum × List Lexeme)
  | 0, _ => none
  | fuel + 1, ls =>
    match ls with
    | .text s :: rest => let (t, rest) := joinTexts rest; some (.ok (.text (s ++ t)), rest)
    | .number d :: rest => some (.ok d, rest)
    | .name "set" :: .mark '(' :: .mark ')' :: rest => some (.ok (.set []), rest)
    | .name n :: rest =>
      if n = "None" then some (.ok .null, rest)
      else if n = "True" then some (.ok (.bool true), rest)
      else if n = "False" then some (.ok (.bool false), rest)
      else if reserved.contains n then none
      else some (.error .name, rest)
    | .mark '-' :: rest => do
      let (v, rest) ← value? fuel rest
      return (v.bind opposite, rest)
    | .mark '+' :: rest => value? fuel rest
    | .mark '[' :: rest => do
      let (vs, _, rest) ← items? fuel ']' rest
      return ((valuesOf vs).map Datum.list, rest)
    | .mark '(' :: rest => do
      let (vs, comma, rest) ← items? fuel ')' rest
      match vs, comma with
      | [v], false => return (v, rest)
      | _, _ => return ((valuesOf vs).map Datum.tuple, rest)
    | .mark '\x7b' :: rest =>
      match rest with
      | .mark '\x7d' :: rest => some (.ok (.dict []), rest)
      | _ =>
        match items? fuel '\x7d' rest with
        | some (vs, _, rest) => some ((valuesOf vs).bind makeSet, rest)
        | none => do
          let (es, rest) ← entries? fuel rest
          return ((entriesOf es).bind makeDict, rest)
    | _ => none

/-- Reads values up to a closing mark; the flag says whether there was a comma. -/
def items? : Nat → Char → List Lexeme →
    Option (List (Outcome Datum) × Bool × List Lexeme)
  | 0, _, _ => none
  | fuel + 1, close, ls =>
    match ls with
    | .mark c :: rest =>
      if c = close then some ([], false, rest) else itemsFrom? fuel close ls
    | _ => itemsFrom? fuel close ls

def itemsFrom? : Nat → Char → List Lexeme →
    Option (List (Outcome Datum) × Bool × List Lexeme)
  | 0, _, _ => none
  | fuel + 1, close, ls => do
    let (v, rest) ← value? fuel ls
    match rest with
    | .mark ',' :: .mark c :: rest' =>
      if c = close then return ([v], true, rest')
      let (vs, _, rest) ← itemsFrom? fuel close (.mark c :: rest')
      return (v :: vs, true, rest)
    | .mark ',' :: rest =>
      let (vs, _, rest) ← itemsFrom? fuel close rest
      return (v :: vs, true, rest)
    | .mark c :: rest => if c = close then return ([v], false, rest) else none
    | _ => none

def entries? : Nat → List Lexeme →
    Option (List (Outcome Datum × Outcome Datum) × List Lexeme)
  | 0, _ => none
  | fuel + 1, ls => do
    let (k, rest) ← value? fuel ls
    match rest with
    | .mark ':' :: rest =>
      let (v, rest) ← value? fuel rest
      match rest with
      | .mark '\x7d' :: rest => return ([(k, v)], rest)
      | .mark ',' :: .mark '\x7d' :: rest => return ([(k, v)], rest)
      | .mark ',' :: rest =>
        let (es, rest) ← entries? fuel rest
        return ((k, v) :: es, rest)
      | _ => none
    | _ => none

end

def read (s : String) : Outcome Datum :=
  let cs := s.toList
  match lexemes (cs.length + 1) cs with
  | none => .error .expression
  | some ls =>
    match value? (4 * ls.length + 4) ls with
    | some (v, []) => v
    | _ => .error .expression

end Arena.Expression
