/-
Decimal texts of double-precision numbers. `shortest` finds the fewest digits that read back to the
same number, by exact arithmetic on the interval of reals that round to it; `number` lays them out,
positionally for exponents from -4 to 15; `fixedOne` rounds to one place, a half to even;
`wholePart?` drops the places; `readNumber?` reads a decimal text.
-/
import Arena.Text.Case
import Arena.Text.Digit
import Arena.Text.Pieces

namespace Arena.Text

/-! ## Exact view -/

/-- A finite double is `mantissa * 2 ^ exponent`, negated if `negative`; `narrow` says that the gap
below is half the gap above. -/
structure Binary where
  negative : Bool
  mantissa : Nat
  exponent : Int
  narrow : Bool

def Binary.ofBits (bits : UInt64) : Binary :=
  let n := bits.toNat
  let unit := Nat.pow 2 52
  let field : Nat := (n / unit) % 2048
  let fraction := n % unit
  { negative := n ≥ Nat.pow 2 63
    mantissa := if field = 0 then fraction else unit + fraction
    exponent := (max field 1 : Nat) - (1075 : Int)
    narrow := fraction = 0 && field > 1 }

def scaleTwo (m : Nat) (e : Int) : Nat × Nat :=
  if e ≥ 0 then (m * Nat.pow 2 e.toNat, 1) else (m, Nat.pow 2 (-e).toNat)

def scaleTen (num den : Nat) (p : Int) : Nat × Nat :=
  if p ≥ 0 then (num, den * Nat.pow 10 p.toNat) else (num * Nat.pow 10 (-p).toNat, den)

/-- The greatest `k` with `10 ^ k ≤ num / den`, searched downwards from a bound. -/
def decimalExponentFrom (num den : Nat) : Nat → Int → Int
  | 0, k => k
  | fuel + 1, k =>
    let (a, b) := scaleTen num den k
    if b ≤ a then k else decimalExponentFrom num den fuel (k - 1)

def decimalExponent (num den : Nat) : Int :=
  let guess : Int := ((Nat.toDigits 10 num).length : Int) - (Nat.toDigits 10 den).length + 1
  decimalExponentFrom num den 4 guess

def roundHalfEven (num den : Nat) : Nat :=
  let q := num / den
  let r := num % den
  if 2 * r < den then q else if den < 2 * r then q + 1 else if q % 2 = 0 then q else q + 1

/-! ## The fewest digits -/

/-- The digits and exponent of the first decimal grid, from `digits` digits on, that has a point
which reads back as the number; of two such points the nearer one, of two equally near the even. -/
def shortestFrom (b : Binary) (top : Int) : Nat → Nat → Nat × Int
  | 0, digits =>
    let p := top - (digits : Int) + 1
    let (n, d) := scaleTwo b.mantissa b.exponent
    let (a, c) := scaleTen n d p
    (roundHalfEven a c, p)
  | fuel + 1, digits =>
    let p := top - (digits : Int) + 1
    let (n, d) := scaleTwo (4 * b.mantissa) (b.exponent - 2)
    let unit := scaleTwo 1 (b.exponent - 2)
    let lo := if b.narrow then n - unit.1 else n - 2 * unit.1
    let hi := n + 2 * unit.1
    let (v, w) := scaleTen n d p
    let (l, _) := scaleTen lo d p
    let (h, _) := scaleTen hi d p
    let closed := b.mantissa % 2 = 0
    let inside (c : Nat) : Bool :=
      if closed then l ≤ c * w && c * w ≤ h else l < c * w && c * w < h
    let down := v / w
    let near := roundHalfEven v w
    let far := if near = down then down + 1 else down
    if inside near then (near, p)
    else if inside far then (far, p)
    else shortestFrom b top fuel (digits + 1)

/-- The fewest digits that read back as a positive finite number, with the power of ten of the
last one. -/
def shortest (b : Binary) : Nat × Int :=
  let (n, d) := scaleTwo b.mantissa b.exponent
  shortestFrom b (decimalExponent n d) 16 1

def dropZeros : Nat → Nat → Int → Nat × Int
  | 0, c, p => (c, p)
  | fuel + 1, c, p => if c ≠ 0 && c % 10 = 0 then dropZeros fuel (c / 10) (p + 1) else (c, p)

/-! ## Layout -/

/-- The text of a digit sequence with its decimal point after `point` digits: positional with at
least one place when `-4 < point ≤ 16`, otherwise with an exponent of at least two digits. -/
def layOut (digits : List Char) (point : Int) : String :=
  let n : Int := digits.length
  if -4 < point && point ≤ 16 then
    if point ≤ 0 then
      "0." ++ String.ofList (List.replicate (-point).toNat '0' ++ digits)
    else if n ≤ point then
      String.ofList (digits ++ List.replicate (point - n).toNat '0') ++ ".0"
    else
      String.ofList (digits.take point.toNat) ++ "." ++ String.ofList (digits.drop point.toNat)
  else
    let e := point - 1
    let mag := toString e.natAbs
    let mag := if mag.length < 2 then "0" ++ mag else mag
    let head := String.ofList (digits.take 1)
    let tail := if n ≤ 1 then "" else "." ++ String.ofList (digits.drop 1)
    head ++ tail ++ "e" ++ (if e < 0 then "-" else "+") ++ mag

def number (x : Float) : String :=
  if x.isNaN then "nan"
  else if x.isInf then if x < 0 then "-inf" else "inf"
  else
    let b := Binary.ofBits x.toBits
    let sign := if b.negative then "-" else ""
    if b.mantissa = 0 then sign ++ "0.0"
    else
      let (c, p) := shortest b
      let (c, p) := dropZeros 20 c p
      let digits := Nat.toDigits 10 c
      sign ++ layOut digits (p + digits.length)

def fixedOne (x : Float) : String :=
  if x.isNaN then "nan"
  else if x.isInf then if x < 0 then "-inf" else "inf"
  else
    let b := Binary.ofBits x.toBits
    let (n, d) := scaleTwo b.mantissa b.exponent
    let tenths := roundHalfEven (10 * n) d
    (if b.negative then "-" else "") ++ toString (tenths / 10) ++ "." ++ toString (tenths % 10)

def wholePart? (x : Float) : Option Int :=
  if x.isNaN || x.isInf then none
  else
    let b := Binary.ofBits x.toBits
    let (n, d) := scaleTwo b.mantissa b.exponent
    some (if b.negative then -((n / d : Nat) : Int) else (n / d : Nat))

/-! ## Reading -/

/-- Reads digits with single underscores between them; gives the value, the number of digits and
the rest. -/
def spanDigits (after : Bool) (n k : Nat) : List Char → Nat × Nat × Bool × List Char
  | [] => (n, k, after, [])
  | '_' :: c :: rest =>
    match after, digitValue? c with
    | true, some d => spanDigits true (10 * n + d) (k + 1) rest
    | _, _ => (n, k, after, '_' :: c :: rest)
  | c :: rest =>
    match digitValue? c with
    | some d => spanDigits true (10 * n + d) (k + 1) rest
    | none => (n, k, after, c :: rest)

/-- Reads an exponent, if one stands at the front; a marker without digits is refused. -/
def readExponent? : List Char → Option Int
  | [] => some 0
  | c :: rest =>
    if c = 'e' || c = 'E' then
      let (negative, rest) :=
        match rest with
        | '-' :: r => (true, r)
        | '+' :: r => (false, r)
        | r => (false, r)
      match spanDigits false 0 0 rest with
      | (n, k, _, []) => if k = 0 then none else some (if negative then -(n : Int) else n)
      | _ => none
    else none

def readMagnitude? (s : List Char) : Option Float :=
  let name := lower (String.ofList s)
  if name = "nan" then some (0.0 / 0.0)
  else if name = "inf" || name = "infinity" then some (1.0 / 0.0)
  else
    let (whole, k, _, rest) := spanDigits false 0 0 s
    let (n, places, digits, rest) :=
      match rest with
      | '.' :: r =>
        let (n, f, _, r') := spanDigits false whole 0 r
        (n, f, k + f, r')
      | r => (whole, 0, k, r)
    if digits = 0 then none
    else
      match readExponent? rest with
      | none => none
      | some e =>
        let p := e - (places : Int)
        if n = 0 then some 0.0
        else if p > 400 then some (1.0 / 0.0)
        else if p < -(400 + digits : Int) then some 0.0
        else some (Float.ofScientific n (p < 0) p.natAbs)

/-- Reads a number: an optional sign and a decimal text, with blanks around it. -/
def readNumber? (s : String) : Option Float :=
  match (trim s).toList with
  | '-' :: rest => (readMagnitude? rest).map fun x => -x
  | '+' :: rest => readMagnitude? rest
  | rest => readMagnitude? rest

end Arena.Text
