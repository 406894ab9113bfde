/-
Documents: data as text for exchange, with characters outside ASCII escaped and entries separated by
a comma and a blank. Members of a set are given in order.
-/
import Arena.Data.Exchange

namespace Arena.Document

def unitEscape (n : Nat) : String := "\\u" ++ String.ofList (Text.hexDigits 4 n)

def escape (c : Char) : String :=
  let n := c.toNat
  if c = '"' then "\\\""
  else if c = '\\' then "\\\\"
  else if c = '\n' then "\\n"
  else if c = '\r' then "\\r"
  else if c = '\t' then "\\t"
  else if n = 8 then "\\b"
  else if n = 12 then "\\f"
  else if 31 < n && n < 127 then String.singleton c
  else if n < 65536 then unitEscape n
  else unitEscape (0xd800 + (n - 65536) / 1024) ++ unitEscape (0xdc00 + (n - 65536) % 1024)

def writeText (s : String) : String := "\"" ++ String.join (s.toList.map escape) ++ "\""

def writeFloat (x : Float) : String :=
  if x.isNaN then "NaN"
  else if x.isInf then if x < 0 then "-Infinity" else "Infinity"
  else Text.number x

mutual

def write : Datum → String
  | .null => "null"
  | .bool true => "true"
  | .bool false => "false"
  | .int n => toString n
  | .float x => writeFloat x
  | .text s => writeText s
  | .list xs => "[" ++ Text.join ", " (writeAll xs) ++ "]"
  | .tuple xs => "[" ++ Text.join ", " (writeAll xs) ++ "]"
  | .set xs => "[" ++ Text.join ", " (writeAll xs) ++ "]"
  | .dict es => "\x7b" ++ Text.join ", " (writeEntries es) ++ "\x7d"

def writeAll : List Datum → List String
  | [] => []
  | x :: xs => write x :: writeAll xs

/-- Keys and values, with a colon between them; a key is a text. -/
def writeEntries : List (Datum × Datum) → List String
  | [] => []
  | (k, v) :: rest =>
    let key := match k with
      | .text s => writeText s
      | d => writeText (write d)
    (key ++ ": " ++ write v) :: writeEntries rest

end

/-! ## Order -/

mutual

/-- The order of two members of a set; none when they cannot be compared. -/
def compare? : Datum → Datum → Option Ordering
  | .int a, .int b => some (compare a b)
  | .text a, .text b => some (compare a b)
  | .list a, .list b => compareAll? a b
  | .tuple a, .tuple b => compareAll? a b
  | _, _ => none

def compareAll? : List Datum → List Datum → Option Ordering
  | [], [] => some .eq
  | [], _ => some .lt
  | _, [] => some .gt
  | x :: xs, y :: ys =>
    match compare? x y with
    | some .eq => compareAll? xs ys
    | o => o

end

/-- Members of a set in order: by value if all can be compared, otherwise by their texts. -/
def inOrder (xs : List Datum) : List Datum :=
  if xs.all fun x => xs.all fun y => (compare? x y).isSome then
    xs.mergeSort fun x y => compare? x y ≠ some .gt
  else xs.mergeSort fun x y => Text.precedes (write x) (write y)

end Arena.Document
