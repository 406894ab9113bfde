/-
Cutting and joining texts at a given piece, from the left and without overlaps: `split` and `join`
undo each other, and `replace` is the one after the other. Quoted texts are joined to lists.
-/
import Arena.Text.Letter

namespace Arena.Text

/-- The parts between the occurrences of `sep`; `skip` counts the characters of the current
occurrence that are still to be passed, `part` is the current part, reversed. -/
def splitFrom (sep : List Char) : Nat → List Char → List Char → List (List Char)
  | _, part, [] => [part.reverse]
  | skip + 1, part, _ :: rest => splitFrom sep skip part rest
  | 0, part, c :: rest =>
    if sep.isPrefixOf (c :: rest) then part.reverse :: splitFrom sep (sep.length - 1) [] rest
    else splitFrom sep 0 (c :: part) rest

def split (sep s : String) : List String :=
  (splitFrom sep.toList 0 [] s.toList).map String.ofList

def join (sep : String) (parts : List String) : String := String.intercalate sep parts

def replace (old new s : String) : String := join new (split old s)

def cutFrom (sep : List Char) (before : List Char) : List Char → Option (List Char × List Char)
  | [] => if sep.isEmpty then some (before.reverse, []) else none
  | c :: rest =>
    if sep.isPrefixOf (c :: rest) then some (before.reverse, (c :: rest).drop sep.length)
    else cutFrom sep (c :: before) rest

def cut? (sep s : String) : Option (String × String) :=
  (cutFrom sep.toList [] s.toList).map fun (a, b) => (String.ofList a, String.ofList b)

def replaceFirst (old new s : String) : String :=
  match cut? old s with
  | some (before, after) => before ++ new ++ after
  | none => s

def occursIn (piece : List Char) : List Char → Bool
  | [] => piece.isEmpty
  | c :: rest => piece.isPrefixOf (c :: rest) || occursIn piece rest

def contains (s piece : String) : Bool := occursIn piece.toList s.toList

def count (piece s : String) : Nat := (split piece s).length - 1

def startsWith (s piece : String) : Bool := piece.toList.isPrefixOf s.toList

def endsWith (s piece : String) : Bool := piece.toList.reverse.isPrefixOf s.toList.reverse

def slice (s : String) (i j : Nat) : String := String.ofList ((s.toList.take j).drop i)

def dropLast (s : String) : String := String.ofList s.toList.dropLast

def repeated (s : String) (n : Nat) : String := String.join (List.replicate n s)

/-- The least of two texts in the order of code points comes first; equal texts may stand in
either order. -/
def precedes (a b : String) : Bool := !(decide (b < a))

def sorted (xs : List String) : List String := xs.mergeSort precedes

/-- A list without repetitions; the first occurrence of each element stays. -/
def distinct {α : Type} [BEq α] (xs : List α) : List α :=
  xs.foldl (fun seen x => if seen.contains x then seen else seen ++ [x]) []

/-! ## Quoted texts -/

/-- The lower-case hexadecimal digits of a number, `width` of them. -/
def hexDigits : Nat → Nat → List Char
  | 0, _ => []
  | width + 1, n => hexDigits width (n / 16) ++ [Nat.digitChar (n % 16)]

/-- The backslash, the quote and characters that are not printable are escaped. -/
def escapeChar (quote c : Char) : List Char :=
  if c = quote || c = '\\' then ['\\', c]
  else if c = '\t' then ['\\', 't']
  else if c = '\n' then ['\\', 'n']
  else if c = '\r' then ['\\', 'r']
  else if isPrintable c then [c]
  else if c.toNat < 0x100 then '\\' :: 'x' :: hexDigits 2 c.toNat
  else if c.toNat < 0x10000 then '\\' :: 'u' :: hexDigits 4 c.toNat
  else '\\' :: 'U' :: hexDigits 8 c.toNat

/-- The quote is single unless the text holds a single quote and no double one. -/
def quoteFor (s : List Char) : Char :=
  if s.contains '\'' && !s.contains '"' then '"' else '\''

def quoteList (s : List Char) : List Char :=
  let q := quoteFor s
  q :: s.flatMap (escapeChar q) ++ [q]

def quote (s : String) : String := String.ofList (quoteList s.toList)

def quotedNames (names : List String) : String := "[" ++ join ", " (names.map quote) ++ "]"

end Arena.Text
