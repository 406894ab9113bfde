/-
Values as they are stored, printed and exchanged: numbers, texts, lists, tuples, sets and tables.
`Datum.print` writes a value as an expression.
-/
import Arena.Text.Decimal

namespace Arena

inductive Datum where
  | null
  | bool (b : Bool)
  | int (n : Int)
  | float (x : Float)
  | text (s : String)
  | list (xs : List Datum)
  | tuple (xs : List Datum)
  | set (xs : List Datum)
  | dict (entries : List (Datum × Datum))
  deriving Inhabited

namespace Datum

mutual

def equal : Datum → Datum → Bool
  | null, null => true
  | bool a, bool b => a == b
  | int m, int n => m == n
  | float x, float y => x == y
  | text s, text t => s == t
  | list xs, list ys => equalAll xs ys
  | tuple xs, tuple ys => equalAll xs ys
  | set xs, set ys => equalAll xs ys
  | dict es, dict fs => equalEntries es fs
  | _, _ => false

def equalAll : List Datum → List Datum → Bool
  | [], [] => true
  | x :: xs, y :: ys => equal x y && equalAll xs ys
  | _, _ => false

def equalEntries : List (Datum × Datum) → List (Datum × Datum) → Bool
  | [], [] => true
  | (k, v) :: es, (l, w) :: fs => equal k l && equal v w && equalEntries es fs
  | _, _ => false

end

instance : BEq Datum := ⟨equal⟩

mutual

def print : Datum → String
  | null => "None"
  | bool true => "True"
  | bool false => "False"
  | int n => toString n
  | float x => Text.number x
  | text s => Text.quote s
  | list xs => "[" ++ Text.join ", " (printAll xs) ++ "]"
  | tuple [x] => "(" ++ print x ++ ",)"
  | tuple xs => "(" ++ Text.join ", " (printAll xs) ++ ")"
  | set [] => "set()"
  | set xs => "\x7b" ++ Text.join ", " (printAll xs) ++ "\x7d"
  | dict entries => "\x7b" ++ Text.join ", " (printEntries entries) ++ "\x7d"

def printAll : List Datum → List String
  | [] => []
  | x :: xs => print x :: printAll xs

def printEntries : List (Datum × Datum) → List String
  | [] => []
  | (k, v) :: rest => (print k ++ ": " ++ print v) :: printEntries rest

end

/-- A value inside a sentence: a text stands for itself. -/
def display : Datum → String
  | text s => s
  | d => print d

def truthy : Datum → Bool
  | null => false
  | bool b => b
  | int n => n != 0
  | float x => x != 0
  | text s => s != ""
  | list xs => !xs.isEmpty
  | tuple xs => !xs.isEmpty
  | set xs => !xs.isEmpty
  | dict es => !es.isEmpty

def get? (d : Datum) (key : String) : Option Datum :=
  match d with
  | dict es => (es.find? fun e => e.1 == text key).map (·.2)
  | _ => none

def record (entries : List (String × Datum)) : Datum :=
  dict (entries.map fun (k, v) => (text k, v))

def names (xs : List String) : Datum := list (xs.map text)

/-- Puts a value under a key: at its place if the key is there, otherwise at the end. -/
def putEntry (entries : List (Datum × Datum)) (k v : Datum) : List (Datum × Datum) :=
  if entries.any (fun e => e.1 == k) then
    entries.map fun e => if e.1 == k then (e.1, v) else e
  else entries ++ [(k, v)]

end Datum

end Arena
