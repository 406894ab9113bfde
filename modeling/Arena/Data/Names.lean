/-
Sets of names, as lists without repetition in any order. A set is printed with its names in order,
so that equal sets have equal texts, and read back from any text that denotes it.
-/
import Arena.Data.Expression

namespace Arena

abbrev Names := List String

namespace Names

def ofList (xs : List String) : Names := Text.distinct xs

def union (a b : Names) : Names := a ++ b.filter (!a.contains ·)

def inter (a b : Names) : Names := a.filter b.contains

def diff (a b : Names) : Names := a.filter (!b.contains ·)

def subset (a b : Names) : Bool := a.all b.contains

def same (a b : Names) : Bool := a.subset b && b.subset a

def print (a : Names) : String :=
  if a.isEmpty then "set()"
  else "\x7b" ++ Text.join ", " ((Text.sorted a).map Text.quote) ++ "\x7d"

/-- The value that the text of a set denotes. Braces around the text may be missing. -/
def readDatum (s : String) : Outcome Datum :=
  if s = "set()" then .ok (.set [])
  else Expression.read
    ("\x7b" ++ Text.stripOf (fun c => c == '\x7b' || c == '\x7d') s ++ "\x7d")

/-- Reads a set in pieces: what stands between the braces is cut at the commas and joined again. -/
def readPieces (s : String) : Outcome Datum :=
  if s = "set()" then .ok (.set [])
  else Expression.read
    ("\x7b" ++ Text.join ", " (Text.split ", " (Text.stripOf (fun c => c == '\x7b' || c == '\x7d') s)) ++ "\x7d")

def nameOf : Datum → Outcome String
  | .text s => .ok s
  | _ => .error .shape

def read (s : String) : Outcome Names := do
  match ← readDatum s with
  | .set xs => xs.mapM nameOf
  | _ => .error .shape

end Names

end Arena
