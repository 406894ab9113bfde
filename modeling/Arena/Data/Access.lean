/-
Parts of sequences and values. A position below zero counts from the end, as -1 for the last
element. To ask for a part that is not there is a fault: a missing key, a position outside, or a
value without such parts.
-/
import Arena.Data.Exchange

namespace Arena

def place? (n : Nat) (i : Int) : Option Nat :=
  let j := if i < 0 then i + n else i
  if 0 ≤ j && j < n then some j.toNat else none

def nth {α : Type} (xs : List α) (i : Int) : Outcome α :=
  match place? xs.length i with
  | some j => orFault .position xs[j]?
  | none => .error .position

def letterAt (s : String) (i : Int) : Outcome String := do
  let c ← nth s.toList i
  return String.singleton c

def between {α : Type} (xs : List α) (i j : Int) : List α :=
  let n : Int := xs.length
  let clamp (k : Int) : Nat := (max 0 (min n (if k < 0 then k + n else k))).toNat
  (xs.take (clamp j)).drop (clamp i)

namespace Datum

def part (d : Datum) (key : String) : Outcome Datum :=
  match d with
  | dict _ => orFault .key (d.get? key)
  | _ => .error .shape

def members : Datum → Outcome (List Datum)
  | list xs => .ok xs
  | tuple xs => .ok xs
  | text s => .ok (s.toList.map fun c => text (String.singleton c))
  | dict es => .ok (es.map (·.1))
  | _ => .error .shape

def elementAt (d : Datum) (i : Int) : Outcome Datum :=
  match d with
  | list xs => nth xs i
  | tuple xs => nth xs i
  | text s => (letterAt s i).map text
  | _ => .error .shape

def size (d : Datum) : Outcome Nat := do return (← d.members).length

def text? : Datum → Option String
  | text s => some s
  | _ => none

def asText (d : Datum) : Outcome String := orFault .shape d.text?

def asNames (d : Datum) : Outcome (List String) := do (← d.members).mapM asText

def whole (x : Float) : Outcome Int :=
  match Text.wholePart? x with
  | some n => .ok n
  | none => .error (if x.isNaN then .value else .overflow)

/-- The whole number that a value is or that a text denotes; a fraction loses its places. -/
def asInt : Datum → Outcome Int
  | int n => .ok n
  | bool b => .ok b.toNat
  | text s => orFault .value (Text.readInt? s)
  | float x => whole x
  | _ => .error .shape

end Datum

end Arena
