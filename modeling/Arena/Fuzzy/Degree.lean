/-
Degrees of truth. The graded checkers only compare degrees and take complements, so they are written
over any type with these operations; `Number`, on which they run, tells a whole number from one with
a fraction.
-/
import Arena.Data.Exchange

namespace Arena.Fuzzy

class Degree (α : Type) where
  zero : α
  one : α
  complement : α → α
  less : α → α → Bool
  same : α → α → Bool
  ratio : Nat → Nat → α
  parse? : String → Option α

namespace Degree

variable {α : Type} [Degree α]

def min (x y : α) : α := if less y x then y else x

def max (x y : α) : α := if less x y then y else x

def maxOf (default : α) : List α → α
  | [] => default
  | x :: xs => xs.foldl max x

def minOf (default : α) : List α → α
  | [] => default
  | x :: xs => xs.foldl min x

end Degree

/-- Degrees that are written into formulas and read back. -/
class WrittenDegree (α : Type) extends Degree α where
  wholeZero : α
  wholeOne : α
  minus : α → α → α
  print : α → String
  hasLiteral : α → Bool
  ofDatum? : Datum → Option α

/-- A whole number or a number with a fraction. -/
inductive Number where
  | whole (n : Int)
  | real (x : Float)

namespace Number

def toFloat : Number → Float
  | whole n => Float.ofInt n
  | real x => x

def less (a b : Number) : Bool :=
  match a, b with
  | whole m, whole n => m < n
  | a, b => a.toFloat < b.toFloat

def same (a b : Number) : Bool :=
  match a, b with
  | whole m, whole n => m == n
  | a, b => a.toFloat == b.toFloat || (a.toFloat.isNaN && b.toFloat.isNaN)

def minus (a b : Number) : Number :=
  match a, b with
  | whole m, whole n => whole (m - n)
  | a, b => real (a.toFloat - b.toFloat)

def toDatum : Number → Datum
  | whole n => .int n
  | real x => .float x

def complement (a : Number) : Number := minus (whole 1) a

def ofDatum? : Datum → Option Number
  | .int n => some (whole n)
  | .bool b => some (whole (if b then 1 else 0))
  | .float x => some (real x)
  | _ => none

instance : ToDatum Number := ⟨toDatum⟩
instance : OfDatum Number := ⟨fun d => (ofDatum? d).getD (whole 0)⟩

end Number

instance : Degree Number where
  zero := .real 0
  one := .real 1
  complement := Number.complement
  less := Number.less
  same := Number.same
  ratio a b := .real (Float.ofNat a / Float.ofNat b)
  parse? s := (Text.readNumber? s).map .real

instance : WrittenDegree Number where
  wholeZero := .whole 0
  wholeOne := .whole 1
  minus := Number.minus
  print x := x.toDatum.print
  hasLiteral x := match x with
    | .whole _ => true
    | .real y => y.isFinite
  ofDatum? := Number.ofDatum?

end Arena.Fuzzy
