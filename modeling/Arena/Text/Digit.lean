/-
Decimal digits of every script and the integers written with them: with blanks around, a sign,
single underscores between digits, and at most 4300 digits.
-/
import Arena.Text.Blank

namespace Arena.Text

/-- The code points of the digits zero; nine more digits follow each. -/
def zeros : Array Nat := #[
  48, 1632, 1776, 1984, 2406, 2534, 2662, 2790, 2918, 3046, 3174, 3302, 3430, 3558, 3664, 3792,
  3872, 4160, 4240, 6112, 6160, 6470, 6608, 6784, 6800, 6992, 7088, 7232, 7248, 42528, 43216,
  43264, 43472, 43504, 43600, 44016, 65296, 66720, 68912, 69734, 69872, 69942, 70096, 70384,
  70736, 70864, 71248, 71360, 71472, 71904, 72016, 72784, 73040, 73120, 92768, 92864, 93008,
  120782, 120792, 120802, 120812, 120822, 123200, 123632, 125264, 130032]

def digitValue? (c : Char) : Option Nat :=
  let n := c.toNat
  if n < 128 then if 48 ≤ n && n ≤ 57 then some (n - 48) else none
  else (zeros.find? (fun z => z ≤ n && n ≤ z + 9)).map (n - ·)

def isDigit (c : Char) : Bool := (digitValue? c).isSome

/-- Reads digits with single underscores between them; `after` says that a digit stands just
before, `n` is the value so far and `k` the number of digits. -/
def readDigits (after : Bool) (n k : Nat) : List Char → Option (Nat × Nat)
  | [] => if after then some (n, k) else none
  | '_' :: rest => if after then readDigits false n k rest else none
  | c :: rest =>
    match digitValue? c with
    | some d => readDigits true (10 * n + d) (k + 1) rest
    | none => none

def maxDigits : Nat := 4300

def readNat? (s : List Char) : Option Nat :=
  match readDigits false 0 0 s with
  | some (n, k) => if k ≤ maxDigits then some n else none
  | none => none

def readInt? (s : String) : Option Int :=
  match (trim s).toList with
  | '-' :: rest => (readNat? rest).map fun n => -(n : Int)
  | '+' :: rest => (readNat? rest).map fun n => (n : Int)
  | rest => (readNat? rest).map fun n => (n : Int)

end Arena.Text
