/-
Durations in seconds, with two digits at least before the point and three places behind it, further
ones dropped.
-/
import Arena.Data.Access

namespace Arena.Page

def padded (width : Nat) (n : Int) : String :=
  let digits := toString n.natAbs
  let sign := if n < 0 then "-" else ""
  sign ++ Text.repeated "0" (width - sign.length - digits.length) ++ digits

def thousandths : Datum → Outcome Int
  | .float x => Datum.whole (x * 1000)
  | d => do return (← d.asInt) * 1000

def duration (seconds : Datum) : Outcome String := do
  let rest ← thousandths seconds
  return padded 2 (← seconds.asInt) ++ "." ++ padded 3 (rest % 1000)

end Arena.Page
