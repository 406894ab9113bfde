/-
Draws. A computation that draws reads a list of choices again and again; a draw from `n` elements
takes the next choice modulo `n`, and counts even if the computation fails later.
-/
import Arena.Fault

namespace Arena

structure Draws where
  choices : List Int := [0]
  count : Nat := 0
  deriving DecidableEq, Repr

abbrev Drawing := ExceptT Fault (StateM Draws)

def Drawing.outcome {α : Type} (x : Drawing α) (d : Draws) : Outcome α := (x.run.run d).1

namespace Draws

def next (d : Draws) : Int × Draws :=
  (d.choices.getD (d.count % d.choices.length) 0, { d with count := d.count + 1 })

def below (n : Nat) : Drawing Nat := do
  let (c, d) := (← get).next
  set d
  if n = 0 then throw .position
  return (c % n).toNat

def oneOf {α : Type} (xs : List α) : Drawing α := do
  let i ← below xs.length
  match xs[i]? with
  | some x => return x
  | none => throw .position

def between (low high : Int) : Drawing Int := do
  let i ← below (high - low + 1).toNat
  return low + i

def several {α : Type} (xs : List α) : Nat → Drawing (List α)
  | 0 => return []
  | n + 1 => do
    let x ← oneOf xs
    let rest ← several xs n
    return x :: rest

end Draws

end Arena
