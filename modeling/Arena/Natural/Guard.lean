/-
Guards of natural strategies: conditions built from atomic propositions, their negated and starred
variants, and sequences of them. Their complexity counts words; a generator gives all guards up to a
complexity, and draws the words that join conditions.
-/
import Arena.Natural.Draw
import Arena.Text.Match

namespace Arena.Natural.Guard

open Text

def wordCount (s : String) : Nat := (words s).length

def marked (mark s : String) : Nat := if contains s mark then 1 else 0

/-! ## Growing -/

/-- How guards grow: which parts there are, which words join two of them, whether the two are put in
order first, and what a joined guard costs at most. -/
structure Growth where
  parts : List String
  joints : List String
  sorted : Bool
  cost : String → Nat
  bound : Int

def Growth.joined (g : Growth) (a b : String) : Drawing String := do
  let (a, b) := if g.sorted && !precedes a b then (b, a) else (a, b)
  return a ++ " " ++ (← Draws.oneOf g.joints) ++ " " ++ b

def Growth.extend (g : Growth) : Nat → Option String → Drawing (List String)
  | 0, guard => return [guard.getD ""]
  | k + 1, none => do
    return (← g.parts.mapM fun p => g.extend k (some p)).flatten
  | k + 1, some c => do
    return (← g.parts.mapM fun p => do
      if p = c then return []
      let joined ← g.joined c p
      if g.bound < g.cost joined then return []
      g.extend k (some joined)).flatten

/-- All guards with up to `bound` parts, in the order in which they are first found. -/
def Growth.all (g : Growth) : Drawing (List String) := do
  let found ← (List.range g.bound.toNat).mapM fun k => g.extend (k + 1) none
  return distinct found.flatten

def conditions (props joints : List String) (bound : Int) : Drawing (List String) :=
  Growth.all ⟨props, joints, true, wordCount, bound⟩

/-- The sequences of conditions; a negation and a star cost one each. -/
def sequences (parts joints : List String) (bound : Int) : Drawing (List String) :=
  Growth.all ⟨parts, joints, false, fun s => wordCount s + count "!" s + count "*" s, bound⟩

/-! ## Variants -/

/-- The variants of conjuncts that leave or change each one; the last changes first. -/
def variants (change : String → String) : List String → List (List String)
  | [] => [[]]
  | p :: rest =>
    let others := variants change rest
    others.map (p :: ·) ++ others.map (change p :: ·)

def varied (change : String → String) (condition : String) : List String :=
  (variants change (split " && " condition)).map (join " && ")

def negate (s : String) : String := "!" ++ s

def star (s : String) : String := s ++ "*"

def negated (conditions : List String) (bound : Int) : List String :=
  conditions.flatMap fun c => (varied negate c).filter fun s =>
    (wordCount s + marked "!" s : Int) ≤ bound

def negatedStories (conditions : List String) (bound : Int) : List String :=
  distinct (conditions.flatMap fun c => (varied negate c).filter fun s =>
    (wordCount s + marked "!" s + marked "*" s : Int) ≤ bound)

def stories (conditions : List String) (bound : Int) : List String :=
  distinct (conditions.flatMap fun c => (varied star c).filter fun s =>
    (wordCount s + marked "*" s + marked "!" s : Int) ≤ bound && contains s "*")

/-- The regular expressions of a bounded complexity. The conditions, their negations and the stories are sets, whose
order nothing fixes: they are taken in sorted order here. -/
def expressions (bound : Int) (props : List String) : Drawing (List String) := do
  let cs ← conditions props ["and", "or"] bound
  let ns := sorted (negatedStories (sorted cs) bound)
  let ss := sorted (stories ns bound)
  let found ← sequences (distinct (ns ++ ss)) ["."] bound
  return sorted found

def complexity (s : String) : Nat := wordCount s + marked "!" s

def storyComplexity (s : String) : Nat :=
  wordCount s + if contains s "!" || contains s "*" then 1 else 0

end Arena.Natural.Guard
