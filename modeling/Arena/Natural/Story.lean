/-
Stories: guards that speak about a path. A story is a sequence of conditions divided by points, each
of which may be starred; its words of a length are the sequences that it allows. A word is met along
a path when each condition holds in the label row of the state at its place.
-/
import Arena.Model.Basic
import Arena.Text.Match

namespace Arena.Natural.Story

open Text

def isStory (guard : String) : Bool :=
  guard.toList.any fun c => "*+?.()|\x7b\x7d[]".toList.contains c

/-! ## Words -/

/-- The parts of a story; a part before a star keeps the star. `part` is the present part, reversed. -/
def partsFrom (part : List Char) : List Char → List String
  | [] => if part.isEmpty then [] else [String.ofList part.reverse]
  | c :: rest =>
    if c = '*' || c = '.' then
      if part.isEmpty then partsFrom [] rest
      else
        let text := String.ofList part.reverse
        (if c = '*' then text ++ "*" else text) :: partsFrom [] rest
    else partsFrom (c :: part) rest

def parts (story : String) : List String := partsFrom [] story.toList

def sequences : List String → Nat → List (List String)
  | [], 0 => [[]]
  | [], _ + 1 => []
  | p :: rest, n =>
    if endsWith p "*" then
      (List.range (n + 1)).flatMap fun i =>
        (sequences rest (n - i)).map (List.replicate i (dropLast p) ++ ·)
    else match n with
      | 0 => []
      | n + 1 => (sequences rest n).map (p :: ·)

/-- The words of a length; there are none of a length below zero. -/
def wordsOf (story : String) (length : Int) : List String :=
  if length < 0 then []
  else distinct ((sequences (parts story) length.toNat).map (join " . "))

def conditions (word : String) : List String := (split " . " word).map trim

/-! ## Label rows -/

def atomHolds (props : List String) (row : Option (List Cell)) (p : String) : Outcome Bool := do
  match props.idxOf? (trim p) with
  | none => return false
  | some i =>
    let row ← orFault .shape row
    return (← nth row i) = .num 1

def literalHolds (props : List String) (row : Option (List Cell)) : Nat → String → Outcome Bool
  | 0, p => atomHolds props row p
  | n + 1, p =>
    if startsWith p "!" then do
      return !(← literalHolds props row n (trim (slice p 1 p.length)))
    else atomHolds props row p

/-- Whether one of some texts passes a test; the texts behind the first that does are not looked at. -/
def anyHolds (test : String → Outcome Bool) : List String → Outcome Bool
  | [] => .ok false
  | s :: rest => do if ← test s then return true else anyHolds test rest

/-- Whether all of some texts pass a test; the texts behind the first that does not are not looked at. -/
def allHold (test : String → Outcome Bool) : List String → Outcome Bool
  | [] => .ok true
  | s :: rest => do if ← test s then allHold test rest else return false

def disjunctionHolds (props : List String) (row : Option (List Cell)) (s : String) : Outcome Bool :=
  if contains s "or" then
    anyHolds (fun p => literalHolds props row p.length p) ((split "or" s).map trim)
  else literalHolds props row s.length s

/-- Whether a condition holds in a label row: `and` binds weaker than `or`, which binds weaker than
a negation. -/
def holds (props : List String) (row : Option (List Cell)) (s : String) : Outcome Bool :=
  if contains s "and" then allHold (disjunctionHolds props row) ((split "and" s).map trim)
  else disjunctionHolds props row s

end Arena.Natural.Story
