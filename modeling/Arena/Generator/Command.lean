/-
The command of the generator of priced models: how many states and resources, and where the model
goes.
-/
import Arena.Generator.Priced
import Arena.Text.Digit

namespace Arena.Generator.Command

/-- What the command does: the message it prints, and the file it writes. -/
structure Effect where
  message : String
  file : String
  text : String

def countOf (words : List String) (i : Nat) : Outcome Int := do
  let w ← orFault .position words[i]?
  return max (← orFault .value (Text.readInt? w)) 1

def run (split : Bool) (words : List String) : Drawing Effect := do
  let states ← countOf words 0
  let resources ← countOf words 1
  let file ← orFault .position words[2]?
  let text ← Priced.draw split states resources
  return ⟨"Random model with " ++ toString states ++ " states and " ++ toString resources ++
    " resources generated and saved to " ++ file ++ ".\n", file, text⟩

end Arena.Generator.Command
