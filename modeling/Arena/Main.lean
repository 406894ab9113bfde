/-
The command line: draws a priced model and writes it to a file.

    joint STATES RESOURCES FILE    one price for each joint action
    split STATES RESOURCES FILE    one price for each agent
-/
import Arena.Generator.Command

namespace Arena.Generator.Command

def randomChoices : Nat → IO (List Int)
  | 0 => return []
  | n + 1 => do
    let c ← IO.rand 0 0xFFFFFF
    return (c : Int) :: (← randomChoices n)

def perform (split : Bool) (words : List String) : IO UInt32 := do
  match (run split words).outcome ⟨← randomChoices 4096, 0⟩ with
  | .ok e =>
    IO.FS.writeFile e.file e.text
    IO.print e.message
    return 0
  | .error _ =>
    IO.eprintln "The words are not two numbers and a file."
    return 1

end Arena.Generator.Command

def main : List String → IO UInt32
  | "joint" :: words => Arena.Generator.Command.perform false words
  | "split" :: words => Arena.Generator.Command.perform true words
  | _ => do
    IO.eprintln "joint STATES RESOURCES FILE | split STATES RESOURCES FILE"
    return 1
