/-
The dashboard: the visitor says who they are, and gets the page that was made for them.
-/
import Arena.Page.Concepts
import Arena.Page.Demonstration
import Arena.Page.Designer
import Arena.Page.Expert

namespace Arena.Page.Dashboard

def models (page : Int) : Page Unit :=
  match page with
  | 0 => throw (.fault .file)
  | 3 => Designer.main
  | 4 => Expert.main
  | _ => Concepts.main

def numbered (page : Int) : Page Unit :=
  match page with
  | 2 => Designer.trial
  | 0 => models 0
  | 3 => models 3
  | 4 => models 4
  | 5 => models 5
  | _ => do Demonstration.main (ofDatum (← chooseText " " Demonstration.titles))

def complete (s : Session) : Session :=
  { s with
    entries? := some (s.entries?.getD [])
    matrices? := some (s.matrices?.getD [])
    stage? := some (s.stage?.getD 0)
    page? := some (s.page?.getD 3) }

def start (page : Int) (s : Session) : Session :=
  { s with
    entries? := some []
    matrices? := some []
    stage? := some 0
    prices? := some []
    page? := some page }

def main : Page Unit := do
  change complete
  if ← pressed "0 - Guide" then change ({ · with page? := some 0 })
  if ← pressed "1 - Non-Expert User" then change (start 3)
  if ← pressed "2 - Expert User" then change (start 4)
  if ← pressed "3 - SolutionConcepts" then change (start 5)
  numbered (← required (·.page?))

end Arena.Page.Dashboard
