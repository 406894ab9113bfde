/-
Pages. A page asks its visitor by labelled controls, reads and writes files, and shows notices and
pictures. An answer is what the visitor gives under the label, or else the control's default. A page
ends with a value, with a fault, or by asking to be visited again; its changes until then stay.
-/
import Arena.Checker.Method
import Arena.Diagram.Dot
import Arena.Natural.Draw

namespace Arena

namespace Page

/-- An entry may stand for the matrices themselves, as they are when it is looked at. -/
inductive Entry where
  | given (d : Datum)
  | matrices
  deriving BEq

/-- What is kept between visits; a part is missing until some page sets it. -/
structure Session where
  entries? : Option (List Entry) := none
  matrices? : Option (List Datum) := none
  stage? : Option Int := none
  page? : Option Int := none
  prices? : Option (List Datum) := none
  strategies? : Option Datum := none
  trials? : Option (List Datum) := none

namespace Session

def resolve (s : Session) : Entry → Datum
  | .given d => d
  | .matrices => .list (s.matrices?.getD [])

def toDatum (s : Session) : Datum :=
  let part (name : String) (d? : Option Datum) : List (String × Datum) := (d?.map (name, ·)).toList
  .record (part "cmpt_model" (s.stage?.map .int) ++ part "costs" (s.prices?.map .list) ++
    part "info_model" (s.entries?.map fun es => .list (es.map s.resolve)) ++
    part "info_model_test" (s.trials?.map .list) ++
    part "mat_transi" (s.matrices?.map .list) ++ part "natural_strategies" s.strategies? ++
    part "page" (s.page?.map .int))

def ofDatum (d : Datum) : Session where
  stage? := (d.get? "cmpt_model").map Arena.ofDatum
  prices? := (d.get? "costs").map Datum.elements
  entries? := (d.get? "info_model").map fun es => es.elements.map .given
  trials? := (d.get? "info_model_test").map Datum.elements
  matrices? := (d.get? "mat_transi").map Datum.elements
  strategies? := d.get? "natural_strategies"
  page? := (d.get? "page").map Arena.ofDatum

instance : ToDatum Session := ⟨toDatum⟩
instance : OfDatum Session := ⟨ofDatum⟩

end Session

inductive Tone where
  | plain
  | info
  | failure
  | success
  deriving DecidableEq, Repr

inductive Shown where
  | choice (label : String) (options : List Datum)
  | choices (label : String) (options : List Datum)
  | field (label : String)
  | area (label : String)
  | button (label : String)
  | upload (label : String)
  | notice (tone : Tone) (parts : List Datum)
  | picture (p : Diagram.Picture)
  | again
  deriving BEq

/-- What a visitor brings: answers under the labels of controls, and perhaps a file. -/
structure Visit where
  answers : List (String × Datum) := []
  upload? : Option (String × String) := none

/-- What stays from visit to visit, and what has been shown on this one. -/
structure Desk where
  session : Session := {}
  files : List (String × String) := []
  draws : Draws := {}
  memory : Checker.Bounded.Memory := []
  reader : Formula.Logic := .ctl
  shown : List Shown := []

inductive Halt where
  | again
  | fault (cause : Fault)
  deriving BEq

end Page

abbrev Page (α : Type) := ReaderT Page.Visit (ExceptT Page.Halt (StateM Page.Desk)) α

namespace Page

instance : MonadLift (Except Fault) (ReaderT Visit (ExceptT Halt (StateM Desk))) :=
  ⟨fun
    | .ok a => pure a
    | .error cause => throw (.fault cause)⟩

/-- The value or fault of a visit, and the desk after it. Asking to be visited again has no value. -/
def visit (page : Page Datum) (v : Visit) (desk : Desk) : Outcome Datum × Desk :=
  match ((page.run v).run.run { desk with shown := [] } : Except Halt Datum × Desk) with
  | (.ok d, desk) => (.ok d, desk)
  | (.error .again, desk) => (.ok .null, desk)
  | (.error (.fault cause), desk) => (.error cause, desk)

/-! ## Controls -/

def display (s : Shown) : Page Unit := modify fun d => { d with shown := d.shown ++ [s] }

def answer (label : String) (default : Datum) : Page Datum :=
  return ((← read).answers.lookup label).getD default

def choose (label : String) (options : List Datum) : Page Datum := do
  display (.choice label options)
  answer label (options.headD .null)

def chooseText (label : String) (options : List String) : Page Datum :=
  choose label (options.map .text)

def chooseSome (label : String) (options default : List Datum) : Page Datum := do
  display (.choices label options)
  answer label (.list default)

def askText (label default : String) : Page Datum := do
  display (.field label)
  answer label (.text default)

def askLines (label : String) : Page Datum := do
  display (.area label)
  answer label (.text "")

def pressed (label : String) : Page Bool := do
  display (.button label)
  return (← answer label (.bool false)).truthy

def askFile (label : String) : Page (Option (String × String)) := do
  display (.upload label)
  return (← read).upload?

/-! ## Notices -/

def isBlankNotice : List Datum → Bool
  | [.text s] => (Text.trim s).isEmpty
  | _ => false

def notice (tone : Tone) (parts : List Datum) : Page Unit := do
  if !isBlankNotice parts then display (.notice tone parts)

def tell {α : Type} [ToDatum α] (a : α) : Page Unit := notice .plain [toDatum a]

def tellWith {α : Type} [ToDatum α] (s : String) (a : α) : Page Unit :=
  notice .plain [.text s, toDatum a]

def draw (p : Diagram.Picture) : Page Unit := display (.picture p)

def again {α : Type} : Page α := do
  display .again
  throw .again

/-! ## The session -/

def change (f : Session → Session) : Page Unit := modify fun d => { d with session := f d.session }

def required {α : Type} (part : Session → Option α) : Page α := do
  orFault .member (part (← get).session)

def entry (i : Int) : Page Datum := do
  let es ← required (·.entries?)
  return (← get).session.resolve (← nth es i)

def addEntry (e : Entry) : Page Unit := do
  let es ← required (·.entries?)
  change ({ · with entries? := some (es ++ [e]) })

def addMatrix (m : Datum) : Page Unit := do
  let ms ← required (·.matrices?)
  change ({ · with matrices? := some (ms ++ [m]) })

def goTo (stage : Int) : Page Unit := change ({ · with stage? := some stage })

/-! ## Files, draws and checks -/

def readFile (name : String) : Page String := do
  orFault .file ((← get).files.lookup name)

def writeFile (name text : String) : Page Unit := modify fun d =>
  { d with files := (d.files.filter (·.1 ≠ name)) ++ [(name, text)] }

def drawn {α : Type} (x : Drawing α) : Page α := do
  let (a, draws) := x.run.run (← get).draws
  modify ({ · with draws })
  a

def check (method : Checker.Method) (source : Outcome String) (formula : String) :
    Page Checker.Report := do
  let d ← get
  let (r, memory) := (method.check d.reader source formula).run.run d.memory
  modify ({ · with memory })
  r

/-! ## Choosing a file -/

structure Folder where
  path : String
  label : String

def modelFolder : Folder := ⟨"./data", "Upload Dataset in .txt"⟩

def attackFolder : Folder := ⟨"./xml_data", "Upload Dataset in .xml"⟩

def attackFiles : List String := ["cond.txt", "test.xml", "test_output_Vitamin.txt"]

def Folder.fileAt (f : Folder) (name : String) : String :=
  if Text.startsWith name "/" then name else f.path ++ "/" ++ name

/-- Asks for a file: the visitor's own is handed to `store`, otherwise one of the names is chosen. -/
def Folder.choose (f : Folder) (names : List String) (store : String → String → Page Unit) :
    Page (Option String) := do
  let _ ← pressed "Upload Data"
  match ← askFile f.label with
  | some (name, text) =>
    store name (String.join ((Text.brokenLines text).map (· ++ "\n")))
    return none
  | none =>
    let name ← (← chooseText "Select a default dataset" (Text.sorted names)).asText
    let path := f.fileAt name
    notice .info [.text s!"You selected {path}"]
    return some name

/-- Asks for a model: its path and its text. A visitor's own file is stored and not chosen. -/
def chooseModel : Page (Option (String × String)) := do
  match ← modelFolder.choose ((← get).files.map (·.1)) writeFile with
  | none => return none
  | some name => return some (modelFolder.fileAt name, ← readFile name)

def chooseAttack : Page (Option String) := do
  match ← attackFolder.choose attackFiles fun _ _ => pure () with
  | none => return none
  | some name =>
    if !attackFiles.contains name then throw (.fault .file)
    return some (attackFolder.fileAt name)

end Page

end Arena
