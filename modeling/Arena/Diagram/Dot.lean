/-
Pictures of graphs as texts: statements with defaults for what follows, nodes, edges, and attributes
of the whole, which `Picture.print` writes one a line. A name stands as it is when it is a word, a
numeral or a tagged text, and between quotes otherwise; there every quote has an odd number of
backslashes before it.
-/
import Arena.Data.Exchange

namespace Arena.Diagram

/-! ## Names -/

def reservedWords : List String := ["node", "edge", "graph", "digraph", "subgraph", "strict"]

def isWord : List Char → Bool
  | [] => false
  | c :: rest => (c.isAlpha || c == '_') && rest.all fun c => c.isAlphanum || c == '_'

/-- Whether some characters are a numeral: digits with at most one point, not before the sign. -/
def isNumeral (s : List Char) : Bool :=
  let s := if s.head? == some '-' then s.tail else s
  match s.dropWhile Char.isDigit with
  | [] => !s.isEmpty
  | '.' :: places => places.all Char.isDigit && s != ['.']
  | _ => false

def isTagged (s : List Char) : Bool :=
  2 ≤ s.length && s.head? == some '<' && s.getLast? == some '>'

def withoutLineEnd (s : List Char) : List Char :=
  if s.getLast? == some '\n' then s.dropLast else s

/-- Writes an odd number of backslashes before each quote; `pending` counts the backslashes that have
been read and not yet written. -/
def escapeQuotes : Nat → List Char → List Char
  | pending, [] => List.replicate pending '\\'
  | pending, '\\' :: rest => escapeQuotes (pending + 1) rest
  | pending, '"' :: rest =>
    List.replicate (pending / 2 * 2 + 1) '\\' ++ '"' :: escapeQuotes 0 rest
  | pending, c :: rest => List.replicate pending '\\' ++ c :: escapeQuotes 0 rest

def writeName (s : String) : String :=
  let core := withoutLineEnd s.toList
  if isTagged core then s
  else if (isWord core || isNumeral core) && !reservedWords.contains (Text.lower s) then s
  else "\"" ++ String.ofList (escapeQuotes 0 s.toList) ++ "\""

/-- An end of an edge as it is written: a node, and behind colons a place on it and a direction. -/
def writeEnd (s : String) : String :=
  match Text.cut? ":" s with
  | none => writeName s
  | some (node, "") => writeName node
  | some (node, rest) =>
    let (place, direction) := (Text.cut? ":" rest).getD (rest, "")
    Text.join ":" ([writeName node, writeName place] ++ if direction = "" then [] else [direction])

/-! ## Pictures -/

abbrev Attributes := List (String × String)

inductive Statement where
  /-- Attributes of the nodes or edges that follow. -/
  | defaults (kind : String) (attributes : Attributes)
  | node (name : String) (attributes : Attributes)
  | edge (source target label : String) (attributes : Attributes)
  | whole (attributes : Attributes)
  deriving DecidableEq, Repr

def writeAttributes (attributes : Attributes) : List String :=
  (attributes.mergeSort fun a b => Text.precedes a.1 b.1).map fun (k, v) => k ++ "=" ++ writeName v

def bracketed (attributes : List String) : String :=
  if attributes.isEmpty then "" else " [" ++ Text.join " " attributes ++ "]"

def Statement.print : Statement → String
  | defaults kind as => kind ++ bracketed (writeAttributes as)
  | node name as => writeName name ++ bracketed (writeAttributes as)
  | edge source target label as =>
    writeEnd source ++ " -> " ++ writeEnd target ++
      bracketed (("label=" ++ writeName label) :: writeAttributes as)
  | whole as => Text.join " " (writeAttributes as)

structure Picture where
  statements : List Statement
  deriving DecidableEq, Repr

namespace Picture

def heading : String :=
  "// \x7b'arrowhead': 'none'\x7d\ndigraph finite_state_machine \x7b\n"

def print (d : Picture) : String :=
  heading ++ String.join (d.statements.map fun s => "\t" ++ s.print ++ "\n") ++ "\x7d\n"

def push (d : Picture) (s : Statement) : Picture := ⟨d.statements ++ [s]⟩

instance : ToDatum Picture := ⟨fun p => .record [("graph", .text p.print)]⟩

end Picture

end Arena.Diagram
