/-
Attack graphs: vertices are conditions or attacks, arcs lead from a goal back to what it needs. An
attack needs the conditions that lead to it and gains the one it leads to.
-/
import Arena.Data.Access
import Arena.Markup.Element

namespace Arena.Attack

abbrev Fact := Option String

structure Vertex where
  place : Int
  fact : Fact
  metric : Int
  kind : Option String
  deriving DecidableEq, Repr

structure Exploit where
  place : Int
  action : Fact
  needs : List Fact
  gain : Fact
  deriving DecidableEq, Repr

structure Graph where
  arcs : List (Int × Int)
  vertices : List Vertex
  deriving DecidableEq, Repr

instance : ToDatum Vertex := ⟨fun v =>
  .list [toDatum v.place, toDatum v.fact, toDatum v.metric, toDatum v.kind]⟩
instance : ToDatum Exploit := ⟨fun a =>
  .list [toDatum a.place, toDatum a.action, toDatum a.needs, toDatum [a.gain]]⟩

/-! ## Reading -/

open Markup in
def textOf (e : Element) (tag : String) : Outcome (Option String) := do
  return (← orFault .member (e.child? tag)).text

open Markup in
def numberOf (e : Element) (tag : String) : Outcome Int := do
  orFault .value (Text.readInt? (← orFault .shape (← textOf e tag)))

open Markup in
def Graph.ofElement (root : Element) : Outcome Graph := do
  let arcs ← ((← nth root.children 0).withTag "arc").mapM fun e => do
    let source ← numberOf e "src"
    let target ← numberOf e "dst"
    return (target, source)
  let vertices ← ((← nth root.children 1).withTag "vertex").mapM fun e => do
    let place ← numberOf e "id"
    let fact ← textOf e "fact"
    let metric ← numberOf e "metric"
    let kind ← textOf e "type"
    return ⟨place - 1, fact, metric, kind⟩
  return ⟨arcs, vertices⟩

def Graph.read (document : String) : Outcome Graph := do
  Graph.ofElement (← Markup.read document)

/-! ## Matrix -/

def position (length : Nat) (i : Int) : Outcome Nat :=
  let j := if i < 0 then i + length else i
  if 0 ≤ j && j < length then .ok j.toNat else .error .position

/-- The matrix of the arcs; it has as many rows and columns as there are arcs. -/
def Graph.matrix (g : Graph) : Outcome (List (List Int)) := do
  let n := g.arcs.length
  g.arcs.foldlM (fun m (p, q) => do
    let i ← position n (p - 1)
    let j ← position n (q - 1)
    return m.modify i fun row => row.set j 1) (List.replicate n (List.replicate n 0))

/-! ## Attacks -/

def Graph.factsAt (g : Graph) (marks : List Int) : Outcome (List Fact) := do
  let places := (marks.zip (List.range marks.length)).filter (·.1 == 1)
  places.mapM fun (_, i) => do return (← nth g.vertices (i : Nat)).fact

/-- What an attack gains: the last fact that its vertex leads to, or else what the attack before it
gains. -/
def Graph.gainOf (g : Graph) (m : List (List Int)) (place : Int) (before : Option Fact) :
    Outcome (Option Fact) := do
  if m.isEmpty then return before
  match (← g.factsAt (← nth m place)).getLast? with
  | some f => return some f
  | none => return before

def Graph.needsOf (g : Graph) (m : List (List Int)) (place : Int) : Outcome (List Fact) := do
  g.factsAt (← m.mapM fun row => nth row place)

def Graph.attacksFrom (g : Graph) (m : List (List Int)) (before : Option Fact) :
    List Vertex → Outcome (List Exploit)
  | [] => .ok []
  | v :: rest =>
    if v.kind = some "AND" then do
      let gain? ← g.gainOf m v.place before
      let needs ← g.needsOf m v.place
      let action := (← nth g.vertices v.place).fact
      let gain ← orFault .unset gain?
      return ⟨v.place, action, needs, gain⟩ :: (← g.attacksFrom m gain? rest)
    else g.attacksFrom m before rest

def Graph.attacks (g : Graph) (m : List (List Int)) : Outcome (List Exploit) :=
  g.attacksFrom m none g.vertices

def Graph.conditions (g : Graph) : List Vertex := g.vertices.filter (·.kind ≠ some "AND")

end Arena.Attack
