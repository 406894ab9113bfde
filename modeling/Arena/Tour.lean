/-
Tours: what the languages print about fixed formulas of their own, in the forms that the library
knows.
-/
import Arena.Formula.NatSL
import Arena.Natural.Heading

namespace Arena.Tour

open Text

def line (caption : String) (d : Datum) : String := caption ++ " " ++ d.display ++ "\n"

/-! ## Linear time -/

def linearFormulas : List String := ["G(p->Fq)", "Xp", "pUq", "!(Fr)"]

def linear : Outcome String := do
  return String.join (← linearFormulas.mapM fun s => do
    let f := toDatum (← Formula.parse .ltl .ltl .missing s)
    return line "Parsing della formula:" (.text s) ++ line "Risultato del parsing:" f ++
      line "Risultato:" f ++ repeated "-" 40 ++ "\n")

/-! ## Headings -/

def headedFormulas : List String :=
  ["<\x7b1,2\x7d,4>Xa", "!<\x7b3\x7d,2>Fq", "<\x7b1,2,3\x7d,5>G(r → p)", "<\x7b1\x7d,1>X(p ∧ q)"]

def headings : String :=
  String.join (headedFormulas.map fun s =>
    "NatATL: " ++ s ++ " -> ATL: " ++ Natural.Heading.toAlternating s ++ "\n")

/-! ## Quantified strategies -/

def sides (s : String) : Outcome String := do
  let (es, us) ← NatSL.separated s
  let show_ (name missing : String) : List String → String
    | f :: _ => "Formule NatATL " ++ name ++ " generate: " ++ f ++ "\n"
    | [] => "Nessuna formula NatATL " ++ missing ++ " generata.\n"
  return show_ "esistenziali" "esistenziale" es ++ show_ "universali" "universale" us

def normalForm (s : String) : Outcome (Bool × String × NatSL) := do
  let (negated, normal) ← NatSL.normalize s
  let f ← orFault .shape (← NatSL.parse normal)
  f.checkBindings
  return (negated, normal, f)

def quantified : Outcome String := do
  let first := "E\x7b3\x7dxA\x7b4\x7dy:(x,1)(y,2)Fa"
  let second := "E\x7b3\x7dxE\x7b4\x7dyA\x7b2\x7dz:(x,1)(y,2)(z,3)Fa"
  let plain := "ExAy:(x,1)(y,2)Fa"
  let (_, normal, f) ← normalForm plain
  let (_, normal1, f1) ← normalForm first
  let (negated, normal2, f2) ← normalForm second
  let parts := [
    line "Formula:" (.text first), ← sides first, "\n", line "Formula:" (.text second), ← sides second,
    line "Formula:" (.text plain),
    line "Formule NatATL generate:" (toDatum (← NatSL.coalitionFormulas plain)), ← sides plain,
    line "Formula Normalizzata:" (.text normal), line "Formula1 Normalizzata:" (.text normal1),
    line "Formula1 Normalizzata:" (.text normal2), line "Formula Parsata:" (toDatum f),
    line "Formula1 Parsata:" (toDatum f), line "Formula2 Parsata:" (toDatum f),
    line "Formula Skolemizzata:" (toDatum f.skolemize),
    line "Formula1 Skolemizzata:" (toDatum f1.skolemize),
    line "Formula2 Skolemizzata:" (toDatum f2.skolemize),
    line "Numero di Agenti:" (toDatum (← f.agentCount)),
    line "Agenti Esistenziali:" (toDatum (← f.agentsOf true)),
    line "Agenti Universali:" (toDatum (← f.agentsOf false)),
    line "Numero di Agenti Universali" (toDatum (← f.agentsOf false).length),
    line "Operatore Temporale e Proposizione:" (.text (← f.temporal)),
    line "CTL Formula:" (.text (← f.toBranching negated))]
  return String.join parts

end Arena.Tour
