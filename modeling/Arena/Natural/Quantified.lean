/-
Formulas that quantify over natural strategies: some agents choose, others answer. The two checks
differ in when the universal agents answer: after each existential profile that fails, or after all
of them.
-/
import Arena.Formula.NatSL
import Arena.Natural.Recall

namespace Arena.Natural.Quantified

open Recall

def height : Int := 3

/-- The setting of the checks: once a quantified formula has been read, all formulas are read with its
tokens. -/
def setting (source : String) : Setting := ⟨.natSL, source, none⟩

def test (source : String) (t : Task) (tree : Unfolding) (p : Profile) :
    Searching (Bool × Unfolding) := do
  let (holds, tree) ← onTree tree (verdict (setting source) height t.formula (p.map some))
  return (holds == some true, tree)

/-! ## Answers at once -/

/-- Prunes one tree by one universal profile after the other until the formula fails; answers whether
it fails, and the tree. -/
def failsOn (source : String) (t : Task) (ss : List (List Strategy)) (tree : Unfolding) :
    Searching (Bool × Unfolding) := do
  let next (p : Profile) : StateT Unfolding Searching (Option Unit) := do
    let (holds, tree) ← test source t (← get) p
    set tree
    return if holds then none else some ()
  let (failure, tree) ← (examine next ss []).run tree
  return (failure.isSome, tree)

def answersFrom (source : String) (t : Task) : Nat → Int → Unfolding → Searching Bool
  | 0, _, _ => return true
  | n + 1, i, tree => do
    let (fails, tree) ← failsOn source t (← strategiesAt t i) tree
    if fails then return false else answersFrom source t n (i + 1) tree

def answers (source formula : String) (tree : Unfolding) : Searching Bool := do
  let t ← task source formula
  answersFrom source t t.bound.toNat 1 tree

def alternated (source formula : String) : Drawing (Option Bool) :=
  (do
    let (es, us) ← NatSL.separated formula
    let e ← nth es 0
    let u ← nth us 0
    let t ← task source e
    let level (i : Int) : Searching (Option Unit) := do
      let tree ← unfold height
      examine (fun p => do
        let (holds, tree) ← test source t tree p
        let holds ← if holds then pure true else answers source u tree
        return if holds then some () else none) (← strategiesAt t i) []
    match ← climb level t.bound.toNat 1 with
    | some _ => return none
    | none => return some false
    : Searching (Option Bool)).run' {}

/-! ## Answers after all -/

/-- Examines profiles until one holds; answers whether one does, and the trees of those that
failed. -/
def failures (source : String) (t : Task) (tree : Unfolding) (ss : List (List Strategy)) :
    Searching (Bool × List Unfolding) := do
  let next (p : Profile) : StateT (List Unfolding) Searching (Option Unit) := do
    let (holds, pruned) ← test source t tree p
    if holds then return some ()
    modify (pruned :: ·)
    return none
  let (success, trees) ← (examine next ss []).run []
  return (success.isSome, trees.reverse)

/-- Tries the complexities from `i` on, `n` of them, until a profile holds; answers the trees of those
that failed. -/
def failuresFrom (source : String) (t : Task) : Nat → Int → Searching (Bool × List Unfolding)
  | 0, _ => return (false, [])
  | n + 1, i => do
    let tree ← unfold height
    let (found, here) ← failures source t tree (← strategiesAt t i)
    if found then return (true, [])
    let (found, later) ← failuresFrom source t n (i + 1)
    return (found, here ++ later)

def holdsUnderAll (source : String) (t : Task) (tree : Unfolding) (ss : List (List Strategy)) :
    Searching Bool := do
  let next (p : Profile) : Searching (Option Unit) := do
    let (holds, _) ← test source t tree p
    return if holds then none else some ()
  return (← examine next ss []).isNone

def answeredOnSome (source formula : String) : List Unfolding → Searching Bool
  | [] => return false
  | tree :: rest => do
    let t ← task source formula
    if ← holdsUnderAll source t tree (← strategiesAt t t.bound) then return true
    answeredOnSome source formula rest

/-- Whether some existential profile holds by itself or, if none does, the tree of one of them stands
against all answers. -/
def sequential (source formula : String) : Drawing Bool :=
  (do
    let (es, us) ← NatSL.separated formula
    let (_, normal) ← NatSL.normalize formula
    let f ← orFault .stop (← NatSL.parse normal)
    let e ← nth es 0
    let t ← task source e
    let (found, trees) ← failuresFrom source t t.bound.toNat 1
    if found then return true
    let u ← nth us 0
    let agents ← orFault .unset f.universalAgents.toOption
    if agents.isEmpty then return false
    answeredOnSome source u trees
    : Searching Bool).run' {}

end Arena.Natural.Quantified
