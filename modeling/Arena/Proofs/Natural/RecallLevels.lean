/-
Which tree each level of a search with recall works on: the first one on that of the task's model, each later one on
that of the model that the level before keeps.
-/
import Arena.Proofs.Natural.RecallSearch

namespace Arena.Natural

open Unfolding

variable {x m m' : Model} {formula : String} {tree : Unfolding} {p : Profile} {d d' : Draws} {α β : Type}
  {found : Option Finding} {i : Int} {y : Model} {s s' : Scene}

theorem Step.run_bind_congr {x : Step α} (h : x.run.run s = x.run.run s') (k : α → Step β) :
    (x >>= k).run.run s = (x >>= k).run.run s' := by
  rw [ExceptT.run_bind, StateT.run_bind, h]
  rfl

namespace Recall

open Checker Step

variable {set : Setting} {n : Nat}

/-! ## The model that plans leave -/

/-- Plans that begin with a condition read the model of the text first, whatever was read before. -/
theorem run_applyPlans_condition (hload : Model.load .plain set.source = .ok m) {r : Rule}
    (hstory : Story.isStory r.condition = false) (rules : Strategy) (rest : List Plan) (height index : Int)
    (flag : Bool) (s : Scene) : (applyPlans set (pure true) height index (some (r :: rules) :: rest) flag).run.run s =
      (applyPlans set (pure true) height index (some (r :: rules) :: rest) flag).run.run { s with model := m } := by
  have hlegitimate : (isLegitimate set r.condition r.action index).run.run s =
      (isLegitimate set r.condition r.action index).run.run { s with model := m } := by
    unfold isLegitimate
    rw [hstory]
    rw [if_neg Bool.false_ne_true, run_bind_ok (run_read hload s), run_bind_ok (run_read hload { s with model := m })]
  exact run_bind_congr (run_bind_congr hlegitimate _) _

/-! ## The model that a verdict leaves -/

theorem isBlankFormula_toBranching {branching : String} (h : Heading.toBranching (some formula) = .ok branching) :
    isBlankFormula branching = false := by
  have hmem : 'A' ∈ branching.toList := by
    obtain ⟨text, -, h⟩ := bind_eq_ok.1 h
    dsimp only at h
    split at h
    · cases h
    · cases h
      split <;> simp
  exact Text.isEmpty_trim_of_mem hmem (by decide)

/-- What the test of a profile leaves as the model read last. If a rule was refused, it is the model of the text or the
one before, and the model of the text if the profile begins with a condition. Otherwise it is unfolded to what the
profile has left of the tree, unless the numbers of its nodes are too long. -/
structure Leaves (set : Setting) (m : Model) (tree : Unfolding) (p : Profile) (before after : Model) (admitted : Bool)
    (s : Scene) : Prop where
  run : (applyPlans set (pure true) 4 1 (p.map some) false).run.run ⟨before, tree⟩ = (.ok admitted, s)
  refused : admitted = false → after = m ∨ after = before
  condition : admitted = false → ∀ r rules rest, p = (r :: rules) :: rest → Story.isStory r.condition = false →
    after = m
  rejected : admitted = true → s.tree.nodes.length ≤ 10 ^ Text.maxDigits →
    ofModel after after.states 4 = .ok (s.tree.renamed.anew none [])

theorem Leaves.unfold_ne {before after : Model} (h : Leaves set m tree p before after true s)
    (hs : s.tree.Grown m.props 3) (hroot : s.tree.state = "s0") (hlimit : s.tree.nodes.length ≤ 10 ^ Text.maxDigits)
    {other : Unfolding} (hother : other.nodes.length ≠ s.tree.nodes.length) :
    ofModel after after.states 4 ≠ .ok other := by
  intro heq
  have hsame : s.tree.renamed.anew none [] = other := Except.ok.inj ((h.rejected rfl hlimit).symm.trans heq)
  rw [← hsame, hs.renamed.length_nodes_anew, length_nodes_renamed hroot] at hother
  exact hother rfl

section Verdict

variable (h : Stage set.source m) (hs : Staged m.props s)

include h hs

theorem leaves_of_verdict (hblank : isBlankFormula formula = false) {holds? : Option Bool}
    (hrun : (verdict set 4 formula (p.map some)).run.run s = (.ok holds?, s')) :
    s'.model.Regular ∧ s'.model.props = m.props ∧ ∃ admitted s₁, Leaves set m s.tree p s.model s'.model admitted s₁ ∧
      s₁.tree.Grown m.props 3 ∧ s₁.tree.state = "s0" := by
  obtain ⟨admitted, s₁, happly, hrun⟩ := run_bind_eq_ok hrun
  have hs₁ := h.staged_applyPlans hs happly
  cases admitted with
  | false =>
    obtain ⟨-, rfl⟩ := Prod.mk.inj hrun
    refine ⟨hs₁.model, hs₁.known, false, s₁, ⟨happly, fun _ => ?_, fun _ r rules rest hp hstory => ?_, nofun⟩,
      hs₁.tree, hs₁.root⟩
    · have hkeeps := keeps_applyPlans (M := fun x => x = m ∨ x = s.model) h.load (.inl rfl) stable_any (respects_pure true)
      exact ((hkeeps 4 1 (p.map some) false).apply (.inr rfl) trivial happly).1
    · subst hp
      rw [List.map_cons, run_applyPlans_condition h.load hstory] at happly
      have hkeeps := keeps_applyPlans (M := (· = m)) h.load rfl stable_any (respects_pure true)
      exact (Keeps.apply (hkeeps _ _ _ _) rfl trivial happly).1
  | true =>
    obtain ⟨text, s₂, htext, hrun⟩ := run_bind_eq_ok hrun
    obtain ⟨report, s₃, hcheck, hrun⟩ := run_bind_eq_ok hrun
    obtain ⟨-, rfl⟩ := Prod.mk.inj hrun
    have hheight : 3 ≤ 4 := by decide
    rcases run_prunedText h hs₁ hheight with ⟨e, -, he⟩ | ⟨text', m', htext', hload, hrenders, hregular, hunfold⟩
    · cases he.symm.trans htext
    · cases htext'.symm.trans htext
      rw [run_check hload hblank] at hcheck
      obtain ⟨-, rfl⟩ := Prod.mk.inj hcheck
      exact ⟨hregular, hrenders.known, true, s₁, ⟨happly, nofun, nofun, fun _ => hunfold⟩, hs₁.tree, hs₁.root⟩

end Verdict

/-! ## Levels -/

theorem climb_succ {μ : Type → Type} [Monad μ] [LawfulMonad μ] (level : Int → μ (Option α)) :
    ∀ (n : Nat) (i : Int), climb level (n + 1) i = do
      match ← climb level n i with
      | some a => pure (some a)
      | none => level (i + n)
  | 0, i => by
    rw [climb, pure_bind, Int.natCast_zero, Int.add_zero]
    conv_rhs => rw [← bind_pure (level i)]
    refine bind_congr fun found => ?_
    cases found <;> rfl
  | n + 1, i => by
    have hlast : i + ((n + 1 : Nat) : Int) = i + 1 + n := by omega
    conv_rhs => rw [climb, bind_assoc, hlast]
    refine bind_congr fun found => ?_
    cases found with
    | none => exact climb_succ level n (i + 1)
    | some a => rw [pure_bind]

/-- The test of a profile at a level, on a tree. -/
def attempt (reader : Formula.Logic) (source : String) (t : Task) (tree : Unfolding) (i : Int) (p : Profile) :
    Searching (Option Finding) := do
  let (holds, _) ← onTree tree (verdict ⟨reader, source, none⟩ 4 t.formula (p.map some))
  if holds != some true then return none
  return some { satisfied := .bool true, bound? := some i, profile? := some p }

def level (reader : Formula.Logic) (source : String) (t : Task) (i : Int) : Searching (Option Finding) := do
  let tree ← unfold 4
  examine (attempt reader source t tree i) (← strategiesAt t i) []

def findByLevels (reader : Formula.Logic) (source formula : String) : Drawing Finding :=
  (do
    let t ← task source formula
    match ← climb (level reader source t) t.bound.toNat 1 with
    | some f => return f
    | none => return { satisfied := .bool false, bound? := some t.bound }
    : Searching Finding).run' {}

namespace Searching

variable {test : β → Searching (Option α)}

theorem run_climb_succ {level : Int → Searching (Option α)}
    (h : ((climb level (n + 1) i).run m).run.run d = (.ok (none, m'), d')) :
    ∃ m₁ d₁, ((climb level n i).run m).run.run d = (.ok (none, m₁), d₁) ∧
      ((level (i + n)).run m₁).run.run d₁ = (.ok (none, m'), d') := by
  rw [climb_succ] at h
  obtain ⟨found, m₁, d₁, hbefore, hlast⟩ := exists_run_bind h
  cases found with
  | none => exact ⟨m₁, d₁, hbefore, hlast⟩
  | some a => cases hlast

theorem run_firstAccepted_concat {bs : List β} {b : β}
    (h : ((firstAccepted test (bs ++ [b])).run m).run.run d = (.ok (none, m'), d')) :
    ∃ m₁ d₁, ((firstAccepted test bs).run m).run.run d = (.ok (none, m₁), d₁) ∧
      ((test b).run m₁).run.run d₁ = (.ok (none, m'), d') := by
  rw [firstAccepted_append] at h
  obtain ⟨found, m₁, d₁, hbefore, hlast⟩ := exists_run_bind h
  cases found with
  | some a => cases hlast
  | none =>
    obtain ⟨found, m₂, d₂, hb, hrest⟩ := exists_run_bind hlast
    cases found with
    | some a => cases hrest
    | none =>
      cases hrest
      exact ⟨m₁, d₁, hbefore, hb⟩

theorem agree_firstAccepted {J : Model → Prop} (h : ∀ b, Searching.Agree J (fun _ => True) (test b) (test b)) :
    ∀ bs : List β, Searching.Agree J (fun _ => True) (firstAccepted test bs) (firstAccepted test bs)
  | [] => agree_pure trivial
  | b :: bs => by
    refine (h b).bind fun found _ => ?_
    cases found with
    | none => exact agree_firstAccepted h bs
    | some a => exact agree_pure trivial

theorem run_onTree_eq_ok {step : Step α} {a : α} {tree' : Unfolding}
    (h : ((onTree tree step).run m).run.run d = (.ok ((a, tree'), m'), d')) :
    step.run.run ⟨m, tree⟩ = (.ok a, ⟨m', tree'⟩) := by
  rcases hr : step.run.run ⟨m, tree⟩ with ⟨r, s⟩
  cases r with
  | error e =>
    rw [run_onTree_error hr] at h
    cases h
  | ok b =>
    rw [run_onTree_ok hr] at h
    cases h
    rfl

end Searching

/-- The models that a search keeps: the model of the task, and the model that a tree comes to when a profile is admitted
there. The tree is that of a model kept before. -/
inductive Reached (set : Setting) (m : Model) : Model → Prop
  | start : Reached set m m
  | admitted {y before after : Model} {tree : Unfolding} {p : Profile} {s : Scene} (hy : Reached set m y)
      (htree : ofModel y y.states 4 = .ok tree) (hbefore : Reached set m before)
      (h : Leaves set m tree p before after true s) : Reached set m after

/-- A model kept, which can be unfolded. -/
structure Kept (set : Setting) (m x : Model) : Prop where
  regular : x.Regular
  props : x.props = m.props
  reached : Reached set m x

structure Worked (set : Setting) (m : Model) (tree : Unfolding) : Prop where
  grown : tree.Grown m.props 3
  root : tree.state = "s0"
  unfolded : ∃ y, Reached set m y ∧ ofModel y y.states 4 = .ok tree

theorem Kept.worked (hx : Kept set m x) (htree : ofModel x x.states 4 = .ok tree) : Worked set m tree := by
  obtain ⟨hgrown, hroot⟩ := grown_build hx.regular hx.regular.first htree
  exact ⟨hx.props ▸ hgrown, hroot, x, hx.reached, htree⟩

section Levels

open Searching

variable {source : String} (h : Stage source m) {t : Task} (hblank : isBlankFormula t.formula = false)
  (reader : Formula.Logic)

include h hblank

theorem leaves_of_attempt (htree : Worked ⟨reader, source, none⟩ m tree)
    (hx : Kept ⟨reader, source, none⟩ m x)
    (hrun : ((attempt reader source t tree i p).run x).run.run d = (.ok (found, y), d')) :
    Kept ⟨reader, source, none⟩ m y ∧ ∃ admitted s, Leaves ⟨reader, source, none⟩ m tree p x y admitted s ∧
      s.tree.Grown m.props 3 ∧ s.tree.state = "s0" := by
  obtain ⟨⟨holds, tree'⟩, y', d₁, htest, hrun⟩ := exists_run_bind hrun
  have hset : Stage (Setting.source ⟨reader, source, none⟩) m := h
  have hscene : Staged m.props ⟨x, tree⟩ := ⟨htree.grown, htree.root, hx.regular, hx.props⟩
  obtain ⟨hregular, hprops, admitted, s, hleaves, hs⟩ := leaves_of_verdict hset hscene hblank (run_onTree_eq_ok htest)
  obtain rfl : y' = y := by
    dsimp only at hrun
    split at hrun
    · cases hrun
      rfl
    · cases hrun
      rfl
  have hreached : Reached ⟨reader, source, none⟩ m y' := by
    obtain ⟨z, hz, hunfold⟩ := htree.unfolded
    cases admitted with
    | true => exact .admitted hz hunfold hx.reached hleaves
    | false =>
      rcases hleaves.refused rfl with rfl | rfl
      · exact .start
      · exact hx.reached
  exact ⟨⟨hregular, hprops, hreached⟩, admitted, s, hleaves, hs⟩

theorem agree_attempts (htree : Worked ⟨reader, source, none⟩ m tree) (i : Int) (ps : List Profile) :
    Searching.Agree (Kept ⟨reader, source, none⟩ m) (fun _ => True) (firstAccepted (attempt reader source t tree i) ps)
      (firstAccepted (attempt reader source t tree i) ps) := by
  refine agree_firstAccepted (fun p => Searching.agree_refl fun x hx d found y d' hrun => ?_) ps
  exact ⟨(leaves_of_attempt h hblank reader htree hx hrun).1, trivial⟩

theorem agree_level (i : Int) :
    Searching.Agree (Kept ⟨reader, source, none⟩ m) (fun _ => True) (level reader source t i)
      (level reader source t i) := by
  have hunfold : Searching.Agree (Kept ⟨reader, source, none⟩ m) (Worked ⟨reader, source, none⟩ m) (unfold 4)
      (unfold 4) := by
    refine Searching.agree_refl fun x hx d tree y d' hrun => ?_
    obtain ⟨htree, rfl, -⟩ := run_unfold_eq_ok hrun
    exact ⟨hx, hx.worked htree⟩
  refine hunfold.bind fun tree htree => (agree_strategiesAt t i).bind fun strategies _ => ?_
  rw [examine_nil]
  exact agree_attempts h hblank reader htree i (profiles strategies)

/-- Levels keep the model of the task, or what profiles have left of trees of earlier levels. -/
theorem kept_of_climb (hrun : ((climb (level reader source t) n 1).run m).run.run d = (.ok (found, x), d')) :
    Kept ⟨reader, source, none⟩ m x := by
  have hstart : Kept ⟨reader, source, none⟩ m m := ⟨h.regular, rfl, .start⟩
  have hclimb := Searching.Agree.climb (Q := fun _ => True) trivial (agree_level h hblank reader) n 1 m hstart d
  exact (hclimb.2 found x d' hrun).1

omit h hblank in
theorem run_level_eq_none
    (hrun : ((level reader source t i).run x).run.run d = (.ok (none, y), d')) :
    ∃ tree sss d₁, ofModel x x.states 4 = .ok tree ∧
      ((strategiesAt t i).run x).run.run d = (.ok (sss, x), d₁) ∧
      ((firstAccepted (attempt reader source t tree i) (profiles sss)).run x).run.run d₁ = (.ok (none, y), d') := by
  obtain ⟨tree, x₁, d₁, hunfold, hlevel⟩ := exists_run_bind hrun
  obtain ⟨htree, rfl, rfl⟩ := run_unfold_eq_ok hunfold
  obtain ⟨sss, x₂, d₂, hstrategies, hexamine⟩ := exists_run_bind hlevel
  obtain ⟨rfl, -⟩ := (agree_strategiesAt (J := (· = x₁)) t i x₁ rfl d₁).2 sss x₂ d₂ hstrategies
  rw [examine_nil] at hexamine
  exact ⟨tree, sss, d₂, htree, hstrategies, hexamine⟩

end Levels

/-! ## A model -/

/-- The text of a model with one agent, who can change the state and so let `p` hold. -/
def switchLayout : Model.Layout := { barrenLayout with labels := ["0", "1"] }

def switch : Model := { barren with labels := [[.num 0], [.num 1]] }

theorem switch_load : Model.load .plain switchLayout.text = .ok switch := Model.load_join (by decide) (by decide)

theorem stage_switch : Stage switchLayout.text switch := ⟨⟨switchLayout, by decide, rfl⟩, switch_load, by decide, rfl⟩

def switchTask : Task := ⟨switch, "AXp", 2, [1], [("actions_agent1", ["A"])]⟩

theorem withRecall_switch : Task.withRecall switchLayout.text "<\x7b1\x7d,2>Xp" = .ok switchTask := by
  have hactions : switch.actions [1] = .ok [("agent1", ["A"])] := by decide +kernel
  exact bind_eq_ok.2 ⟨switch, switch_load, Task.start_eq (by decide) hactions (by decide)⟩

theorem passes_next_renamed (props : List String) (f : Formula) (t : Unfolding) :
    passes props "X" f t.renamed = passes props "X" f t := by
  obtain ⟨n, -, -, hchildren⟩ := renumbered_number 1 t
  have hall : ∀ {ts us : List Unfolding}, List.Forall₂ Renumbered ts us →
      us.all (satisfies props f) = ts.all (satisfies props f) := by
    intro ts us h
    induction h with
    | nil => rfl
    | cons hu _ ih =>
      obtain ⟨_, hlabels, -⟩ := hu
      rw [List.all_cons, ih, satisfies, hlabels]
      rfl
  have hsame : t.renamed.children.all (satisfies props f) = t.children.all (satisfies props f) := by
    rw [renamed, hchildren]
    exact hall (forall₂_numberAll t.children n)
  exact congrArg ((atomsOf f).all props.contains && ·) hsame

/-- The rule of the first complexity is admitted in the tree of the model, and leaves of it the path on which the agent
idles. -/
theorem exists_applyPlans_switch : ∃ tree idle, ofModel switch switch.states 4 = .ok tree ∧
    (applyPlans ⟨.ctl, switchLayout.text, none⟩ (pure true) 4 1 [some [⟨"p", "A"⟩]] false).run.run ⟨switch, tree⟩ =
      (.ok true, ⟨switch, idle⟩) ∧
    passes switch.props "X" (.atom "p") idle = false ∧ idle.nodes.length ≤ 10 ^ Text.maxDigits ∧
    tree.nodes.length ≠ idle.nodes.length := by
  obtain ⟨tree, idle, htree, happly, htest⟩ := exists_applyPlans ⟨.ctl, switchLayout.text, none⟩ switch 4
    [some [⟨"p", "A"⟩]] (fun t idle => passes switch.props "X" (.atom "p") idle = false ∧ idle.nodes.length = 4 ∧
      t.nodes.length = 15) (by decide +kernel)
  obtain ⟨hpasses, hleft, hnodes⟩ := of_decide_eq_true htest
  have hlimit : 4 ≤ 10 ^ Text.maxDigits := (Text.lt_pow_maxDigits (by decide)).le
  exact ⟨tree, idle, htree, happly, hpasses, hleft ▸ hlimit, by rw [hleft, hnodes]; decide⟩

theorem exists_run_switch {idle : Unfolding} (htree : ofModel switch switch.states 4 = .ok tree)
    (happly : (applyPlans ⟨.ctl, switchLayout.text, none⟩ (pure true) 4 1 [some [⟨"p", "A"⟩]] false).run.run
      ⟨switch, tree⟩ = (.ok true, ⟨switch, idle⟩))
    (hpasses : passes switch.props "X" (.atom "p") idle = false) : ∃ x,
      ((attempt .ctl switchLayout.text switchTask tree 1 [[⟨"p", "A"⟩]]).run switch).run.run {} = (.ok (none, x), {}) ∧
      ((climb (level .ctl switchLayout.text switchTask) 1 1).run switch).run.run {} = (.ok (none, x), {}) := by
  have hstage : Stage (Setting.source ⟨.ctl, switchLayout.text, none⟩) switch := stage_switch
  obtain ⟨hgrown, hroot⟩ := grown_build stage_switch.regular stage_switch.regular.first htree
  have hscene : Staged switch.props ⟨switch, tree⟩ := ⟨hgrown, hroot, stage_switch.regular, rfl⟩
  have hheight : 3 ≤ 4 := by decide
  obtain ⟨x, htest⟩ := run_testVerdict hstage hscene 4 hheight happly rfl
    (passes switch.props "X" (.atom "p"))
  rw [passes_next_renamed, hpasses, ← run_verdict hstage hscene rfl 4 hheight (o := "X") (k := .next) (by decide)
    Pruning.propositional_p] at htest
  have hattempt : ((attempt .ctl switchLayout.text switchTask tree 1 [[⟨"p", "A"⟩]]).run switch).run.run {} =
      (.ok (none, x), {}) := by
    unfold attempt
    exact Searching.bind_ok (Searching.run_onTree_ok htest {})
  have hunfold : ((unfold 4).run switch).run.run {} = (.ok (tree, switch), {}) := by
    rw [Searching.run_unfold, htree]
    rfl
  have hstrategies : ((strategiesAt switchTask 1).run switch).run.run {} = (.ok ([[[⟨"p", "A"⟩]]], switch), {}) :=
    run_strategiesAt_barren switch
  have hlevel : ((level .ctl switchLayout.text switchTask 1).run switch).run.run {} = (.ok (none, x), {}) := by
    unfold level
    rw [Searching.bind_ok hunfold, Searching.bind_ok hstrategies, examine_nil]
    exact Searching.bind_ok hattempt
  refine ⟨x, hattempt, ?_⟩
  rw [climb, Searching.bind_ok hlevel]
  rfl

/-! ## The trees that levels work on -/

/-- The first level of a search works on the tree of its model, and each later one on the tree of a model kept, which is
the model of the search or what an admitted profile has left of the tree of an earlier level. What a level keeps is up
to its last profile: if that is admitted and rejected, the next level works on what it has left of the tree, which is
another one if a node is gone. -/
theorem exists_leaves_of_climb {source : String} {m : Model} (h : Stage source m) (reader : Formula.Logic)
    {formula : String} {t : Task} {d₀ d : Draws} (htask : ((task source formula).run {}).run.run d₀ = (.ok (t, m), d))
    (k : Nat) {x : Model} {d' : Draws}
    (hrun : ((climb (level reader source t) (k + 1) 1).run m).run.run d = (.ok (none, x), d')) :
    find reader source formula = findByLevels reader source formula ∧
    ∃ y tree sss d₁ d₂, ((climb (level reader source t) k 1).run m).run.run d = (.ok (none, y), d₁) ∧
      (k = 0 → y = m) ∧ Reached ⟨reader, source, none⟩ m y ∧ ofModel y y.states 4 = .ok tree ∧
      ((strategiesAt t (1 + k)).run y).run.run d₁ = (.ok (sss, y), d₂) ∧ (profiles sss = [] → x = y) ∧
      ∀ ps p, profiles sss = ps ++ [p] → ∃ z d₃ admitted s,
        ((firstAccepted (attempt reader source t tree (1 + k)) ps).run y).run.run d₂ = (.ok (none, z), d₃) ∧
        Leaves ⟨reader, source, none⟩ m tree p z x admitted s ∧
        (admitted = true → s.tree.nodes.length ≤ 10 ^ Text.maxDigits →
          ∀ other, other.nodes.length ≠ s.tree.nodes.length → ofModel x x.states 4 ≠ .ok other) := by
  have hblank := isBlankFormula_toBranching (run_task h.load htask).2
  obtain ⟨y, d₁, hbefore, hlevel⟩ := Searching.run_climb_succ hrun
  have hy := kept_of_climb h hblank reader hbefore
  obtain ⟨tree, sss, d₂, htree, hstrategies, hprofiles⟩ := run_level_eq_none reader hlevel
  refine ⟨rfl, y, tree, sss, d₁, d₂, hbefore, ?_, hy.reached, htree, hstrategies, fun hnone => ?_, fun ps p hps => ?_⟩
  · rintro rfl
    cases hbefore
    rfl
  · rw [hnone] at hprofiles
    cases hprofiles
    rfl
  · rw [hps] at hprofiles
    obtain ⟨z, d₃, hps, hp⟩ := Searching.run_firstAccepted_concat hprofiles
    have hworked := hy.worked htree
    have hz := ((agree_attempts h hblank reader hworked (1 + k) ps y hy d₂).2 none z d₃ hps).1
    obtain ⟨-, admitted, s, hleaves, hs, hroot⟩ := leaves_of_attempt h hblank reader hworked hz hp
    refine ⟨z, d₃, admitted, s, hps, hleaves, ?_⟩
    rintro rfl hlimit other hother
    exact hleaves.unfold_ne hs hroot hlimit hother

theorem exists_leaves_of_climb_switch : ∃ x tree s,
    ((climb (level .ctl switchLayout.text switchTask) 1 1).run switch).run.run {} = (.ok (none, x), {}) ∧
      ofModel switch switch.states 4 = .ok tree ∧
      Leaves ⟨.ctl, switchLayout.text, none⟩ switch tree [[⟨"p", "A"⟩]] switch x true s ∧
      ofModel x x.states 4 ≠ .ok tree := by
  obtain ⟨tree, idle, htree, happly, hpasses, hlimit, hfewer⟩ := exists_applyPlans_switch
  obtain ⟨x, -, hrun⟩ := exists_run_switch htree happly hpasses
  obtain ⟨-, y, tree', sss, d₁, d₂, hbefore, -, -, htree', hstrategies, -, hlast⟩ :=
    exists_leaves_of_climb stage_switch .ctl (run_task_withRecall withRecall_switch {} {}) 0 hrun
  cases hbefore
  cases htree.symm.trans htree'
  cases (run_strategiesAt_barren switch).symm.trans hstrategies
  obtain ⟨z, d₃, admitted, s, hnone, hleaves, hother⟩ := hlast [] [[⟨"p", "A"⟩]] rfl
  cases hnone
  cases happly.symm.trans hleaves.run
  exact ⟨x, tree, _, hrun, htree, hleaves, hother rfl hlimit tree hfewer⟩

/-- Behind a first level that finds nothing, the search works on another tree than that of its model. -/
theorem unfold_behind_level_ne : ((task switchLayout.text "<\x7b1\x7d,2>Xp").run {}).run.run {} =
      (.ok (switchTask, switch), {}) ∧
    ∃ x, ((climb (level .ctl switchLayout.text switchTask) 1 1).run switch).run.run {} = (.ok (none, x), {}) ∧
      ofModel x x.states 4 ≠ ofModel switch switch.states 4 := by
  obtain ⟨tree, idle, htree, happly, hpasses, hlimit, hfewer⟩ := exists_applyPlans_switch
  obtain ⟨x, hattempt, hrun⟩ := exists_run_switch htree happly hpasses
  have hkept : Kept ⟨.ctl, switchLayout.text, none⟩ switch switch := ⟨stage_switch.regular, rfl, .start⟩
  have hblank : isBlankFormula switchTask.formula = false := by decide
  obtain ⟨-, admitted, s, hleaves, hs, hroot⟩ :=
    leaves_of_attempt stage_switch hblank .ctl (hkept.worked htree) hkept hattempt
  cases happly.symm.trans hleaves.run
  refine ⟨run_task_withRecall withRecall_switch {} {}, x, hrun, ?_⟩
  rw [htree]
  exact hleaves.unfold_ne hs hroot hlimit hfewer

end Recall

end Arena.Natural
