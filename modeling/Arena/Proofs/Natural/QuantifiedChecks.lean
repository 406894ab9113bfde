/-
The two checks of quantified formulas. Both look for an existential profile that holds by itself, or whose tree stands
against the answers of the universal agents: on the tree itself, at once, or on copies, behind all existential profiles.
So they agree where the answers leave the trees.
-/
import Arena.Proofs.Natural.Answers

namespace Arena.Natural

open List

variable {p : Profile} {ss : List (List Strategy)} {α : Type} {f : α → Outcome Bool} {a : Option Bool} {u : String}
  {s : Scene}

namespace Quantified

open Recall Searching

variable {β : Type} {source formula : String} {te tu t : Task} {tree : Unfolding}

/-! ## Checks of profiles -/

/-- Whether an existential profile holds by itself, or its tree stands against answers that are tried on it in turn. -/
def holdsInTurn (source : String) (te tu : Task) (us : List Profile) (tree : Unfolding) (p : Profile) :
    Outcome Bool := do
  let (accepted, s) ← trial source te p ⟨te.model, tree⟩
  if accepted then return true else return (← inTurn source tu us ⟨tu.model, s.tree⟩).1

/-- Whether an existential profile holds, and the trees of those that were tried before. -/
def failing (source : String) (t : Task) (tree : Unfolding) : List Profile → Outcome (Bool × List Unfolding)
  | [] => .ok (false, [])
  | p :: ps => do
    let (accepted, s) ← trial source t p ⟨t.model, tree⟩
    if accepted then return (true, [])
    let (found, trees) ← failing source t tree ps
    return (found, s.tree :: trees)

/-- Whether a tree stands against answers that are each tried on a copy of it. -/
def holdsOnCopies (source : String) (t : Task) (us : List Profile) (tree : Unfolding) : Outcome Bool :=
  us.allM fun u => do return (← trial source t u ⟨t.model, tree⟩).1

/-- Whether an existential profile holds by itself, or otherwise the tree of one stands against answers on copies. -/
def holdsAfterAll (source : String) (te tu : Task) (ps us : List Profile) (tree : Unfolding) : Outcome Bool := do
  let (found, trees) ← failing source te tree ps
  if found then return true else trees.anyM (holdsOnCopies source tu us)

theorem anyM_eq_ok : ∀ {l : List α} {b : Bool}, l.anyM f = .ok b →
    (b = true ↔ ∃ a ∈ l, f a = .ok true)
  | [], b, h => by
    cases h
    simp
  | a :: l, b, h => by
    obtain ⟨here, ha, h⟩ := bind_eq_ok.1 h
    cases here with
    | true =>
      cases h
      simp [ha]
    | false =>
      rw [anyM_eq_ok h]
      simp [ha]

theorem allM_eq_ok_true : ∀ {l : List α},
    l.allM f = .ok true ↔ ∀ a ∈ l, f a = .ok true
  | [] => ⟨fun _ a ha => (not_mem_nil ha).elim, fun _ => rfl⟩
  | a :: l => by
    rw [allM_cons, forall_mem_cons, ← allM_eq_ok_true, bind_eq_ok]
    constructor
    · rintro ⟨holds, ha, h⟩
      cases holds with
      | true => exact ⟨ha, h⟩
      | false => cases h
    · rintro ⟨ha, h⟩
      exact ⟨true, ha, h⟩

section Profiles

variable {ps us : List Profile}

theorem accepts_iff : Accepts source t p s ↔ (do return (← trial source t p s).1 : Outcome Bool) = .ok true := by
  unfold Accepts
  cases trial source t p s with
  | error f => simp
  | ok r => simp [Prod.ext_iff]

theorem holdsOnCopies_iff : holdsOnCopies source t us tree = .ok true ↔
    ∀ u ∈ us, Accepts source t u ⟨t.model, tree⟩ := by
  simp only [accepts_iff]
  exact allM_eq_ok_true

theorem holdsInTurn_iff : holdsInTurn source te tu us tree p = .ok true ↔
    ∃ s, trial source te p ⟨te.model, tree⟩ = .ok (true, s) ∨
      trial source te p ⟨te.model, tree⟩ = .ok (false, s) ∧ Stands source tu us ⟨tu.model, s.tree⟩ := by
  unfold holdsInTurn
  rw [bind_eq_ok]
  constructor
  · rintro ⟨⟨accepted, s⟩, htrial, h⟩
    cases accepted with
    | true => exact ⟨s, .inl htrial⟩
    | false =>
      obtain ⟨⟨holds, s'⟩, hturn, h⟩ := bind_eq_ok.1 h
      cases h
      exact ⟨s, .inr ⟨htrial, exists_inTurn_iff.1 ⟨s', hturn⟩⟩⟩
  · rintro ⟨s, htrial | ⟨htrial, hstands⟩⟩
    · exact ⟨(true, s), htrial, rfl⟩
    · obtain ⟨s', hturn⟩ := exists_inTurn_iff.2 hstands
      exact ⟨(false, s), htrial, bind_eq_ok.2 ⟨_, hturn, rfl⟩⟩

theorem atOnce_iff (h : (ps.anyM (holdsInTurn source te tu us tree)).map
      (fun holds => if holds then none else some false) = .ok a) :
    a = none ↔ ∃ p ∈ ps, holdsInTurn source te tu us tree p = .ok true := by
  cases hany : ps.anyM (holdsInTurn source te tu us tree) with
  | error f =>
    rw [hany] at h
    cases h
  | ok holds =>
    rw [hany] at h
    cases h
    rw [← anyM_eq_ok hany]
    cases holds <;> simp

theorem failing_spec : ∀ {ps : List Profile} {found : Bool} {trees : List Unfolding},
    failing source t tree ps = .ok (found, trees) →
      (found = true ↔ ∃ p ∈ ps, Accepts source t p ⟨t.model, tree⟩) ∧
      (found = false → ∀ T, T ∈ trees ↔ ∃ p ∈ ps, ∃ s, trial source t p ⟨t.model, tree⟩ = .ok (false, s) ∧ s.tree = T)
  | [], found, trees, h => by
    cases h
    simp
  | p :: ps, found, trees, h => by
    obtain ⟨⟨accepted, s⟩, htrial, h⟩ := bind_eq_ok.1 h
    cases accepted with
    | true =>
      cases h
      exact ⟨⟨fun _ => ⟨p, mem_cons_self, s, htrial⟩, fun _ => rfl⟩, fun h => by cases h⟩
    | false =>
      obtain ⟨⟨found', trees'⟩, hrest, h⟩ := bind_eq_ok.1 h
      cases h
      obtain ⟨hfound, htrees⟩ := failing_spec hrest
      have hnot : ¬ Accepts source t p ⟨t.model, tree⟩ := by
        rintro ⟨s', hs'⟩
        cases htrial.symm.trans hs'
      refine ⟨by simp [hfound, hnot], fun hnone T => ?_⟩
      rw [mem_cons, htrees hnone T]
      simp [htrial, eq_comm]

theorem holdsAfterAll_iff {b : Bool} (h : holdsAfterAll source te tu ps us tree = .ok b) : b = true ↔
    ∃ p ∈ ps, ∃ s, trial source te p ⟨te.model, tree⟩ = .ok (true, s) ∨
      trial source te p ⟨te.model, tree⟩ = .ok (false, s) ∧ ∀ u ∈ us, Accepts source tu u ⟨tu.model, s.tree⟩ := by
  obtain ⟨⟨found, trees⟩, hfailing, h⟩ := bind_eq_ok.1 h
  obtain ⟨hfound, htrees⟩ := failing_spec hfailing
  cases found with
  | true =>
    cases h
    obtain ⟨p, hp, s, hs⟩ := hfound.1 rfl
    exact ⟨fun _ => ⟨p, hp, s, .inl hs⟩, fun _ => rfl⟩
  | false =>
    rw [anyM_eq_ok h]
    simp only [htrees rfl, holdsOnCopies_iff]
    constructor
    · rintro ⟨_, ⟨p, hp, s, hs, rfl⟩, hall⟩
      exact ⟨p, hp, s, .inr ⟨hs, hall⟩⟩
    · rintro ⟨p, hp, s, hs | ⟨hs, hall⟩⟩
      · cases hfound.2 ⟨p, hp, s, hs⟩
      · exact ⟨s.tree, ⟨p, hp, s, hs, rfl⟩, hall⟩

/-- With a single existential profile that fails, the answers on its tree decide. -/
theorem checks_single (h : trial source te p ⟨te.model, tree⟩ = .ok (false, s)) {b b' : Bool} {s' : Scene}
    (hturn : inTurn source tu us ⟨tu.model, s.tree⟩ = .ok (b, s'))
    (hcopies : holdsOnCopies source tu us s.tree = .ok b') :
    [p].anyM (holdsInTurn source te tu us tree) = .ok b ∧ holdsAfterAll source te tu [p] us tree = .ok b' := by
  have hholds : holdsInTurn source te tu us tree p = .ok b := bind_eq_ok.2 ⟨_, h, bind_eq_ok.2 ⟨_, hturn, rfl⟩⟩
  have hfailing : failing source te tree [p] = .ok (false, [s.tree]) :=
    bind_eq_ok.2 ⟨_, h, bind_eq_ok.2 ⟨_, rfl, rfl⟩⟩
  constructor
  · refine bind_eq_ok.2 ⟨b, hholds, ?_⟩
    cases b <;> rfl
  · refine bind_eq_ok.2 ⟨_, hfailing, bind_eq_ok.2 ⟨b', hcopies, ?_⟩⟩
    cases b' <;> rfl

end Profiles

/-! ## Runs -/

theorem run_drawn {x : Drawing α} {a : α} (h : x = pure a) (d : Draws) : x.run.run d = (.ok a, d) := by
  rw [h]
  rfl

/-- What a search comes to that does not draw, from whatever model it starts. -/
theorem outcome_of_follows {x : Searching α} {y : Outcome α} (h : Follows (fun _ => True) x (liftM y))
    (m : Model) (d : Draws) : Drawing.outcome (x.run' m) d = y := h.outcome trivial d

/-- A trial that reads the model does not depend on the model that was read last. -/
theorem follows_test (hp : Plain p) (tree : Unfolding) :
    Follows (fun _ => True) (test source t tree p)
      (liftM ((trial source t p ⟨t.model, tree⟩).map fun r => (r.1, r.2.tree))) := by
  intro x _ d
  have hrun := run_test source t tree p x d
  rw [trial_plain hp x t.model tree] at hrun
  cases htrial : trial source t p ⟨t.model, tree⟩ with
  | error f =>
    rw [htrial] at hrun
    exact hrun
  | ok r =>
    rw [htrial] at hrun
    exact ⟨r.2.model, hrun, trivial⟩

theorem follows_firstAccepted {J : Model → Prop} {test : β → Searching (Option Unit)} {f : β → Outcome Bool} :
    ∀ bs : List β,
      (∀ b ∈ bs, Follows J (test b) (liftM ((f b).map fun holds => if holds then some () else none))) →
      Follows J (firstAccepted test bs) (liftM ((bs.anyM f).map fun holds => if holds then some () else none))
  | [], _ => follows_pure none
  | b :: bs, h => by
    rw [forall_mem_cons] at h
    rw [anyM_cons, map_bind_outcome]
    refine h.1.bind_map fun holds => ?_
    cases holds with
    | false => exact follows_firstAccepted bs h.2
    | true => exact follows_pure (some ())

section Answers

variable (ht : Task.withRecall source formula = .ok t) (hbound : t.bound = 1) (hss : strategiesDrawn t 1 = pure ss)

include ht hbound hss

theorem follows_answers (tree : Unfolding) : Follows (fun _ => True) (answers source formula tree)
    (liftM (inTurn source t (profiles ss) ⟨t.model, tree⟩ >>= fun r => .ok r.1)) := by
  intro x _ d
  have hfails := run_failsOn source t ss tree t.model d
  have hlevels : t.bound.toNat = 1 := by rw [hbound]; rfl
  rw [answers, bind_ok (run_task_withRecall ht x d), hlevels, answersFrom,
    bind_ok (run_strategiesAt (run_drawn hss d) t.model)]
  cases hturn : inTurn source t (profiles ss) ⟨t.model, tree⟩ with
  | error f =>
    rw [hturn] at hfails
    exact bind_error hfails
  | ok r =>
    rw [hturn] at hfails
    obtain ⟨holds, s⟩ := r
    refine ⟨s.model, (bind_ok hfails).trans ?_, trivial⟩
    cases holds <;> rfl

end Answers

/-- One existential profile of the check with answers at once. -/
def attempt (source : String) (te : Task) (u : String) (tree : Unfolding) (p : Profile) : Searching (Option Unit) := do
  let (holds, tree) ← test source te tree p
  let holds ← if holds then pure true else answers source u tree
  return if holds then some () else none

theorem follows_attempt (te : Task) (hu : Task.withRecall source u = .ok tu) (hbound : tu.bound = 1)
    (hss : strategiesDrawn tu 1 = pure ss) (hp : Plain p) (tree : Unfolding) :
    Follows (fun _ => True) (attempt source te u tree p)
      (liftM ((holdsInTurn source te tu (profiles ss) tree p).map fun holds => if holds then some () else none)) := by
  rw [holdsInTurn, map_bind_outcome]
  refine (follows_test hp tree).bind_map fun r => ?_
  obtain ⟨accepted, s⟩ := r
  cases accepted with
  | true => exact follows_pure (some ())
  | false => exact (follows_answers hu hbound hss s.tree).map _

/-- One existential profile of the check with answers after all. -/
def gather (source : String) (t : Task) (tree : Unfolding) (p : Profile) :
    StateT (List Unfolding) Searching (Option Unit) := do
  let (holds, pruned) ← test source t tree p
  if holds then return some ()
  modify (pruned :: ·)
  return none

theorem run_gather (t : Task) (tree : Unfolding) (p : Profile) (trees : List Unfolding) :
    (gather source t tree p).run trees = test source t tree p >>= fun r =>
      pure (if r.1 then (some (), trees) else (none, r.2 :: trees)) := by
  unfold gather
  rw [StateT.run_bind, StateT.run_monadLift, bind_assoc]
  refine bind_congr fun r => ?_
  obtain ⟨accepted, tree'⟩ := r
  cases accepted <;> simp

theorem follows_gather (t : Task) (tree : Unfolding) : ∀ (ps : List Profile) (trees : List Unfolding),
    (∀ p ∈ ps, Plain p) → Follows (fun _ => True) ((firstAccepted (gather source t tree) ps).run trees)
      (liftM ((failing source t tree ps).map fun r => (if r.1 then some () else none, r.2.reverse ++ trees)))
  | [], trees, _ => follows_pure (none, trees)
  | p :: ps, trees, hplain => by
    rw [forall_mem_cons] at hplain
    rw [firstAccepted, StateT.run_bind, run_gather, bind_assoc, failing, map_bind_outcome]
    refine (follows_test hplain.1 tree).bind_map fun r => ?_
    obtain ⟨accepted, s⟩ := r
    rw [pure_bind]
    cases accepted with
    | true => exact follows_pure (some (), trees)
    | false =>
      have hrest := follows_gather t tree ps (s.tree :: trees) hplain.2
      revert hrest
      change _ → Follows _ _ (liftM ((failing source t tree ps >>= fun r => .ok (r.1, s.tree :: r.2)).map _))
      cases failing source t tree ps with
      | error f => exact id
      | ok r => simp [Except.map, bind, Except.bind]

theorem follows_failures (h : ∀ p ∈ profiles ss, Plain p) :
    Follows (fun _ => True) (failures source t tree ss) (liftM (failing source t tree (profiles ss))) := by
  have hjudge : failing source t tree (profiles ss) =
      ((failing source t tree (profiles ss)).map fun r =>
          ((if r.1 then some () else none : Option Unit), r.2.reverse ++ [])).map fun r => (r.1.isSome, r.2.reverse) := by
    cases failing source t tree (profiles ss) with
    | error f => rfl
    | ok r => cases hr : r.1 <;> simp [Except.map, hr, Prod.ext_iff]
  have hfailures : failures source t tree ss = (examine (gather source t tree) ss []).run [] >>= fun r =>
      pure (r.1.isSome, r.2.reverse) := rfl
  rw [hfailures, examine_nil, hjudge]
  exact (follows_gather t tree (profiles ss) [] h).map _

theorem follows_holdsUnderAll (h : ∀ p ∈ profiles ss, Plain p) :
    Follows (fun _ => True) (holdsUnderAll source t tree ss)
      (liftM (holdsOnCopies source t (profiles ss) tree)) := by
  -- All answers are accepted if there is none that is not.
  have hcopies : holdsOnCopies source t (profiles ss) tree =
      (((profiles ss).anyM fun u => trial source t u ⟨t.model, tree⟩ >>= fun r => .ok !r.1).map
          fun fails => (if fails then some () else none : Option Unit)).map Option.isNone := by
    have hnot : (fun u => (fun holds => !holds) <$> (do return (← trial source t u ⟨t.model, tree⟩).1 : Outcome Bool)) =
        fun u => trial source t u ⟨t.model, tree⟩ >>= fun r => .ok !r.1 := by
      funext u
      cases trial source t u ⟨t.model, tree⟩ <;> rfl
    rw [holdsOnCopies, allM_eq_not_anyM_not, hnot]
    cases (profiles ss).anyM fun u => trial source t u ⟨t.model, tree⟩ >>= fun r => .ok !r.1 with
    | error f => rfl
    | ok fails => cases fails <;> rfl
  have hunder : holdsUnderAll source t tree ss = examine (fun p => do
      let r ← test source t tree p
      return if r.1 then none else some ()) ss [] >>= fun failure => pure failure.isNone := rfl
  rw [hunder, examine_nil, hcopies]
  refine (follows_firstAccepted (profiles ss) fun p hp => ?_).map _
  rw [map_bind_outcome]
  refine (follows_test (h p hp) tree).bind_map fun r => ?_
  cases hr : r.1 <;> exact follows_pure _

theorem follows_answeredOnSome (ht : Task.withRecall source u = .ok t) (hbound : t.bound = 1)
    (hss : strategiesDrawn t 1 = pure ss) (h : ∀ p ∈ profiles ss, Plain p) :
    ∀ trees : List Unfolding, Follows (fun _ => True) (answeredOnSome source u trees)
      (liftM (trees.anyM (holdsOnCopies source t (profiles ss)))) := by
  intro trees
  induction trees with
  | nil => exact follows_pure false
  | cons tree trees ih =>
    intro x _ d
    rw [answeredOnSome, bind_ok (run_task_withRecall ht x d), hbound,
      bind_ok (run_strategiesAt (run_drawn hss d) t.model)]
    refine (follows_holdsUnderAll h).bind_lift (fun holds _ => ?_) t.model trivial d
    cases holds with
    | true => exact follows_pure true
    | false => exact ih

/-! ## Checks -/

theorem lift_bind {x : Outcome α} {a : α} (h : x = .ok a) (k : α → Searching β) :
    (liftM x : Searching α) >>= k = k a := by
  rw [h]
  rfl

theorem nth_first (x : α) (xs : List α) : nth (x :: xs) 0 = .ok x := (nth_eq_ok (i := 0)).2 rfl

/-- The existential profiles of one complexity in the check with answers at once. -/
def level (source : String) (te : Task) (u : String) (i : Int) : Searching (Option Unit) := do
  let tree ← unfold height
  examine (attempt source te u tree) (← strategiesAt te i) []

theorem alternated_eq (source formula : String) : alternated source formula = (do
    let (es, us) ← NatSL.separated formula
    let e ← nth es 0
    let u ← nth us 0
    let t ← task source e
    match ← climb (level source t u) t.bound.toNat 1 with
    | some _ => return none
    | none => return some false : Searching (Option Bool)).run' {} := rfl

/-- A quantified formula on a model, whose existential and first universal agents choose at the first complexity, with
their tasks and the tree of the model. Each variable is bound to an agent. -/
structure Posed (source formula : String) (te tu : Task) (tree : Unfolding) : Prop where
  tasks : ∃ e es u us, NatSL.separated formula = .ok (e :: es, u :: us) ∧ Task.withRecall source e = .ok te ∧
    Task.withRecall source u = .ok tu
  bindings : ∃ negated normal f a as, NatSL.normalize formula = .ok (negated, normal) ∧
    NatSL.parse normal = .ok (some f) ∧ f.universalAgents = .ok (a :: as)
  bounds : te.bound = 1 ∧ tu.bound = 1
  unfolded : Unfolding.ofModel te.model te.model.states height = .ok tree

theorem Posed.run_unfold (h : Posed source formula te tu tree) (d : Draws) :
    ((unfold height).run te.model).run.run d = (.ok (tree, te.model), d) := by
  rw [Searching.run_unfold, h.unfolded]
  rfl

section Checks

variable (h : Posed source formula te tu tree) {ps us : List (List Strategy)} (hps : strategiesDrawn te 1 = pure ps)
  (hus : strategiesDrawn tu 1 = pure us) (hplain : ∀ p ∈ profiles ps, Plain p) (d : Draws)

include h hps hus hplain

theorem outcome_alternated : (alternated source formula).outcome d =
    ((profiles ps).anyM (holdsInTurn source te tu (profiles us) tree)).map fun holds =>
      if holds then none else some false := by
  obtain ⟨e, es, u, us', hseparated, he, hu⟩ := h.tasks
  have hlevels : te.bound.toNat = 1 := by rw [h.bounds.1]; rfl
  rw [alternated_eq, lift_bind hseparated]
  dsimp only
  rw [lift_bind (nth_first e es), lift_bind (nth_first u us')]
  refine outcome_of_follows (fun x _ d => ?_) {} d
  rw [bind_ok (run_task_withRecall he x d), hlevels, climb, level, bind_assoc, bind_assoc,
    bind_ok (h.run_unfold d), bind_assoc, bind_ok (run_strategiesAt (run_drawn hps d) te.model), examine_nil]
  refine (follows_firstAccepted (profiles ps) fun p hp => follows_attempt te hu h.bounds.2 hus (hplain p hp) tree).bind_map
    (fun holds => ?_) te.model trivial d
  cases holds <;> exact follows_pure _

theorem outcome_sequential (hanswers : ∀ u ∈ profiles us, Plain u) :
    (sequential source formula).outcome d = holdsAfterAll source te tu (profiles ps) (profiles us) tree := by
  obtain ⟨e, es, u, us', hseparated, he, hu⟩ := h.tasks
  obtain ⟨negated, normal, f, a, as, hnormal, hparse, hagents⟩ := h.bindings
  have hlevels : te.bound.toNat = 1 := by rw [h.bounds.1]; rfl
  unfold sequential
  rw [lift_bind hseparated]
  dsimp only
  rw [lift_bind hnormal]
  rw [lift_bind hparse, lift_bind (show orFault Fault.stop (some f) = .ok f from rfl), lift_bind (nth_first e es)]
  refine outcome_of_follows (fun x _ d => ?_) {} d
  rw [bind_ok (run_task_withRecall he x d), hlevels, failuresFrom, bind_assoc, bind_ok (h.run_unfold d),
    bind_assoc, bind_ok (run_strategiesAt (run_drawn hps d) te.model), bind_assoc]
  refine (follows_failures hplain).bind_lift (fun r _ => ?_) te.model trivial d
  obtain ⟨found, trees⟩ := r
  cases found with
  | true => exact follows_pure true
  | false =>
    simp only [failuresFrom, pure_bind, Bool.false_eq_true, if_false, append_nil, hagents]
    rw [lift_bind (nth_first u us')]
    exact follows_answeredOnSome hu h.bounds.2 hus hanswers trees

end Checks

theorem alternated_ne_true {d : Draws} (h : (alternated source formula).outcome d = .ok a) :
    a = none ∨ a = some false := by
  rw [alternated_eq, outcome_run'] at h
  generalize hrun : StateT.run (ExceptT.run (StateT.run _ _)) d = r at h
  obtain ⟨r, d'⟩ := r
  cases r with
  | error f => cases h
  | ok ax =>
    obtain ⟨a', x⟩ := ax
    cases h
    obtain ⟨_, _, _, -, hrun⟩ := exists_run_bind hrun
    obtain ⟨_, _, _, -, hrun⟩ := exists_run_bind hrun
    obtain ⟨_, _, _, -, hrun⟩ := exists_run_bind hrun
    obtain ⟨_, _, _, -, hrun⟩ := exists_run_bind hrun
    obtain ⟨found, _, _, -, hrun⟩ := exists_run_bind hrun
    cases found with
    | none =>
      cases hrun
      exact .inr rfl
    | some _ =>
      cases hrun
      exact .inl rfl

/-- What the two checks report, and when they agree. -/
structure Compared (source : String) (te tu : Task) (ps us : List Profile) (tree : Unfolding) (a : Option Bool)
    (b : Bool) : Prop where
  atOnce : a = none ↔ ∃ p ∈ ps, ∃ s, trial source te p ⟨te.model, tree⟩ = .ok (true, s) ∨
    trial source te p ⟨te.model, tree⟩ = .ok (false, s) ∧ Stands source tu us ⟨tu.model, s.tree⟩
  afterAll : b = true ↔ ∃ p ∈ ps, ∃ s, trial source te p ⟨te.model, tree⟩ = .ok (true, s) ∨
    trial source te p ⟨te.model, tree⟩ = .ok (false, s) ∧ ∀ u ∈ us, Accepts source tu u ⟨tu.model, s.tree⟩
  agree : (∀ p ∈ ps, ∀ s, trial source te p ⟨te.model, tree⟩ = .ok (false, s) → ∀ u ∈ us.dropLast, ∀ s',
      trial source tu u ⟨tu.model, s.tree⟩ = .ok (true, s') → s'.tree = s.tree) → (a = none ↔ b = true)

/-! ## A formula -/

theorem posed_fork : Posed forkLayout.text "E\x7b1\x7dxA\x7b1\x7dy:(x,2)(y,1)Fa" forkSecond forkFirst forkTree where
  tasks := ⟨_, [], _, [], (by decide +kernel), tasks_fork.2, tasks_fork.1⟩
  bindings := ⟨false, "E\x7b1\x7dxA\x7b1\x7dy:(x,2)(y,1)Fa",
    ⟨[⟨true, "x", 1⟩, ⟨false, "y", 1⟩], [("x", "2"), ("y", "1")], false, "a"⟩, _, _, by decide +kernel, by decide, rfl⟩
  bounds := ⟨rfl, rfl⟩
  unfolded := unfold_fork

theorem plain_forkFirst : ∀ p ∈ profiles [[[(⟨"a", "A"⟩ : Rule)], [⟨"a", "B"⟩]]], Plain p := by
  simp [profiles, Plain, show Story.isStory "a" = false by decide]

theorem plain_forkSecond : ∀ p ∈ profiles [[[(⟨"a", "C"⟩ : Rule)]]], Plain p := by
  simp [profiles, Plain, show Story.isStory "a" = false by decide]

theorem outcomes_fork :
    (alternated forkLayout.text "E\x7b1\x7dxA\x7b1\x7dy:(x,2)(y,1)Fa").outcome {} = .ok (some false) ∧
      (sequential forkLayout.text "E\x7b1\x7dxA\x7b1\x7dy:(x,2)(y,1)Fa").outcome {} = .ok true := by
  obtain ⟨sA, sB, hA, hB, hthen, hC⟩ := exists_trials_fork
  have hturn : inTurn forkLayout.text forkFirst [[[⟨"a", "A"⟩]], [[⟨"a", "B"⟩]]] ⟨forkFirst.model, forkTree⟩ =
      .ok (false, { sA with model := fork }) := (inTurn_accepted hA _).trans (inTurn_rejected hthen _)
  have hcopies : holdsOnCopies forkLayout.text forkFirst [[[⟨"a", "A"⟩]], [[⟨"a", "B"⟩]]] forkTree = .ok true := by
    refine holdsOnCopies_iff.2 fun u hu => ?_
    rcases mem_cons.1 hu with rfl | hu
    · exact ⟨sA, hA⟩
    · obtain rfl := mem_singleton.1 hu
      exact ⟨sB, hB⟩
  have hrefused : trial forkLayout.text forkSecond [[⟨"a", "C"⟩]] ⟨forkSecond.model, forkTree⟩ =
      .ok (false, ⟨fork, forkTree⟩) := hC
  have hsingle := checks_single hrefused hturn hcopies
  constructor
  · rw [outcome_alternated posed_fork strategiesDrawn_fork.2 strategiesDrawn_fork.1 plain_forkSecond]
    exact congrArg (Except.map _) hsingle.1
  · rw [outcome_sequential posed_fork strategiesDrawn_fork.2 strategiesDrawn_fork.1 plain_forkSecond {}
      plain_forkFirst]
    exact hsingle.2

/-! ## Agreement -/

/-- The two checks report the same value only if both report that the formula fails. With answers of the first
complexity the one succeeds where an existential profile holds by itself or its tree stands against the answers in turn,
and the other where it holds by itself or its tree stands against each answer on a copy. -/
theorem alternated_sequential (source formula : String) (d : Draws) :
    (∀ a b, (alternated source formula).outcome d = .ok a → (sequential source formula).outcome d = .ok b →
      (a = some b ↔ a = some false ∧ b = false)) ∧
    ∀ te tu tree, Posed source formula te tu tree → ∃ ps us, Recall.offersAt te 1 = pure ps ∧
      Recall.offersAt tu 1 = pure us ∧ ((∀ p ∈ ps, Plain p) → (∀ u ∈ us, Plain u) →
        (alternated source formula).outcome d = (ps.anyM (holdsInTurn source te tu us tree)).map
          (fun holds => if holds then none else some false) ∧
        (sequential source formula).outcome d = holdsAfterAll source te tu ps us tree ∧
        ∀ a b, (alternated source formula).outcome d = .ok a → (sequential source formula).outcome d = .ok b →
          Compared source te tu ps us tree a b) := by
  refine ⟨fun a b ha _ => ?_, fun te tu tree h => ?_⟩
  · rcases alternated_ne_true ha with rfl | rfl <;> simp [eq_comm]
  · obtain ⟨e, es, u, us', -, he, hu⟩ := h.tasks
    obtain ⟨ps, hps⟩ := exists_strategiesDrawn_eq_pure (Task.load_of_withRecall he).2
    obtain ⟨us, hus⟩ := exists_strategiesDrawn_eq_pure (Task.load_of_withRecall hu).2
    refine ⟨profiles ps, profiles us, offersAt_eq hps, offersAt_eq hus, fun hplain hanswers => ?_⟩
    have halternated := outcome_alternated h hps hus hplain d
    have hsequential := outcome_sequential h hps hus hplain d hanswers
    refine ⟨halternated, hsequential, fun a b ha hb => ?_⟩
    have hatOnce := atOnce_iff (halternated.symm.trans ha)
    simp only [holdsInTurn_iff] at hatOnce
    have hafterAll := holdsAfterAll_iff (hsequential.symm.trans hb)
    refine ⟨hatOnce, hafterAll, fun hleaves => ?_⟩
    rw [hatOnce, hafterAll]
    refine exists_congr fun p => and_congr_right fun hp => exists_congr fun s => or_congr_right <|
      and_congr_right fun hs => ?_
    exact stands_iff_forall hanswers (hleaves p hp s hs)

theorem compared_fork :
    Posed forkLayout.text "E\x7b1\x7dxA\x7b1\x7dy:(x,2)(y,1)Fa" forkSecond forkFirst forkTree ∧
    (∀ p ∈ profiles [[[(⟨"a", "C"⟩ : Rule)]]], Plain p) ∧
    (∀ u ∈ profiles [[[(⟨"a", "A"⟩ : Rule)], [⟨"a", "B"⟩]]], Plain u) ∧
    Compared forkLayout.text forkSecond forkFirst [[[⟨"a", "C"⟩]]] [[[⟨"a", "A"⟩]], [[⟨"a", "B"⟩]]] forkTree
      (some false) true := by
  obtain ⟨ps, us, hps, hus, hcompared⟩ :=
    (alternated_sequential forkLayout.text "E\x7b1\x7dxA\x7b1\x7dy:(x,2)(y,1)Fa" {}).2 _ _ _ posed_fork
  obtain rfl : _ = ps := pure_inj {} ((offersAt_eq strategiesDrawn_fork.2).symm.trans hps)
  obtain rfl : _ = us := pure_inj {} ((offersAt_eq strategiesDrawn_fork.1).symm.trans hus)
  refine ⟨posed_fork, plain_forkSecond, plain_forkFirst, ?_⟩
  exact (hcompared plain_forkSecond plain_forkFirst).2.2 _ _ outcomes_fork.1 outcomes_fork.2

/-- The check with answers at once reports that the formula fails where the other one reports that it holds. -/
theorem alternated_ne_sequential : ∃ source formula a b, (alternated source formula).outcome {} = .ok a ∧
    (sequential source formula).outcome {} = .ok b ∧ a = some false ∧ b = true :=
  ⟨_, _, _, _, outcomes_fork.1, outcomes_fork.2, rfl, rfl⟩

end Quantified

end Arena.Natural
