/-
The profiles that searches with recall go through. At each complexity the strategies are listed before the first profile
is examined, which never fails and does not look at the model that was read last. So a search whose steps keep that
model examines one list of profiles, which the draws determine, until one is accepted.
-/
import Arena.Proofs.Natural.RecallSearch

namespace Arena.Natural

open Drawing

variable {t : Task} {ss : List (List Strategy)} {m : Model} {tree : Unfolding} {height : Int}

namespace Guard

theorem gives_expressions (bound : Int) (props : List String) : (expressions bound props).Gives fun _ => True := by
  have hsequences : ∀ parts, (sequences parts ["."] bound).Gives fun _ => True := by
    intro parts
    exact (gives_mapM (fun k => gives_extend (by simp) (k + 1) none) _).bind fun _ _ => gives_pure trivial
  exact (gives_conditions props (by simp) bound).bind fun _ _ => (hsequences _).bind fun _ _ => gives_pure trivial

theorem Growth.all_eq_pure {g : Growth} (h : g.bound = 1) : g.all = pure (Text.distinct g.parts) := by
  have hrange : List.range g.bound.toNat = [0] := by rw [h]; rfl
  unfold all
  rw [hrange, List.mapM_cons, List.mapM_nil, extend_one]
  simp

theorem exists_expressions_eq_pure (props : List String) : ∃ guards, expressions 1 props = pure guards := by
  unfold expressions conditions sequences
  rw [Growth.all_eq_pure rfl, pure_bind]
  dsimp only
  rw [Growth.all_eq_pure rfl]
  exact ⟨_, rfl⟩

end Guard

theorem Task.load_of_withRecall {source formula : String} (h : withRecall source formula = .ok t) :
    Model.load .plain source = .ok t.model ∧ t.actions.length ≤ t.agents.length := by
  obtain ⟨m, hload, hstart⟩ := bind_eq_ok.1 h
  rw [(of_start hstart).1]
  exact ⟨hload, length_actions hstart⟩

namespace Recall

def offersAt (t : Task) (i : Int) : Drawing (List Profile) := do return profiles (← strategiesDrawn t i)

theorem offersAt_eq {i : Int} (h : strategiesDrawn t i = pure ss) : offersAt t i = pure (profiles ss) := by
  rw [offersAt, h, pure_bind]

section Offers

variable (ht : t.actions.length ≤ t.agents.length)

include ht

theorem exists_stages (i : Int) (guards : List String) :
    ∃ r, stagesFrom Guard.storyComplexity i 0 (ruleTable t.actionLists guards) (List.replicate t.agents.length []) =
      .ok r :=
  exists_stagesFrom Guard.storyComplexity i _ (by simpa [ruleTable, Task.actionLists] using ht)

theorem gives_strategiesDrawn (i : Int) : (strategiesDrawn t i).Gives fun _ => True := by
  refine (Guard.gives_expressions i t.model.props).bind fun guards _ => ?_
  obtain ⟨r, hr⟩ := exists_stages ht i guards
  exact (gives_lift (P := fun _ => True) hr trivial).bind fun _ _ => gives_pure trivial

theorem gives_offersAt (i : Int) : (offersAt t i).Gives fun _ => True :=
  (gives_strategiesDrawn ht i).bind fun _ _ => gives_pure trivial

/-! ## The first complexity -/

theorem exists_strategiesDrawn_eq_pure : ∃ ss, strategiesDrawn t 1 = pure ss := by
  obtain ⟨guards, hguards⟩ := Guard.exists_expressions_eq_pure t.model.props
  obtain ⟨r, hr⟩ := exists_stages ht 1 guards
  unfold strategiesDrawn
  rw [hguards, pure_bind, hr]
  exact ⟨r.1, rfl⟩

theorem strategiesDrawn_eq (h : (strategiesDrawn t 1).outcome {} = .ok ss) : strategiesDrawn t 1 = pure ss := by
  obtain ⟨ss', hss'⟩ := exists_strategiesDrawn_eq_pure ht
  rw [hss'] at h
  cases h
  exact hss'

/-! ## Searches that keep a property of the model -/

end Offers

namespace Searching

variable {α β : Type} {J : Model → Prop} {x : Searching α} {y : Drawing α} {k : α → Searching β}

/-- From every model with a property, a search comes to what a drawing comes to, and leaves such a model when it
succeeds. -/
def Follows (J : Model → Prop) (x : Searching α) (y : Drawing α) : Prop :=
  ∀ m, J m → ∀ d, match y.run.run d with
    | (.ok a, d') => ∃ m', (x.run m).run.run d = (.ok (a, m'), d') ∧ J m'
    | (.error f, d') => (x.run m).run.run d = (.error f, d')

theorem follows_pure (a : α) : Follows J (pure a) (pure a) := fun m hm _ => ⟨m, rfl, hm⟩

theorem follows_lift (y : Drawing α) : Follows J (liftM y : Searching α) y := by
  intro m hm d
  have hrun := run_lift y m d
  rcases hy : y.run.run d with ⟨r, d'⟩
  rw [hy] at hrun
  cases r with
  | error f => exact hrun
  | ok a => exact ⟨m, hrun, hm⟩

theorem follows_outcome (x : Outcome α) : Follows J (liftM x : Searching α) (liftM x) := follows_lift (liftM x)

theorem Follows.bind {l : α → Drawing β} (h : Follows J x y) (hk : ∀ a, Follows J (k a) (l a)) :
    Follows J (x >>= k) (y >>= l) := by
  intro m hm d
  have hx := h m hm d
  rw [ExceptT.run_bind, StateT.run_bind]
  rcases hy : y.run.run d with ⟨r, d₁⟩
  rw [hy] at hx
  cases r with
  | error f => exact bind_error hx
  | ok a =>
    obtain ⟨m₁, hrun, hm₁⟩ := hx
    rw [bind_ok hrun]
    exact hk a m₁ hm₁ d₁

theorem Follows.bind_lift {y : Outcome α} {l : α → Outcome β} (h : Follows J x (liftM y))
    (hk : ∀ a, y = .ok a → Follows J (k a) (liftM (l a))) : Follows J (x >>= k) (liftM (y >>= l)) := by
  intro m hm d
  have hx := h m hm d
  cases y with
  | error f => exact bind_error hx
  | ok a =>
    obtain ⟨m₁, hrun, hm₁⟩ := hx
    rw [bind_ok hrun]
    exact hk a rfl m₁ hm₁ d

theorem Follows.bind_map {γ : Type} {y : Outcome γ} {f : γ → α} {l : γ → Outcome β} (h : Follows J x (liftM (y.map f)))
    (hk : ∀ c, Follows J (k (f c)) (liftM (l c))) : Follows J (x >>= k) (liftM (y >>= l)) := by
  cases y with
  | error e => exact h.bind_lift (y := .error e) (l := fun _ => .error e) nofun
  | ok c => exact h.bind_lift (y := .ok (f c)) (l := fun _ => l c) fun a ha => Except.ok.inj ha ▸ hk c

theorem Follows.map {y : Outcome α} (h : Follows J x (liftM y)) (f : α → β) :
    Follows J (x >>= fun a => pure (f a)) (liftM (y.map f)) := by
  exact h.bind_lift fun a _ => follows_pure (f a)

theorem Follows.firstAccepted {test : β → Searching (Option α)} {judge : β → Drawing (Option α)} :
    ∀ bs : List β, (∀ b ∈ bs, Follows J (test b) (judge b)) →
      Follows J (Natural.firstAccepted test bs) (Natural.firstAccepted judge bs)
  | [], _ => follows_pure none
  | b :: bs, h => by
    rw [List.forall_mem_cons] at h
    refine h.1.bind fun found => ?_
    cases found with
    | none => exact Follows.firstAccepted bs h.2
    | some a => exact follows_pure (some a)

theorem Follows.climb {level : Int → Searching (Option α)} {level' : Int → Drawing (Option α)}
    (h : ∀ i, Follows J (level i) (level' i)) :
    ∀ (n : Nat) (i : Int), Follows J (Natural.climb level n i) (Natural.climb level' n i)
  | 0, _ => follows_pure none
  | n + 1, i => by
    refine (h i).bind fun found => ?_
    cases found with
    | none => exact Follows.climb h n (i + 1)
    | some a => exact follows_pure (some a)

theorem follows_strategiesAt (t : Task) (i : Int) : Follows J (strategiesAt t i) (strategiesDrawn t i) := by
  rw [strategiesAt_eq]
  exact follows_lift _

theorem follows_unfold_bind (htree : Unfolding.ofModel m m.states height = .ok tree) {k : Unfolding → Searching α}
    (hk : Follows (· = m) (k tree) y) : Follows (· = m) (unfold height >>= k) y := by
  rintro x rfl d
  have hrun := run_unfold height x d
  rw [htree] at hrun
  rw [bind_ok hrun]
  exact hk x rfl d

theorem follows_onTree (tree : Unfolding) {step : Step α} (hkeeps : Keeps (· = m) (fun _ => True) step) :
    Follows (· = m) (onTree tree step)
      (liftM ((step.run.run ⟨m, tree⟩).1.map fun a => (a, (step.run.run ⟨m, tree⟩).2.tree))) := by
  rintro x rfl d
  rcases hstep : step.run.run ⟨x, tree⟩ with ⟨r, s⟩
  cases r with
  | error f => exact run_onTree_error hstep d
  | ok a => exact ⟨s.model, run_onTree_ok hstep d, (hkeeps.apply rfl trivial hstep).1⟩

theorem Follows.outcome {y : Drawing α} (h : Follows J x y) (hm : J m) (d : Draws) :
    Drawing.outcome (x.run' m) d = y.outcome d := by
  have hx := h m hm d
  rw [outcome_run', Drawing.outcome]
  rcases hy : y.run.run d with ⟨r, d'⟩
  rw [hy] at hx
  cases r with
  | error f =>
    rw [hx]
    rfl
  | ok a =>
    obtain ⟨m', hrun, -⟩ := hx
    rw [hrun]
    rfl

/-- A search with steps that keep the model of its task is one among the profiles that are offered. -/
theorem follows_search
    (htree : Unfolding.ofModel t.model t.model.states height = .ok tree)
    {test : Unfolding → Int → Profile → Searching (Option Finding)} {judge : Int × Profile → Outcome (Option Finding)}
    (h : ∀ i p, Follows (· = t.model) (test tree i p) (liftM (judge (i, p)))) :
    Follows (· = t.model) (search t height test) (searchOffered t (offersAt t) judge) := by
  refine (Follows.climb (fun i => ?_) _ _).bind fun found => ?_
  · refine follows_unfold_bind htree ?_
    simp only [examine_nil, offersAt, bind_assoc]
    exact (follows_strategiesAt t i).bind fun ss => Follows.firstAccepted (profiles ss) fun p _ => h i p
  · cases found with
    | none => exact follows_pure _
    | some f => exact follows_pure _

end Searching

end Recall

end Arena.Natural
