/-
Verdicts with recall. Rules prune a tree of bounded depth and never change what its nodes are, so what is left can
always be written into the text of the model. There a formula over all paths is checked as it is tested at the nodes. A
path that ends counts for nothing, and every path of a tree ends.
-/
import Arena.Natural.Recall
import Arena.Proofs.Natural.Refolding

namespace Arena.Natural

open Unfolding List Pruning Model

variable {β : Type} {α : Type} {s s' : Scene} {source : String} {m : Model} {height : Int} {within : Step Bool}
  {plans : List Plan} {children : List Unfolding} {l : Option (List Cell)} {k : Scene → Step α} {before : List String}
  {moves : List Move} {q old : String} {marked : Bool} {f : Unfolding → Unfolding × Outcome α} {r : Outcome α}
  {x : Step α}

/-! ## Masks -/

theorem mem_of_mem_kept {x : α} : ∀ {mask : List Bool} {xs : List α}, x ∈ kept mask xs → x ∈ xs
  | [], _, h => by rwa [kept] at h
  | _ :: _, [], h => by cases h
  | true :: mask, y :: xs, h => by
    rcases mem_cons.1 h with rfl | h
    · exact mem_cons_self
    · exact mem_cons_of_mem _ (mem_of_mem_kept h)
  | false :: mask, y :: xs, h => by
    exact mem_cons_of_mem _ (mem_of_mem_kept h)

theorem length_kept : ∀ (mask : List Bool) {xs : List α} {ys : List β}, xs.length = ys.length →
    (kept mask xs).length = (kept mask ys).length
  | [], xs, ys, h => by rwa [kept]
  | _ :: _, [], [], _ => rfl
  | true :: mask, x :: xs, y :: ys, h => by
    have hrest := length_kept mask (Nat.succ.inj h)
    exact congrArg Nat.succ hrest
  | false :: mask, x :: xs, y :: ys, h => length_kept mask (Nat.succ.inj h)

theorem kept_cons (mask : List Bool) (x : α) (xs : List α) :
    kept mask (x :: xs) = if mask.headD true then x :: kept mask.tail xs else kept mask.tail xs := by
  cases mask with
  | nil => simp [kept]
  | cons b mask => rfl

namespace Unfolding

variable {action : Option Move}

/-! ## Pruned trees -/

/-- Children of a tree with at most `n` levels below the root. -/
def Below (props : List String) (n : Nat) (c : Unfolding) : Prop := ∃ k, n = k + 1 ∧ Grown props k c

section Pruning

variable {props : List String} {n : Nat}

theorem Grown.cut (h : Grown props n (node q old action before l marked children moves)) (marked' : Bool)
    (mask : List Bool) {cs : List Unfolding} (hcs : ∀ c ∈ cs, Below props n c)
    (hlength : cs.length = (kept mask children).length) :
    Grown props n (node q old action before l marked' cs (kept mask moves)) := by
  refine grown_iff.2 ⟨⟨h.sound.row, fun move hmove => h.sound.moves move (mem_of_mem_kept hmove), ?_⟩, hcs⟩
  change (kept mask moves).length = cs.length
  rw [hlength]
  exact length_kept mask h.sound.aligned

/-- Changes those of some trees that a mask keeps, up to a fault. -/
def changeKept (change : Unfolding → Unfolding × Outcome Bool) :
    List Unfolding → List Bool → List Unfolding × Outcome Bool
  | [], _ => ([], .ok false)
  | t :: rest, mask =>
    if mask.headD true then
      match change t with
      | (t, .error f) => (t :: kept mask.tail rest, .error f)
      | (t, .ok here) =>
        let (ts, r) := changeKept change rest mask.tail
        (t :: ts, r.map (here || ·))
    else changeKept change rest mask.tail

theorem below_changeKept {change : Unfolding → Unfolding × Outcome Bool} : ∀ {ts : List Unfolding} (mask : List Bool),
    (∀ t ∈ ts, ∀ k, Grown props k t → Grown props k (change t).1) → (∀ c ∈ ts, Below props n c) →
    (∀ c ∈ (changeKept change ts mask).1, Below props n c) ∧
      (changeKept change ts mask).1.length = (kept mask ts).length
  | [], mask, _, _ => by
    rw [changeKept]
    cases mask <;> exact ⟨by simp, rfl⟩
  | t :: rest, mask, hchange, h => by
    obtain ⟨⟨k, hk, ht⟩, hrest⟩ := forall_mem_cons.1 h
    obtain ⟨hfirst, hlater⟩ := forall_mem_cons.1 hchange
    have hhere := hfirst k ht
    obtain ⟨hcs, hlength⟩ := below_changeKept mask.tail hlater hrest
    rw [changeKept, kept_cons]
    split
    · rcases hc : change t with ⟨t', r⟩
      rw [hc] at hhere
      cases r with
      | error f => exact ⟨forall_mem_cons.2 ⟨⟨k, hk, hhere⟩, fun c hc => hrest c (mem_of_mem_kept hc)⟩, rfl⟩
      | ok removed => exact ⟨forall_mem_cons.2 ⟨⟨k, hk, hhere⟩, hcs⟩, congrArg Nat.succ hlength⟩
    · exact ⟨hcs, hlength⟩

theorem Grown.changeKept (h : Grown props n (node q old action before l marked children moves))
    (change : Unfolding → Unfolding × Outcome Bool)
    (hchange : ∀ t ∈ children, ∀ k, Grown props k t → Grown props k (change t).1) (marked' : Bool) (mask : List Bool) :
    Grown props n (node q old action before l marked' (Unfolding.changeKept change children mask).1 (kept mask moves)) :=
  have hcut := below_changeKept mask hchange (grown_iff.1 h).2
  h.cut marked' mask hcut.1 hcut.2

variable (applies : String → Bool) (index : Int) (action : String)

theorem pruneKept_eq : ∀ (ts : List Unfolding) (mask : List Bool),
    pruneKept applies index action ts mask = changeKept (prune applies index action) ts mask
  | [], mask => by rw [pruneKept, changeKept]
  | t :: rest, mask => by
    rw [changeKept, ← pruneKept_eq rest mask.tail]
    exact pruneKept.eq_2 ..

theorem prunePathKept_eq (path : List String) : ∀ (ts : List Unfolding) (mask : List Bool),
    prunePathKept index action path ts mask = changeKept (prunePath index action path) ts mask
  | [], mask => by rw [prunePathKept, changeKept]
  | t :: rest, mask => by
    rw [changeKept, ← prunePathKept_eq path rest mask.tail]
    exact prunePathKept.eq_2 ..

theorem Grown.prune : ∀ {n : Nat} {t : Unfolding}, Grown props n t → Grown props n (t.prune applies index action).1
  | n, node q old by_ before l marked children moves, h => by
    have hcut := h.changeKept (Unfolding.prune applies index action) fun t ht k hk => hk.prune
    rw [Unfolding.prune]
    simp only [pruneKept_eq]
    split
    · split
      · exact h
      · exact hcut _ _
    · exact hcut _ []
termination_by _ t => sizeOf t
decreasing_by exact sizeOf_child ht

theorem Grown.prunePath : ∀ {n : Nat} (path : List String) {t : Unfolding}, Grown props n t →
    Grown props n (t.prunePath index action path).1
  | n, path, node q old by_ before l marked children moves, h => by
    rw [Unfolding.prunePath]
    simp only [prunePathKept_eq]
    split
    · split
      · exact h
      · exact h.changeKept _ (fun t ht k hk => hk.prunePath path.tail) _ _
    · exact h
termination_by _ _ t => sizeOf t
decreasing_by exact sizeOf_child ht

theorem unmarkedAll_eq (ts : List Unfolding) : unmarkedAll ts = ts.map unmarked := by
  induction ts with
  | nil => rw [unmarkedAll, map_nil]
  | cons t rest ih => rw [unmarkedAll, ih, map_cons]

theorem Grown.unmarked {n : Nat} {t : Unfolding} (h : Grown props n t) : Grown props n t.unmarked := by
  obtain ⟨q, old, by_, before, l, marked, children, moves⟩ := t
  rw [Unfolding.unmarked, unmarkedAll_eq]
  refine h.cut _ [] (forall_mem_map.2 fun c hc => ?_) (length_map _)
  obtain ⟨k, hk, hgrown⟩ := (grown_iff.1 h).2 c hc
  exact ⟨k, hk, hgrown.unmarked⟩
termination_by n
decreasing_by omega

/-! ## Roots -/

theorem state_prune (t : Unfolding) : (t.prune applies index action).1.state = t.state := by
  cases t
  rw [prune]
  split
  · split <;> rfl
  · rfl

theorem state_prunePath (path : List String) (t : Unfolding) : (t.prunePath index action path).1.state = t.state := by
  cases t
  rw [prunePath]
  split
  · split <;> rfl
  · rfl

theorem state_unmarked (t : Unfolding) : t.unmarked.state = t.state := by
  cases t
  rfl

end Pruning

end Unfolding

/-! ## Steps -/

namespace Step

theorem read_of_load (h : Model.load .plain source = .ok m) : Model.read .plain source = (m, none) := by
  unfold Model.load at h
  split at h
  · rename_i hr
    cases h
    exact hr
  · cases h

theorem run_read (h : load .plain source = .ok m) (s : Scene) :
    (read source).run.run s = (.ok (), { s with model := m }) := by
  unfold read
  rw [read_of_load h]
  rfl

theorem run_check {formula : String} (h : load .plain source = .ok m)
    (hblank : Checker.isBlankFormula formula = false) (reader : Formula.Logic) (s : Scene) :
    (check reader source formula).run.run s = (Checker.Branching.checkModel reader m formula, { s with model := m }) := by
  unfold check
  rw [if_neg (by simp [hblank]), run_bind_ok (run_read h s)]
  rfl

theorem run_get (s : Scene) : (get : Step Scene).run.run s = (.ok s, s) := rfl

theorem run_ofOutcome (x : Outcome α) (s : Scene) : (ofOutcome x).run.run s = (x, s) := rfl

theorem run_modify (f : Scene → Scene) (s : Scene) : (modify f : Step PUnit).run.run s = (.ok ⟨⟩, f s) := rfl

theorem run_change {t : Unfolding} (h : f s.tree = (t, r)) : (change f).run.run s = (r, { s with tree := t }) := by
  have hrun : (change f).run.run s = ((f s.tree).2, { s with tree := (f s.tree).1 }) := rfl
  rw [hrun, h]

/-- A step that answers alike in related scenes, and leaves related scenes. -/
def Respects {α : Type} (R : Scene → Scene → Prop) (x : Step α) : Prop :=
  ∀ s s', R s s' → (x.run.run s).1 = (x.run.run s').1 ∧ R (x.run.run s).2 (x.run.run s').2

section Respects

variable {R : Scene → Scene → Prop}

theorem respects_pure (a : α) : Respects R (pure a) := fun _ _ h => ⟨rfl, h⟩

theorem respects_ofOutcome (x : Outcome α) : Respects R (ofOutcome x) := fun _ _ h => ⟨rfl, h⟩

theorem Respects.bind {k : α → Step β} (hx : Respects R x) (hk : ∀ a, Respects R (k a)) : Respects R (x >>= k) := by
  intro s s' hs
  obtain ⟨hsame, hleft⟩ := hx s s' hs
  rcases hr : x.run.run s with ⟨r, s₁⟩
  rcases hr' : x.run.run s' with ⟨r', s₁'⟩
  rw [hr, hr'] at hsame hleft
  obtain rfl : r = r' := hsame
  cases r with
  | error e => rwa [run_bind_error hr, run_bind_error hr', and_iff_right rfl]
  | ok a =>
    rw [run_bind_ok hr, run_bind_ok hr']
    exact hk a s₁ s₁' hleft

/-- What is read off the scene must not depend on which of the related scenes it is. -/
theorem respects_get_bind (hsame : ∀ s s', R s s' → k s = k s') (hk : ∀ s, Respects R (k s)) :
    Respects R (get >>= k) := by
  intro s s' hs
  rw [run_bind_ok (run_get s'), ← hsame s s' hs]
  exact hk s s s' hs

end Respects

end Step

namespace Recall

open Checker

variable {P : Unfolding → Prop} {set : Setting} {M : Model → Prop} {index : Int} {condition : String} {states : Names}

/-- A tree of a model over given propositions, three levels deep below its root `s0`, and such a model. -/
structure Staged (props : List String) (s : Scene) : Prop where
  tree : s.tree.Grown props 3
  root : s.tree.state = "s0"
  model : s.model.Regular
  known : s.model.props = props

/-- A model text that trees can be written into, of a regular model with the initial state `s0`. -/
structure Stage (source : String) (m : Model) : Prop where
  layout : ∃ l : Layout, l.Proper ∧ source = l.text
  load : load .plain source = .ok m
  regular : m.Regular
  initial : m.initial = "s0"

/-- A relation between trees that agree in all that the rules of an agent look at, which pruning by them keeps. -/
structure Simulates (index : Int) (T : Unfolding → Unfolding → Prop) : Prop where
  size : ∀ {t u}, T t u → t.children.length = u.children.length
  meets : ∀ {t u}, T t u → ∀ props, t.meetsStory props = u.meetsStory props
  admits : ∀ {t u}, T t u → ∀ states action, t.admits states index action = u.admits states index action
  marked : ∀ {t u}, T t u → t.allMarked = u.allMarked
  prune : ∀ {t u}, T t u → ∀ applies action, (t.prune applies index action).2 = (u.prune applies index action).2 ∧
    T (t.prune applies index action).1 (u.prune applies index action).1
  prunePath : ∀ {t u}, T t u → ∀ action path,
    (t.prunePath index action path).2 = (u.prunePath index action path).2 ∧
      T (t.prunePath index action path).1 (u.prunePath index action path).1
  unmarked : ∀ {t u}, T t u → T t.unmarked u.unmarked

/-- A property of trees that pruning keeps. -/
structure Stable (P : Unfolding → Prop) : Prop where
  prune : ∀ {t}, P t → ∀ applies index action, P (t.prune applies index action).1
  prunePath : ∀ {t}, P t → ∀ index action path, P (t.prunePath index action path).1
  unmarked : ∀ {t}, P t → P t.unmarked

theorem Stable.simulates (h : Stable P) (index : Int) :
    Simulates index fun t u => t = u ∧ P t where
  size := by rintro t _ ⟨rfl, -⟩; rfl
  meets := by rintro t _ ⟨rfl, -⟩ _; rfl
  admits := by rintro t _ ⟨rfl, -⟩ _ _; rfl
  marked := by rintro t _ ⟨rfl, -⟩; rfl
  prune := by rintro t _ ⟨rfl, ht⟩ _ _; exact ⟨rfl, rfl, h.prune ht _ _ _⟩
  prunePath := by rintro t _ ⟨rfl, ht⟩ _ _; exact ⟨rfl, rfl, h.prunePath ht _ _ _⟩
  unmarked := by rintro t _ ⟨rfl, ht⟩; exact ⟨rfl, h.unmarked ht⟩

/-- Scenes with the same model, which has a property, and with related trees. -/
def Alike (M : Model → Prop) (T : Unfolding → Unfolding → Prop) (s s' : Scene) : Prop :=
  s.model = s'.model ∧ M s.model ∧ T s.tree s'.tree

section Respects

open Step

variable (hM : M (read .plain set.source).1) {T : Unfolding → Unfolding → Prop}

include hM in
theorem respects_read : Respects (Alike M T) (Step.read set.source) := by
  rintro s s' ⟨-, -, htree⟩
  unfold Step.read
  revert hM
  rcases read .plain set.source with ⟨m, fault⟩
  intro hM
  cases fault <;> exact ⟨rfl, rfl, hM, htree⟩

include hM in
theorem respects_statesWhere (condition : String) : Respects (Alike M T) (statesWhere set condition) := by
  have hcheck : Respects (Alike M T) (Step.check set.reader set.source condition) := by
    unfold Step.check
    split
    · exact respects_ofOutcome _
    · exact (respects_read hM).bind fun _ => respects_get_bind (fun _ _ h => by rw [h.1]) fun _ => respects_ofOutcome _
  exact hcheck.bind fun _ => (respects_ofOutcome _).bind fun _ => respects_ofOutcome _

theorem respects_props : Respects (Alike M T) set.props :=
  respects_get_bind (fun _ _ h => by rw [h.1]) fun _ => respects_pure _

theorem respects_change (hf : ∀ {t u}, T t u → (f t).2 = (f u).2 ∧ T (f t).1 (f u).1) :
    Respects (Alike M T) (Step.change f) := by
  rintro s s' ⟨hmodel, hm, htree⟩
  obtain ⟨hsame, hleft⟩ := hf htree
  exact ⟨hsame, hmodel, hm, hleft⟩

variable (h : Simulates index T)

include h

theorem respects_pruneStory (story action : String) (height : Int) :
    Respects (Alike M T) (pruneStory set story action index height) := by
  refine respects_get_bind (fun s s' hs => ?_) fun s => respects_props.bind fun _ => (respects_ofOutcome _).bind
    fun path => ?_
  · simp only [h.meets hs.2.2]
  · cases path with
    | none => exact respects_pure _
    | some path => exact (respects_change fun ht => h.prunePath ht action path).bind fun _ => respects_pure _

include hM

theorem respects_isLegitimate (guard action : String) : Respects (Alike M T) (isLegitimate set guard action index) := by
  have hstates : ∀ states : Names, Respects (Alike M T) (do
      if states.isEmpty then return true
      ofOutcome ((← get).tree.admits states index action)) := by
    intro states
    split
    · exact respects_pure _
    · exact respects_get_bind (fun _ _ hs => by rw [h.admits hs.2.2]) fun _ => respects_ofOutcome _
  unfold isLegitimate
  split
  · refine respects_get_bind (fun s s' hs => ?_) fun s => respects_props.bind fun _ => (respects_ofOutcome _).bind
      fun _ => (respects_pure _).bind hstates
    simp only [h.size hs.2.2, h.meets hs.2.2]
  · exact (respects_read hM).bind fun _ => (respects_statesWhere hM _).bind hstates

theorem respects_pruneIdle (states : Names) (action : String) :
    Respects (Alike M T) (pruneIdle set states action index) :=
  (respects_read hM).bind fun _ => respects_change fun ht => h.prune ht _ _

theorem respects_pruneBoolean (condition action : String) :
    Respects (Alike M T) (pruneBoolean set condition action index) :=
  (respects_read hM).bind fun _ => (respects_statesWhere hM _).bind fun _ => respects_change fun ht => h.prune ht _ _

theorem respects_applyRules (hwithin : Respects (Alike M T) within) (height : Int) :
    ∀ (rules : Strategy) (flag : Bool), Respects (Alike M T) (applyRules set within height index rules flag)
  | [], flag => respects_pure _
  | r :: rest, flag => by
    have hmarked : ∀ flag, Respects (Alike M T) (do
        applyRules set within height index rest (flag && (← get).tree.allMarked)) := fun flag =>
      respects_get_bind (fun _ _ hs => by rw [h.marked hs.2.2]) fun _ => respects_applyRules hwithin height rest _
    have hadmitted : ∀ admitted : Bool, Respects (Alike M T) (do
        if !admitted then return none
        let flag ← if Story.isStory r.condition then do
            pure ((← pruneStory set r.condition r.action index height).getD false)
          else pruneBoolean set r.condition r.action index
        applyRules set within height index rest (flag && (← get).tree.allMarked)) := by
      intro admitted
      split
      · exact respects_pure _
      · split
        · exact (respects_pruneStory h _ _ _).bind fun _ => (respects_pure _).bind hmarked
        · exact (respects_pruneBoolean hM h _ _).bind hmarked
    refine (respects_isLegitimate hM h _ _).bind fun legitimate => ?_
    dsimp only
    split
    · exact hwithin.bind hadmitted
    · exact (respects_pure _).bind hadmitted

omit h in
theorem respects_applyPlans (hwithin : Respects (Alike M T) within) (height : Int) :
    ∀ (plans : List Plan) (index : Int) (flag : Bool), (∀ i, index ≤ i → i < index + plans.length → Simulates i T) →
    Respects (Alike M T) (applyPlans set within height index plans flag)
  | [], _, _, _ => respects_pure _
  | p :: rest, index, flag, h => by
    have hlength : ((p :: rest).length : Int) = rest.length + 1 := rfl
    have hindex := h index le_rfl (by omega)
    have hunmarked : Respects (Alike M T) (modify fun s => { s with tree := s.tree.unmarked } : Step PUnit) :=
      fun s s' hs => ⟨rfl, hs.1, hs.2.1, hindex.unmarked hs.2.2⟩
    have hrest : ∀ flag, Respects (Alike M T) (do
        modify fun scene => { scene with tree := scene.tree.unmarked }
        applyPlans set within height (index + 1) rest flag) := fun flag => hunmarked.bind fun _ =>
      respects_applyPlans hwithin height rest (index + 1) flag fun i hle hlt => h i (by omega) (by omega)
    refine (respects_ofOutcome _).bind fun rules => (respects_applyRules hM hindex hwithin height rules flag).bind
      fun flag? => ?_
    cases flag? with
    | none => exact respects_pure _
    | some flag =>
      dsimp only
      split
      · exact (respects_pure _).bind hrest
      · exact respects_get_bind (fun _ _ hs => by rw [hs.1]) fun _ => (respects_pruneIdle hM hindex _ _).bind hrest

end Respects

/-- A step that keeps a property of the model and one of the tree. -/
def Keeps {α : Type} (M : Model → Prop) (P : Unfolding → Prop) (x : Step α) : Prop :=
  Step.Respects (Alike M fun t u => t = u ∧ P t) x

theorem Keeps.apply (h : Keeps M P x) (hm : M s.model) (ht : P s.tree) (hrun : x.run.run s = (r, s')) :
    M s'.model ∧ P s'.tree := by
  have hleft := (h s s ⟨rfl, hm, rfl, ht⟩).2
  rw [hrun] at hleft
  exact ⟨hleft.2.1, hleft.2.2.2⟩

theorem keeps_get_bind (hk : ∀ s, Keeps M P (k s)) : Keeps M P (get >>= k) :=
  Step.respects_get_bind (fun _ _ h => congrArg k (congrArg₂ Scene.mk h.1 h.2.2.1)) hk

theorem keeps_applyPlans (hload : load .plain set.source = .ok m) (hM : M m) (hP : Stable P)
    (hwithin : Keeps M P within) (height index : Int) (plans : List Plan) (flag : Bool) :
    Keeps M P (applyPlans set within height index plans flag) :=
  respects_applyPlans (by rwa [Step.read_of_load hload]) hwithin height plans index flag fun i _ _ => hP.simulates i

theorem stable_any : Stable fun _ => True := ⟨fun _ _ _ _ => trivial, fun _ _ _ _ => trivial, fun _ => trivial⟩

theorem stable_grown (props : List String) : Stable fun t => t.Grown props 3 ∧ t.state = "s0" where
  prune ht _ _ _ := ⟨ht.1.prune _ _ _, (state_prune _ _ _ _).trans ht.2⟩
  prunePath ht _ _ _ := ⟨ht.1.prunePath _ _ _, (state_prunePath _ _ _ _).trans ht.2⟩
  unmarked ht := ⟨ht.1.unmarked, (state_unmarked _).trans ht.2⟩

theorem Stage.staged_applyPlans (h : Stage set.source m) (hs : Staged m.props s) {r : Outcome Bool}
    (hrun : (applyPlans set (pure true) height 1 plans false).run.run s = (r, s')) : Staged m.props s' := by
  have hkeeps := keeps_applyPlans (M := fun x => x.Regular ∧ x.props = m.props) h.load ⟨h.regular, rfl⟩
    (stable_grown m.props) (Step.respects_pure true) height 1 plans false
  obtain ⟨⟨hregular, hknown⟩, hgrown, hroot⟩ := hkeeps.apply ⟨hs.model, hs.known⟩ ⟨hs.tree, hs.root⟩ hrun
  exact ⟨hgrown, hroot, hregular, hknown⟩

/-! ## Rules -/

theorem names_s0 : (resultValue "Result: \x7b's0'\x7d" >>= namesOf) = .ok ["s0"] := by decide +kernel

theorem names_s1 : (resultValue "Result: \x7b's1'\x7d" >>= namesOf) = .ok ["s1"] := by decide +kernel

section Rule

open Step

variable (hload : load .plain set.source = .ok m)

include hload

theorem run_statesWhere (hblank : isBlankFormula condition = false) {report : Report}
    (hreport : Branching.checkModel set.reader m condition = .ok report)
    (hstates : (resultValue report.result >>= namesOf) = .ok states) (s : Scene) :
    (statesWhere set condition).run.run s = (.ok states, { s with model := m }) := by
  obtain ⟨value, hvalue, hstates⟩ := bind_eq_ok.1 hstates
  unfold statesWhere
  have hcheck := run_check hload hblank set.reader s
  rw [hreport] at hcheck
  rw [run_bind_ok hcheck, hvalue, run_bind_ok (run_ofOutcome _ _), hstates]
  rfl

section Condition

variable (hstory : Story.isStory condition = false)
  (hwhere : ∀ s, (statesWhere set condition).run.run s = (.ok states, { s with model := m }))

include hstory hwhere

theorem run_isLegitimate (action : String) (index : Int) (s : Scene) :
    (isLegitimate set condition action index).run.run s =
      (if states.isEmpty then .ok true else s.tree.admits states index action, { s with model := m }) := by
  unfold isLegitimate
  rw [hstory]
  dsimp only
  rw [if_neg Bool.false_ne_true, run_bind_ok (run_read hload _), run_bind_ok (hwhere _)]
  split
  · rfl
  · rfl

variable {action : String} (height : Int) (flag : Bool)

theorem run_applyRules_refused
    (h : (if states.isEmpty then .ok true else s.tree.admits states index action) = .ok false)
    (rest : Strategy) : (applyRules set (pure true) height index (⟨condition, action⟩ :: rest) flag).run.run s =
      (.ok none, { s with model := m }) := by
  have hlegitimate := run_isLegitimate hload hstory hwhere action index s
  rw [h] at hlegitimate
  rw [applyRules, run_bind_ok hlegitimate]
  rfl

end Condition

theorem run_pruneIdle (states : Names) (action : String) (index : Int) (s : Scene) :
    (pruneIdle set states action index).run.run s =
      ((s.tree.prune states.contains index action).2, ⟨m, (s.tree.prune states.contains index action).1⟩) := by
  unfold pruneIdle
  rw [run_bind_ok (run_read hload _)]
  exact run_change rfl

end Rule

/-- What plans leave of the tree of a model, from a test that runs them. -/
theorem exists_applyPlans (set : Setting) (m : Model) (height : Int) (plans : List Plan)
    (test : Unfolding → Unfolding → Bool) (h : ((ofModel m m.states height).toOption.any fun t =>
      let r := (applyPlans set (pure true) height 1 plans false).run.run ⟨m, t⟩
      r.1.toOption == some true && r.2.model == m && test t r.2.tree) = true) :
    ∃ tree left, ofModel m m.states height = .ok tree ∧
      (applyPlans set (pure true) height 1 plans false).run.run ⟨m, tree⟩ = (.ok true, ⟨m, left⟩) ∧
      test tree left = true := by
  obtain ⟨tree, htree, h⟩ := (Option.any_eq_true _ _).1 h
  rcases hrun : (applyPlans set (pure true) height 1 plans false).run.run ⟨m, tree⟩ with ⟨admitted, x, left⟩
  simp only [hrun, Bool.and_eq_true, beq_iff_eq] at h
  obtain ⟨⟨hadmitted, rfl⟩, htest⟩ := h
  exact ⟨tree, left, eq_ok_of_toOption htree, by rw [hrun, eq_ok_of_toOption hadmitted], htest⟩

/-! ## Verdicts -/

/-- Whether a test accepts the tree pruned by plans; none when a rule is not admitted. The model that the tree comes to
is read, as it is for a check. -/
def testVerdict (set : Setting) (height : Int) (test : Unfolding → Bool) (plans : List Plan) : Step (Option Bool) := do
  if !(← applyPlans set (pure true) height 1 plans false) then return none
  Step.read (← prunedText set height)
  return some (test (← get).tree)

theorem isBlankFormula_path (rest : String) : isBlankFormula ("A" ++ rest) = false :=
  Text.isEmpty_trim_of_mem (c := 'A') (by simp) (by decide)

section Verdict

open Step

variable (h : Stage set.source m) (hs : Staged m.props s)

include h hs

/-- The pruned tree is written as a model that renders it and is unfolded to it, unless the number of agents cannot be
told. -/
theorem run_prunedText {height : Nat} (hheight : 3 ≤ height) :
    (∃ e, s.model.agentCount = .error e ∧
        (prunedText set height).run.run s = (.error e, { s with tree := s.tree.renamed })) ∨
      ∃ text m', (prunedText set height).run.run s = (.ok text, { s with tree := s.tree.renamed }) ∧
        load .plain text = .ok m' ∧ Renders m.props s.tree.renamed m' ∧ m'.Regular ∧
        (s.tree.nodes.length ≤ 10 ^ Text.maxDigits → ofModel m' m'.states 4 = .ok (s.tree.renamed.anew none [])) := by
  obtain ⟨l, hl, hsource⟩ := h.layout
  obtain ⟨text, m', htext, hload, hrenders, hregular, hgraph⟩ :=
    hs.tree.exists_written hl (hsource ▸ h.load) h.initial hheight hs.root
  unfold prunedText
  rw [run_bind_ok (run_modify _ s), run_bind_ok (run_get _)]
  rw [run_bind_ok (run_get _)]
  cases s.model.agentCount with
  | error e => exact .inl ⟨e, rfl, run_bind_error (run_ofOutcome _ _)⟩
  | ok n =>
    refine .inr ⟨text, m', ?_, hload, hrenders, hregular, fun hlimit =>
      hrenders.ofModel_eq hs.tree hs.root hlimit hheight hgraph⟩
    rw [run_bind_ok (run_ofOutcome _ _), matrix_eq (nodup_states_renamed hs.root), run_bind_ok (run_ofOutcome _ _), hsource,
      htext]
    rfl

/-- A formula over all paths is checked as it is tested in the tree, whichever tokens it is read with as long as they
read it alike. -/
theorem run_verdict {o φ : String} (hreader : Formula.parse set.reader .ctl .missing ("A" ++ o ++ φ) =
      Formula.parse .ctl .ctl .missing ("A" ++ o ++ φ)) (height : Nat) (hheight : 3 ≤ height) {k : Formula.TokenKind}
    (ho : (o, k) ∈ temporal) {f : Formula} (hφ : Propositional φ f) (plans : List Plan) :
    (verdict set height ("A" ++ o ++ φ) plans).run.run s =
      (testVerdict set height (passes m.props o f) plans).run.run s := by
  rcases happly : (applyPlans set (pure true) height 1 plans false).run.run s with ⟨r, s₁⟩
  cases r with
  | error e => exact (run_bind_error happly).trans (run_bind_error happly).symm
  | ok admitted =>
    refine (run_bind_ok happly).trans (Eq.trans ?_ (run_bind_ok happly).symm)
    have hs₁ := h.staged_applyPlans hs happly
    cases admitted with
    | false => rw [Bool.not_false, if_pos rfl, if_pos rfl]
    | true =>
      rw [Bool.not_true, if_neg Bool.false_ne_true, if_neg Bool.false_ne_true]
      rcases run_prunedText h hs₁ hheight with ⟨e, -, he⟩ | ⟨text, m', htext, hload, hrenders, -⟩
      · exact (run_bind_error he).trans (run_bind_error he).symm
      · have hroot : s₁.tree.renamed.state = "s0" := (state_renamed _).trans hs₁.root
        obtain ⟨report, hreport, hiff⟩ := hrenders.exists_check hroot ho hφ
        rw [Branching.checkModel, ← hreader, ← Branching.checkModel, String.append_assoc] at hreport
        rw [String.append_assoc]
        have hcheck := run_check hload (isBlankFormula_path (o ++ φ)) set.reader { s₁ with tree := s₁.tree.renamed }
        rw [hreport] at hcheck
        have hsame : decide (report.initial? = some accepted) = passes m.props o f s₁.tree.renamed := by
          rw [Bool.eq_iff_iff, decide_eq_true_iff, hiff]
        have hread := run_read hload { s₁ with tree := s₁.tree.renamed }
        rw [run_bind_ok htext, run_bind_ok hcheck, run_bind_ok htext, run_bind_ok hread, hsame]
        rfl

theorem run_testVerdict (height : Nat) (hheight : 3 ≤ height) {s₁ : Scene}
    (happly : (applyPlans set (pure true) height 1 plans false).run.run s = (.ok true, s₁)) {n : Int}
    (hcount : s₁.model.agentCount = .ok n) (test : Unfolding → Bool) :
    ∃ m', (testVerdict set height test plans).run.run s =
      (.ok (some (test s₁.tree.renamed)), ⟨m', s₁.tree.renamed⟩) := by
  have hs₁ := h.staged_applyPlans hs happly
  rcases run_prunedText h hs₁ hheight with ⟨e, he, -⟩ | ⟨text, m', htext, hload, -, -⟩
  · cases hcount.symm.trans he
  · have hread := run_read hload { s₁ with tree := s₁.tree.renamed }
    unfold testVerdict
    rw [run_bind_ok happly, Bool.not_true, if_neg Bool.false_ne_true, run_bind_ok htext, run_bind_ok hread]
    exact ⟨_, rfl⟩

theorem staged_testVerdict (height : Nat) (hheight : 3 ≤ height) {test : Unfolding → Bool}
    {holds? : Option Bool} (hrun : (testVerdict set height test plans).run.run s = (.ok holds?, s')) :
    Staged m.props s' := by
  obtain ⟨admitted, s₁, happly, hrun⟩ := run_bind_eq_ok hrun
  have hs₁ := h.staged_applyPlans hs happly
  cases admitted with
  | false =>
    cases hrun
    exact hs₁
  | true =>
    rw [Bool.not_true, if_neg Bool.false_ne_true] at hrun
    rcases run_prunedText h hs₁ hheight with ⟨e, -, he⟩ | ⟨text, m', htext, hload, hrenders, hregular, -⟩
    · rw [run_bind_error he] at hrun
      cases hrun
    · rw [run_bind_ok htext, run_bind_ok (run_read hload { s₁ with tree := s₁.tree.renamed })] at hrun
      cases hrun
      exact ⟨hs₁.tree.renamed, (state_renamed _).trans hs₁.root, hregular, hrenders.known⟩

end Verdict

end Recall

end Arena.Natural
