/-
A coalition with more to spend. In one step a larger bound forces no fewer states. The other operators are solved bound
by bound: a bound that allows nothing starts from the target, any other from what the first step leads to. So a larger
bound can be worse than none.
-/
import Arena.Proofs.Checker.Purse

namespace Arena.Checker.Bounded

open Coalition Text Names List Model
open Branching (Renames)

variable {spent bound bound' : Bound} {X : Set String} {x : String} {step : Bound → Set String → Set String}

variable {p : Pricing} {m : Model} {n r : Nat} {agents : List Nat} {f : Set String → Set String}

/-! ## What a larger bound pays -/

/-- A bound that is at least another one, resource by resource. -/
abbrev AtMost (bound bound' : Bound) : Prop := Forall₂ (fun b b' : Int => b ≤ b') bound bound'

theorem Below.atMost (h : Below spent bound) : AtMost spent bound := h.imp fun _ _ h => h.2

theorem atMost_refl (bound : Bound) : AtMost bound bound := forall₂_same.2 fun _ _ => le_rfl

theorem AtMost.left (h : AtMost bound bound') :
    ∀ spent : Bound, AtMost (zipWith (· - ·) bound spent) (zipWith (· - ·) bound' spent) := by
  induction h with
  | nil => exact fun _ => .nil
  | cons hb _ ih =>
    rintro (_ | ⟨s, spent⟩)
    · exact .nil
    · exact .cons (sub_le_sub_right hb s) (ih spent)

theorem AtMost.lexLe (h : AtMost bound bound') : ∀ {xs : List Int}, lexLe xs bound = true → lexLe xs bound' = true := by
  induction h with
  | nil => exact id
  | @cons b b' bound bound' hb _ ih =>
    rintro (_ | ⟨x, xs⟩) hx
    · rfl
    · simp only [Bounded.lexLe] at hx ⊢
      by_cases hxb : x = b'
      · rw [if_pos hxb]
        by_cases hbb : x = b
        · rw [if_pos hbb] at hx
          exact ih hx
        · rw [if_neg hbb, decide_eq_true_eq] at hx
          omega
      · rw [if_neg hxb, decide_eq_true_eq]
        split at hx
        · omega
        · rw [decide_eq_true_eq] at hx
          omega

theorem AtMost.withinEach (members : List String) {xss : List (List Int)} (h : AtMost bound bound') :
    ∀ j, j + bound.length ≤ xss.length → ∃ bs bs',
      withinEach members (.split xss) j bound = .ok bs ∧ withinEach members (.split xss) j bound' = .ok bs' ∧
        (bs.all id = true → bs'.all id = true) := by
  induction h with
  | nil => exact fun _ _ => ⟨[], [], rfl, rfl, id⟩
  | @cons b b' bound bound' hb _ ih =>
    intro j hj
    rw [length_cons] at hj
    obtain ⟨bs, bs', hbs, hbs', himp⟩ := ih (j + 1) (by omega)
    obtain ⟨xs, hxs⟩ := exists_nth (show j < xss.length by omega)
    refine ⟨decide (memberCost members xs ≤ b) :: bs, decide (memberCost members xs ≤ b') :: bs', ?_, ?_, ?_⟩
    · simp only [Bounded.withinEach, hxs, hbs]
      rfl
    · simp only [Bounded.withinEach, hxs, hbs']
      rfl
    · simp only [all_cons, id_eq, Bool.and_eq_true, decide_eq_true_eq]
      exact fun h => ⟨by omega, himp h.2⟩

/-- A cost with an entry for each of `r` resources, in the form that a logic asks for. -/
def Suits (r : Nat) : Pricing → Cost → Prop
  | .joint, .shared xs => xs.length = r
  | .perAgent, .split xss => xss.length = r
  | _, _ => False

theorem AtMost.isAffordable (members : List String) (h : AtMost bound bound') {i : Nat} {move : Move} {cost : Cost}
    (hcost : m.costOf move (defaultName i) = .ok cost) (hs : Suits bound.length p cost) :
    ∃ b b', isAffordable p m members bound i move = .ok b ∧ isAffordable p m members bound' i move = .ok b' ∧
      (b = true → b' = true) := by
  unfold Bounded.isAffordable
  simp only [hcost, bind, Except.bind]
  cases p with
  | joint =>
    cases cost with
    | shared xs => exact ⟨_, _, rfl, rfl, h.lexLe⟩
    | split xss => exact hs.elim
  | perAgent =>
    cases cost with
    | shared xs => exact hs.elim
    | split xss =>
      obtain ⟨bs, bs', hbs, hbs', himp⟩ := h.withinEach members 0 (by rw [Nat.zero_add]; exact (show xss.length = _ from hs).ge)
      exact ⟨_, _, by rw [hbs]; rfl, by rw [hbs']; rfl, himp⟩

theorem priced_of_suits (hcosts : ∀ i j c move, cellAt? m.graph i j = some c → m.Lists c move →
    ∃ cost, m.costOf move (defaultName i) = .ok cost ∧ Suits r p cost) (hr : bound.length = r)
    (members : List String) : Priced p m members bound := by
  intro i j c move hc hl
  obtain ⟨cost, hcost, hs⟩ := hcosts i j c move hc hl
  obtain ⟨b, -, hb, -⟩ := (atMost_refl bound).isAffordable members hcost (hr ▸ hs)
  exact ⟨b, hb⟩

/-! ## The game -/

/-- The setting: agents play on a square matrix, every joint action has its costs for `r` resources, and no name of
a state is taken for an operator. -/
structure CostGame (p : Pricing) (m : Model) (n r : Nat) (agents : List Nat) : Prop where
  playable : m.Playable n
  square : ∀ row ∈ m.graph, row.length = m.states.length
  costs : ∀ i j c move, cellAt? m.graph i j = some c → m.Lists c move →
    ∃ cost, m.costOf move (defaultName i) = .ok cost ∧ Suits r p cost
  resources : r ≠ 0
  named : agents ≠ []
  numerals : ∀ a ∈ agents, a < 10 ^ maxDigits
  calm : ∀ q ∈ m.states, Calm p q

/-- The part of the setting that the loops need: a square matrix on which every joint action has its costs for `r`
resources, and a coalition that is named. -/
structure Charged (p : Pricing) (m : Model) (r : Nat) (agents : List Nat) : Prop where
  square : m.Square
  costs : ∀ i j c move, cellAt? m.graph i j = some c → m.Lists c move →
    ∃ cost, m.costOf move (defaultName i) = .ok cost ∧ Suits r p cost
  resources : r ≠ 0
  named : agents ≠ []
  numerals : ∀ a ∈ agents, a < 10 ^ maxDigits

theorem CostGame.charged (g : CostGame p m n r agents) : Charged p m r agents :=
  ⟨⟨g.playable.nodup, g.playable.rows, g.square, n, g.playable.agents⟩, g.costs, g.resources, g.named, g.numerals⟩

/-- A step with more to spend leads to a larger set from no fewer states. -/
theorem Charged.exists_engine (g : Charged p m r agents) : ∃ step, Engine p m r (text agents).toList step ∧
    ∀ {bound bound' : Bound} {X Y : Set String}, bound.length = r → AtMost bound bound' → X ⊆ Y →
      step bound X ⊆ step bound' Y := by
  obtain ⟨is, -, e⟩ := engine_of_priced g.square g.resources g.named g.numerals fun _ hr _ => priced_of_suits g.costs hr _
  refine ⟨_, e, fun {bound bound' X Y} hr h hXY => admittedBy_mono (fun i j c move hc hl hpay => ?_) hXY⟩
  obtain ⟨cost, hcost, hs⟩ := g.costs i j c move hc hl
  obtain ⟨b, b', hb, hb', himp⟩ := h.isAffordable (names (text agents)) hcost (hr ▸ hs)
  rw [hb, Except.ok.injEq] at hpay
  rw [hb', himp hpay]

/-! ## Reaching a target -/

section Reach

variable {target : Set String}

theorem Below.isZero (h : Below spent bound) (hz : isZero bound = true) : isZero spent = true := by
  induction h with
  | nil => rfl
  | cons hs _ ih =>
    simp only [Bounded.isZero, all_cons, Bool.and_eq_true, beq_iff_eq] at hz ⊢
    exact ⟨by omega, ih hz.2⟩

theorem subset_reach (hmono : ∀ ⦃X Y⦄, X ⊆ Y → step (zeros bound) X ⊆ step (zeros bound) Y)
    (hz : isZero bound = true) : target ⊆ reach step target bound := by
  have hstart := Set.subset_union_left.trans (isLeast_reach target bound hmono).1
  rwa [if_pos hz] at hstart

/-- A larger bound reaches the target from no fewer states, except that a bound which allows nothing also has the
states of the target itself. -/
theorem reach_subset_iff
    (hmono : ∀ {β β' : Bound} {X Y : Set String}, β.length = bound.length → AtMost β β' → X ⊆ Y → step β X ⊆ step β' Y)
    (h : Below bound bound') : reach step target bound ⊆ reach step target bound' ↔
      (isZero bound = true → target ⊆ reach step target bound') := by
  have hzeros : zeros bound' = zeros bound := by rw [zeros_eq, zeros_eq, h.length_eq]
  have hfree : ∀ ⦃X Y⦄, X ⊆ Y → step (zeros bound) X ⊆ step (zeros bound) Y := fun _ _ hXY =>
    hmono (length_map ..) (atMost_refl _) hXY
  have hleast := isLeast_reach target bound hfree
  have hleast' := isLeast_reach target bound' (by rw [hzeros]; exact hfree)
  rw [hzeros] at hleast'
  obtain ⟨hstart', hclosed'⟩ := Set.union_subset_iff.1 hleast'.1
  constructor
  · intro hsub hz
    exact (subset_reach hfree hz).trans hsub
  · intro htarget
    refine hleast.2 (Set.union_subset ?_ hclosed')
    by_cases hz : isZero bound = true
    · rw [if_pos hz]
      exact htarget hz
    · -- the first step goes to the same states, and more can be paid for it
      rw [if_neg hz]
      rw [if_neg fun hz' => hz (h.isZero hz')] at hstart'
      rintro q ⟨spent, hbelow, hne, hq⟩
      refine hstart' ⟨spent, hbelow.trans h, ?_, hmono hbelow.length_left (h.atMost.left spent) subset_rfl hq⟩
      rintro rfl
      exact hne (hbelow.antisymm h)

end Reach

/-! ## Answers -/

/-- From every sound memory, solving a tree ends with the text of a set at its root and with a sound memory. -/
def Settles (p : Pricing) (m : Model) (t : Tree) (X : Set String) : Prop := ∀ mem, Sound p m mem → ∃ (S : Names) (mem' : Memory),
  S.Nodup ∧ S.toSet = X ∧ Sound p m mem' ∧ (solve p m (depth t + 1) t).run.run mem = (.ok (t.withText S.print), mem')

theorem Prints.settles (hnames : ∀ q ∈ m.states, Calm p q) {t : Tree} (hfit : Fit m t)
    (h : Prints (lift (solution p m t)) t X) : Settles p m t X := by
  intro mem hmem
  obtain ⟨S, hS, hn, hset⟩ := h
  have hneed := need_le_depth p t
  have hsolve := (tandem_solve hnames (depth t + 1) hfit (by omega)).mono fun _ _ h => h.matched.eq.symm
  obtain ⟨mem', hmem', hrun⟩ := hsolve.run_eq mem hmem
  exact ⟨S, mem', hn, hset, hmem', hrun.trans (congrArg (·, mem') (congrArg value hS))⟩

theorem Settles.shows {t : Tree} (h : Settles p m t X) : Shows (answerOf p m t) X := by
  obtain ⟨S, mem, hn, hset, -, hrun⟩ := h [] sound_nil
  refine ⟨S, ?_, hn, hset⟩
  rw [answerOf, hrun]
  exact congrArg Except.ok (text_withText ..)

section Settles

variable {A : List Char} (e : Engine p m r A step) (hcalm : ∀ q ∈ m.states, Calm p q) {operator l : String}
  (hl : Bears r A bound operator l) {a b : Tree} {φ ψ : Names} (ha : Rests p m a φ) (hb : Rests p m b ψ)

include e hcalm hl ha

theorem Engine.settles_next (hop : Unary.of? p (headed ['0'] ['0'] operator.toList) = some .next) :
    Settles p m (.unary l a) (step bound φ.toSet) :=
  (e.solution_next hcalm hl ha ((hl.of?_eq e.numerals).1.trans hop)).settles hcalm
    (.unary (.label (hl.known e.numerals)) ha.fit)

theorem Engine.settles_eventually (hop : Unary.of? p (headed ['0'] ['0'] operator.toList) = some .eventually) :
    Settles p m (.unary l a) (reach (stepThrough step (toSet m.stateSet)) φ.toSet bound) :=
  (e.solution_eventually hcalm hl ha ((hl.of?_eq e.numerals).1.trans hop)).settles hcalm
    (.unary (.label (hl.known e.numerals)) ha.fit)

theorem Engine.settles_globally (hop : Unary.of? p (headed ['0'] ['0'] operator.toList) = some .globally)
    (hp : p = .joint) : ∃ X, Settles p m (.unary l a) X ∧ (isZero bound = false → X = ∅) := by
  obtain ⟨X, -, hX, hzero⟩ := e.solution_globally hcalm hl ha ((hl.of?_eq e.numerals).1.trans hop) hp
  exact ⟨X, hX.settles hcalm (.unary (.label (hl.known e.numerals)) ha.fit), hzero⟩

include hb

theorem Engine.settles_untl (hop : Binary.of? p (headed ['0'] ['0'] operator.toList) = some .untl) :
    Settles p m (.binary l a b) (reach (stepThrough step φ.toSet) ψ.toSet bound) :=
  (e.solution_untl hcalm hl ha hb ((hl.of?_eq e.numerals).2.trans hop)).settles hcalm
    (.binary (.label (hl.known e.numerals)) ha.fit hb.fit)

end Settles

/-! ## The comparison -/

/-- Two answers are the texts of sets that are related. -/
def Compares (R : Set String → Set String → Prop) (x y : Outcome String) : Prop := ∃ X Y, Shows x X ∧ Shows y Y ∧ R X Y

theorem isZero_natCast {b : List Nat} (hb : b.length = r) : isZero (b.map Nat.cast) = true ↔ b = replicate r 0 := by
  rw [eq_replicate_iff, isZero]
  simp [hb]

theorem below_natCast {b b' : List Nat} (h : Forall₂ (· ≤ ·) b b') : Below (b.map Nat.cast) (b'.map Nat.cast) := by
  rw [Below, forall₂_map_left_iff, forall₂_map_right_iff]
  exact h.imp fun x y hxy => ⟨Int.natCast_nonneg x, Int.ofNat_le.2 hxy⟩

/-- How the answers for two bounds compare, in one step, to reach a set and to keep it. -/
structure ComparesBounds (p : Pricing) (m : Model) (r : Nat) (agents b b' : List Nat) (φ ψ : Names) : Prop where
  next : Compares (· ⊆ ·) (answerOf p m (.unary (boundedLabel agents b "X") (.leaf φ.print)))
    (answerOf p m (.unary (boundedLabel agents b' "X") (.leaf φ.print)))
  eventually : Compares
    (fun X X' => (X ⊆ X' ↔ (b = replicate r 0 → φ.toSet ⊆ X')) ∧ (b = replicate r 0 → φ.toSet ⊆ X))
    (answerOf p m (.unary (boundedLabel agents b "F") (.leaf φ.print)))
    (answerOf p m (.unary (boundedLabel agents b' "F") (.leaf φ.print)))
  untl : Compares
    (fun X X' => (X ⊆ X' ↔ (b = replicate r 0 → ψ.toSet ⊆ X')) ∧ (b = replicate r 0 → ψ.toSet ⊆ X))
    (answerOf p m (.binary (boundedLabel agents b "U") (.leaf φ.print) (.leaf ψ.print)))
    (answerOf p m (.binary (boundedLabel agents b' "U") (.leaf φ.print) (.leaf ψ.print)))
  globally : p = .joint → Compares
    (fun X X' => (b' ≠ replicate r 0 → X' = ∅) ∧ (X ⊆ X' ↔ b' = replicate r 0 ∨ X = ∅))
    (answerOf p m (.unary (boundedLabel agents b "G") (.leaf φ.print)))
    (answerOf p m (.unary (boundedLabel agents b' "G") (.leaf φ.print)))

/-- For every coalition, all sets of states and bounds of which the second is at least the first, resource by resource:
in one step the larger bound gives no fewer states. To reach a set it gives no fewer states, unless the smaller bound
allows nothing and the larger one loses a state of the set itself. To keep a set it gives no state if it allows
something. -/
theorem answer_subset_iff (g : CostGame p m n r agents) {b b' : List Nat} (hb : b.length = r)
    (hle : List.Forall₂ (· ≤ ·) b b') (hlimit : ∀ x ∈ b', x < 10 ^ Text.maxDigits) {φ ψ : Names} (hφ : Within m φ)
    (hψ : Within m ψ) : ComparesBounds p m r agents b b' φ ψ := by
  obtain ⟨step, e, hmono⟩ := g.charged.exists_engine
  have hbelow := below_natCast hle
  have hb' := hle.length_eq.symm.trans hb
  have hk := bears_boundedLabel g.named g.resources hb' hlimit
  have hl := bears_boundedLabel g.named g.resources hb fun x hx => by
    exact_mod_cast hbelow.lt (fun y hy => ((hk "X").range e.numerals y hy).2) x (mem_map_of_mem hx)
  have hself := rests_leaf g.calm (renames_self hφ.1 hφ.2)
  have hself' := rests_leaf g.calm (renames_self hψ.1 hψ.2)
  have hpaid : ∀ (through : Set String) {β β' : Bound} {X Y : Set String}, β.length = (b.map Nat.cast : Bound).length →
      AtMost β β' → X ⊆ Y → stepThrough step through β X ⊆ stepThrough step through β' Y :=
    fun through β β' X Y hβ hle hXY => Set.inter_subset_inter_left _ (hmono (hβ.trans (hl "X").length) hle hXY)
  have hstart : ∀ (through target : Set String), b = replicate r 0 →
      target ⊆ reach (stepThrough step through) target (b.map Nat.cast) := fun through target hzero =>
    subset_reach (e.mono_through _ _) ((isZero_natCast hb).2 hzero)
  obtain ⟨hX, hF, hG, hU⟩ := of?_letters p
  refine ⟨⟨_, _, (e.settles_next g.calm (hl "X") hself hX).shows, (e.settles_next g.calm (hk "X") hself hX).shows,
      hmono (hl "X").length hbelow.atMost subset_rfl⟩,
    ⟨_, _, (e.settles_eventually g.calm (hl "F") hself hF).shows, (e.settles_eventually g.calm (hk "F") hself hF).shows,
      ?_, hstart _ _⟩,
    ⟨_, _, (e.settles_untl g.calm (hl "U") hself hself' hU).shows, (e.settles_untl g.calm (hk "U") hself hself' hU).shows,
      ?_, hstart _ _⟩, fun hjoint => ?_⟩
  · rw [reach_subset_iff (hpaid _) hbelow, isZero_natCast hb]
  · rw [reach_subset_iff (hpaid _) hbelow, isZero_natCast hb]
  · obtain ⟨X, hX, -⟩ := e.settles_globally g.calm (hl "G") hself hG hjoint
    obtain ⟨X', hX', hempty⟩ := e.settles_globally g.calm (hk "G") hself hG hjoint
    replace hX := hX.shows
    replace hX' := hX'.shows
    by_cases hzero : b' = replicate r 0
    · -- then the smaller bound is the same
      have hsame : b = b' := by
        rw [hzero, ← isZero_natCast hb]
        exact hbelow.isZero ((isZero_natCast hb').2 hzero)
      exact ⟨X, X, hX, hsame ▸ hX, fun h => absurd hzero h, fun _ => .inl hzero, fun _ => subset_rfl⟩
    · obtain rfl := hempty (by rw [← Bool.not_eq_true, isZero_natCast hb']; exact hzero)
      refine ⟨X, ∅, hX, hX', fun _ => rfl, ?_⟩
      rw [Set.subset_empty_iff, or_iff_right hzero]

/-- From `s0` the only agent can go to `s1`, for a price, and stays there for nothing. -/
def slope : Model where
  graph := [[.zero, .text "A"], [.zero, .text "A"]]
  states := ["s0", "s1"]
  props := ["p"]
  labels := [[.num 1], [.num 0]]
  initial := "s0"
  agents := .number 1
  costs := [("A;s0", .shared [1]), ("A;s1", .shared [0])]

theorem slope_costGame : CostGame .joint slope 1 1 [1] where
  playable := by decide
  square := by decide
  costs := by
    have hall : ∀ i j c, Model.cellAt? slope.graph i j = some c → ∀ move, slope.Lists c move →
        slope.costOf move (defaultName i) = .ok (.shared [1 - i]) := by decide
    exact fun i j c move hc hl => ⟨_, hall i j c hc move hl, rfl⟩
  resources := by decide
  named := by decide
  numerals a ha := mem_singleton.1 ha ▸ Nat.one_lt_pow (by decide) (by decide)
  calm := by decide

theorem answer_subset_iff_slope : ComparesBounds .joint slope 1 [1] [0] [1] ["s1"] ["s1"] :=
  answer_subset_iff slope_costGame rfl (.cons (by decide) .nil)
    (fun x hx => mem_singleton.1 hx ▸ Nat.one_lt_pow (by decide) (by decide)) ⟨by decide, by decide⟩
    ⟨by decide, by decide⟩

/-- With more to spend, `s0` is no longer among the states that reach it, and `s1` no longer among those that keep to
it. -/
theorem answer_loses_target_slope :
    CostGame .joint slope 1 1 [1] ∧
      answerOf .joint slope (.unary (boundedLabel [1] [0] "F") (.leaf (print ["s0"]))) = .ok (print ["s0"]) ∧
      answerOf .joint slope (.unary (boundedLabel [1] [1] "F") (.leaf (print ["s0"]))) = .ok (print []) ∧
      answerOf .joint slope (.unary (boundedLabel [1] [0] "G") (.leaf (print ["s1"]))) = .ok (print ["s1"]) ∧
      answerOf .joint slope (.unary (boundedLabel [1] [1] "G") (.leaf (print ["s1"]))) = .ok (print []) :=
  ⟨slope_costGame, by decide +kernel, by decide +kernel,
    by decide +kernel, by decide +kernel⟩

/-! ## Nothing to spend -/

theorem isLeast_fixed (hf : Monotone f) (h : IsLeast {X | f X ⊆ X} X) :
    IsLeast {X | f X = X} X := ⟨h.1.antisymm (h.2 (hf h.1)), fun _ hY => h.2 hY.le⟩

theorem isGreatest_fixed (hf : Monotone f) (h : IsGreatest {X | X ⊆ f X} X) :
    IsGreatest {X | f X = X} X := ⟨(h.2 (hf h.1)).antisymm h.1, fun _ hY => h.2 hY.ge⟩

/-- For every coalition the predecessors of a set within a bound are a function of both, which is monotone in both.
With nothing to spend, to reach a set gives its least fixpoint and to keep a set its greatest one, unless the set holds
all states. -/
theorem prints_fixpoint (g : Charged p m r agents) : ∃ F : Bound → Set String → Set String,
    (∀ b : Bound, b.length = r → (∀ x ∈ b, 0 ≤ x) → ∀ S : Names, (∀ q ∈ S, q ∈ m.states) →
      Yields (pre p m (text agents) S b) (F b S.toSet)) ∧
    (∀ b b' : Bound, b.length = r → AtMost b b' → ∀ S T, S ⊆ T → F b S ⊆ F b' T) ∧
    ∀ (again : Tree → Solving Tree) (left right : Tree) (φ ψ : Names), Within m φ → Within m ψ →
      (∃ X, Prints (solveOne p m again (.unary (boundedLabel agents (replicate r 0) "F") left) (some φ.print))
          (.unary (boundedLabel agents (replicate r 0) "F") left) X ∧
        IsLeast {X | φ.toSet ∪ toSet m.states ∩ F (replicate r 0) X = X} X) ∧
      (∃ X, Prints (solveTwo p m again (.binary (boundedLabel agents (replicate r 0) "U") left right) φ.print ψ.print)
          (.binary (boundedLabel agents (replicate r 0) "U") left right) X ∧
        IsLeast {X | ψ.toSet ∪ φ.toSet ∩ F (replicate r 0) X = X} X) ∧
      (p = .joint → φ.toSet ≠ toSet m.states →
        ∃ X, Prints (solveOne p m again (.unary (boundedLabel agents (replicate r 0) "G") left) (some φ.print))
            (.unary (boundedLabel agents (replicate r 0) "G") left) X ∧
          IsGreatest {X | φ.toSet ∩ F (replicate r 0) X = X} X) := by
  obtain ⟨step, e, hmono⟩ := g.exists_engine
  have hstates : toSet m.stateSet = toSet m.states := toSet_stateSet m
  refine ⟨step, fun b hb hpos S hS => ?_, fun b b' hb hle S T hST => hmono hb hle hST, ?_⟩
  · have := e.value hb hpos S (hstates ▸ hS)
    rwa [String.ofList_toList] at this
  intro again left right φ ψ hφ hψ
  have hl := bears_free g.named g.resources
  have hlow : ∀ {P : Prop}, isZero (replicate r 0) = false → P := fun h =>
    absurd (h.symm.trans (isZero_free r)) Bool.false_ne_true
  obtain ⟨-, hF, hG, hU⟩ := of?_letters p
  replace hF := ((hl "F").of?_eq e.numerals).1.trans hF
  replace hG := ((hl "G").of?_eq e.numerals).1.trans hG
  replace hU := ((hl "U").of?_eq e.numerals).2.trans hU
  have hcut : ∀ s : Set String, Monotone fun X => s ∩ step (replicate r 0) X := fun s X Y h =>
    Set.inter_subset_inter_right s (e.mono _ h)
  have hleast := e.isLeast_free (isZero_free r)
  simp only [Set.inter_comm (step _ _)] at hleast
  refine ⟨⟨_, e.prints_eventually again (hl "F") hφ hF fun h => hlow h, ?_⟩,
    ⟨_, e.prints_untl again (hl "U") hφ hψ hU fun h => hlow h, ?_⟩, ?_⟩
  · have := isLeast_fixed (fun X Y h => Set.union_subset_union_right _ (hcut _ h)) (hleast (toSet m.stateSet) φ.toSet)
    rwa [hstates] at this ⊢
  · exact isLeast_fixed (fun X Y h => Set.union_subset_union_right _ (hcut _ h)) (hleast φ.toSet ψ.toSet)
  · intro hp hne
    obtain ⟨X, -, hX, -, hgreatest⟩ := e.prints_globally again (a := left) (hl "G") hφ hG hp fun h => hlow h
    refine ⟨X, hX, ?_⟩
    have := hgreatest (isZero_free r) fun hall => absurd ((hφ.toSet_subset.antisymm hall).trans hstates) hne
    simp only [stepThrough, Set.inter_comm (step _ _)] at this
    exact isGreatest_fixed (hcut _) this

theorem prints_fixpoint_slope : ∃ F : Bound → Set String → Set String,
    (∀ b b' : Bound, b.length = 1 → AtMost b b' → ∀ S T, S ⊆ T → F b S ⊆ F b' T) ∧
    ∃ X, Prints (solveOne .joint slope pure (.unary (boundedLabel [1] [0] "F") (.leaf "")) (some (print ["s1"])))
        (.unary (boundedLabel [1] [0] "F") (.leaf "")) X ∧
      IsLeast {X | toSet ["s1"] ∪ toSet slope.states ∩ F [0] X = X} X :=
  (prints_fixpoint slope_costGame.charged).imp fun _ h =>
    ⟨h.2.1, (h.2.2 pure (.leaf "") (.leaf "") ["s1"] [] ⟨by decide, by decide⟩ ⟨by decide, by decide⟩).1⟩

/-! ## All bounds below a bound -/

/-- Counting up from zero to a bound that allows something meets every vector below the bound once, and the bound last.
Solving an operator bound by bound, to reach a set or to keep it, does for each of them but the bound what is done for
one. It comes to an end for all solved subformulas, whatever sound memory it starts with. -/
theorem eachBound_eq_foldlM (hpos : ∀ b ∈ bound, 0 ≤ b) (hz : isZero bound = false) : ∃ before : List Bound,
    (before ++ [bound]).head? = some (zeros bound) ∧
    (before ++ [bound]).IsChain (fun v w => increment v bound = .ok w) ∧ (before ++ [bound]).Nodup ∧
    (∀ v, v ∈ before ++ [bound] ↔ Below v bound) ∧
    (∀ step extend again label letter found node,
      eachBound step extend again label letter bound (vectors bound) (zeros bound) found node =
        before.foldlM (solveLower step extend again label letter bound) (found, node)) ∧
    (∀ p m again node letter coalition through target,
      let step (s : Names) (b : Bound) : Outcome Names := do return (← pre p m coalition s b).inter through
      let free (S t : Names) : Outcome Names := grow (step · (zeros bound)) (rounds m t) S t
      (solveReach p m again node letter coalition bound through target = do
        let (S, node) ← before.foldlM (solveLower step free again node.text letter bound) ([], node)
        return node.withText S.print) ∧
      solveKeep p m again node coalition bound through = do
        let (S, node) ← before.foldlM (solveLower step (fun S t => if S.subset t then .ok S else free S t) again
          node.text "G" bound) ([], node)
        return node.withText S.print) ∧
    ∀ p m agents, Charged p m bound.length agents → (∀ q ∈ m.states, Calm p q) → (∀ b ∈ bound, b < 10 ^ maxDigits) →
      ∃ F : Bound → Set String → Set String,
        (∀ b : Bound, b.length = bound.length → (∀ x ∈ b, 0 ≤ x) → ∀ S : Names, (∀ q ∈ S, q ∈ m.states) →
          Yields (pre p m (text agents) S b) (F b S.toSet)) ∧
        ∀ a b φ ψ, Rests p m a φ → Rests p m b ψ →
          Settles p m (.unary (boundedLabel agents (bound.map Int.toNat) "F") a)
            (reach (stepThrough F (toSet m.stateSet)) φ.toSet bound) ∧
          Settles p m (.binary (boundedLabel agents (bound.map Int.toNat) "U") a b)
            (reach (stepThrough F φ.toSet) ψ.toSet bound) ∧
          (p = .joint → Settles p m (.unary (boundedLabel agents (bound.map Int.toNat) "G") a) ∅) := by
  obtain ⟨before, hhead, hchain, hnodup, hmem, hfold, -⟩ := exists_count hpos (below_zeros hpos)
  have hloop := fun step extend again label letter found node =>
    @hfold step extend again label letter (vectors bound) (found, node) (by rw [vectors_eq]; omega)
  simp only [if_neg (zeros_ne hz)] at hloop
  refine ⟨before, hhead, hchain, hnodup, fun v => ?_, hloop, fun p m again node letter coalition through target => ?_,
    fun p m agents g hcalm hlimit => ?_⟩
  · rw [hmem, rank_zeros, and_iff_left (Nat.zero_le _)]
  · unfold solveReach solveKeep
    simp only [hz, hloop]
    exact ⟨rfl, rfl⟩
  · obtain ⟨step, e, -⟩ := g.exists_engine
    obtain ⟨-, hF, hG, hU⟩ := of?_letters p
    have hcast : (bound.map Int.toNat).map Nat.cast = bound := by
      rw [map_map]
      exact (map_congr_left fun b hb => Int.toNat_of_nonneg (hpos b hb)).trans (map_id bound)
    have hl : ∀ operator, Bears bound.length (text agents).toList bound operator
        (boundedLabel agents (bound.map Int.toNat) operator) := by
      intro operator
      rw [boundedLabel_eq_headed, hcast]
      exact bears_headed (numerals_text g.named) g.resources rfl (fun b hb => ⟨hpos b hb, hlimit b hb⟩) operator
    refine ⟨step, fun b hb hpos S hS => ?_, fun a b φ ψ ha hb => ⟨e.settles_eventually hcalm (hl "F") ha hF,
      e.settles_untl hcalm (hl "U") ha hb hU, fun hp => ?_⟩⟩
    · have := e.value hb hpos S (toSet_stateSet m ▸ hS)
      rwa [String.ofList_toList] at this
    · obtain ⟨X, hX, hempty⟩ := e.settles_globally hcalm (hl "G") ha hG hp
      exact hempty hz ▸ hX

theorem eachBound_eq_foldlM_slope : ∃ before : List Bound, (∀ v, v ∈ before ++ [[2]] ↔ Below v [2]) ∧
    Settles .joint slope (.unary (boundedLabel [1] [2] "G") (.leaf (print ["s1"]))) ∅ := by
  obtain ⟨before, -, -, -, hmem, -, -, hsettles⟩ :=
    eachBound_eq_foldlM (show ∀ b ∈ ([2] : Bound), 0 ≤ b by decide) (by decide)
  obtain ⟨F, -, hsettles⟩ := hsettles .joint slope [1] slope_costGame.charged slope_costGame.calm
    fun b hb => mem_singleton.1 hb ▸ by exact_mod_cast Text.lt_pow_maxDigits (n := 2) (by decide)
  have hrests := rests_leaf (p := .joint) slope_costGame.calm (renames_self (S := ["s1"]) (by decide) (by decide))
  exact ⟨before, hmem, (hsettles _ _ _ _ hrests hrests).2.2 rfl⟩

/-! ## The order of costs -/

theorem lexLe_iff : ∀ {xs ys : List Int}, lexLe xs ys = true ↔ xs = ys ∨ Lex (· < ·) xs ys
  | [], [] => by simp [lexLe]
  | [], y :: ys => by simp [lexLe]
  | x :: xs, [] => by simp [lexLe]
  | x :: xs, y :: ys => by
    rw [lexLe, cons.injEq, cons_lex_cons_iff]
    split
    · rename_i hxy
      rw [lexLe_iff, and_iff_right hxy, and_iff_right hxy, or_iff_right (a := x < y) (by omega)]
    · rename_i hxy
      simp [hxy]

/-- The joint actions that a coalition can pay are those whose cost comes no later than the bound in the order of a
dictionary: the first resource in which they differ decides, whatever the others cost. -/
theorem mem_affordable_iff (members : List String) {i : Nat} {moves : List Move}
    (hcosts : ∀ x ∈ moves, ∃ cost, m.costOf x (defaultName i) = .ok (.shared cost)) :
    ∃ found, affordable .joint m members bound i moves = .ok found ∧
      ∀ x, x ∈ found ↔ x ∈ moves ∧ ∃ cost, m.costOf x (defaultName i) = .ok (.shared cost) ∧
        (cost = bound ∨ List.Lex (· < ·) cost bound) := by
  have htest : ∀ x cost, m.costOf x (defaultName i) = .ok (.shared cost) →
      isAffordable .joint m members bound i x = .ok (lexLe cost bound) := by
    intro x cost hcost
    simp only [isAffordable, hcost, bind, Except.bind, withinBound]
  obtain ⟨found, hfound, hmem⟩ := exists_affordable fun x hx =>
    (hcosts x hx).imp' _ fun cost hcost => htest x cost hcost
  refine ⟨found, hfound, fun x => ?_⟩
  rw [hmem]
  refine and_congr_right fun hx => ?_
  obtain ⟨cost, hcost⟩ := hcosts x hx
  rw [htest x cost hcost, Except.ok.injEq, lexLe_iff]
  constructor
  · exact fun hle => ⟨cost, hcost, hle⟩
  · rintro ⟨cost', hcost', hle⟩
    cases hcost.symm.trans hcost'
    exact hle

/-- From `s0` the only agent goes to `s1` for much of the second resource, and back for nothing. -/
def steep : Model where
  graph := [[.zero, .text "A"], [.text "A", .zero]]
  states := ["s0", "s1"]
  props := ["p"]
  labels := [[.num 0], [.num 1]]
  initial := "s0"
  agents := .number 1
  costs := [("A;s0", .shared [0, 5]), ("A;s1", .shared [0, 0])]

theorem mem_affordable_iff_steep : ∃ found, affordable .joint steep ["1"] [0, 4] 0 ["A"] = .ok found ∧
    ∀ x, x ∈ found ↔ x ∈ ["A"] ∧ ∃ cost, steep.costOf x (defaultName 0) = .ok (.shared cost) ∧
      (cost = [0, 4] ∨ List.Lex (· < ·) cost [0, 4]) :=
  mem_affordable_iff ["1"] fun x hx => ⟨[0, 5], mem_singleton.1 hx ▸ by decide⟩

theorem pre_exceeds_steep : steep.costOf "A" (defaultName 0) = .ok (.shared [0, 5]) ∧
    affordable .joint steep ["1"] [1, 0] 0 ["A"] = .ok ["A"] ∧ pre .joint steep "1" ["s1"] [1, 0] = .ok ["s0"] :=
  ⟨by decide, by decide, by decide +kernel⟩

end Arena.Checker.Bounded
