/-
Games of one side against all others, with strategies that look at the state only. What the side can enforce are
fixpoints of what it can force in one step: staying in a set is the greatest one, going through a set into another the
least. A strategy for the least one follows the ranks at which states come into it; from a state outside it, every
strategy has a play that stays outside.
-/
import Arena.Proofs.Checker.Sentence
import Mathlib.Data.Set.Finite.Lattice

namespace Arena.Checker

/-- A game: `step q c r` says that from `q` the choice `c` of the side may lead to `r`. -/
structure Game (α κ : Type) where
  states : Set α
  step : α → κ → α → Prop

namespace Game

variable {α κ : Type} (G : Game α κ) {σ : α → κ} {φ ψ : Set α}

/-- There are finitely many states, none is left for anything else, and each has a choice. -/
structure Proper : Prop where
  finite : G.states.Finite
  stays : ∀ q ∈ G.states, ∀ c r, G.step q c r → r ∈ G.states
  moves : ∀ q ∈ G.states, ∃ c r, G.step q c r

/-- A strategy gives, at each state, a choice that the state has. -/
def IsStrategy (σ : α → κ) : Prop := ∀ q ∈ G.states, ∃ r, G.step q (σ q) r

/-- An infinite play from a state in which the side follows a strategy. -/
def IsPlay (σ : α → κ) (q : α) (π : ℕ → α) : Prop := IsPath (fun p r => G.step p (σ p) r) q π

/-- The side has a strategy with which every play from a state meets a goal. -/
def Enforces (goal : (ℕ → α) → Prop) (q : α) : Prop :=
  ∃ σ, G.IsStrategy σ ∧ ∀ π, G.IsPlay σ q π → goal π

/-- The states from which the side can force the next state into a set. -/
def force (X : Set α) : Set α :=
  {q | q ∈ G.states ∧ ∃ c, (∃ r, G.step q c r) ∧ ∀ r, G.step q c r → r ∈ X}

variable {G}

theorem force_subset (X : Set α) : G.force X ⊆ G.states := fun _ hq => hq.1

theorem force_mono : Monotone G.force := fun _ _ h _ ⟨hq, c, hr, hX⟩ => ⟨hq, c, hr, fun r hs => h (hX r hs)⟩

theorem force_empty : G.force ∅ = ∅ := by
  refine Set.eq_empty_of_forall_notMem ?_
  rintro q ⟨-, c, ⟨r, hr⟩, hX⟩
  exact hX r hr

theorem Proper.force_states (h : G.Proper) : G.force G.states = G.states := by
  refine Set.Subset.antisymm (force_subset _) fun q hq => ?_
  obtain ⟨c, hr⟩ := h.moves q hq
  exact ⟨hq, c, hr, h.stays q hq c⟩

/-! ## Strategies and plays -/

theorem exists_isStrategy [Nonempty κ] {P : α → κ → Prop}
    (h : ∀ q ∈ G.states, ∃ c, (∃ r, G.step q c r) ∧ P q c) : ∃ σ, G.IsStrategy σ ∧ ∀ q ∈ G.states, P q (σ q) := by
  choose! σ hσ using h
  exact ⟨σ, fun q hq => (hσ q hq).1, fun q hq => (hσ q hq).2⟩

theorem Proper.exists_step (h : G.Proper) (hσ : G.IsStrategy σ) : ∀ p ∈ G.states, ∃ r ∈ G.states, G.step p (σ p) r := by
  intro p hp
  obtain ⟨r, hr⟩ := hσ p hp
  exact ⟨r, h.stays p hp _ r hr, hr⟩

theorem Proper.exists_isPlay (h : G.Proper) (hσ : G.IsStrategy σ) {q : α} (hq : q ∈ G.states) :
    ∃ π, G.IsPlay σ q π := by
  obtain ⟨π, hπ, -⟩ := exists_isPath (h.exists_step hσ) hq
  exact ⟨π, hπ⟩

/-- The next state can be forced into a set where a strategy makes it the second state of every play. -/
theorem Proper.force_eq [Nonempty κ] (h : G.Proper) (φ : Set α) :
    G.force φ = {q | q ∈ G.states ∧ G.Enforces (fun π => π 1 ∈ φ) q} := by
  ext q
  constructor
  · rintro ⟨hq, c, hc, hφ⟩
    -- what the strategy does at the other states plays no part
    have hchoice : ∀ p ∈ G.states, ∃ c, (∃ r, G.step p c r) ∧ (p = q → ∀ r, G.step p c r → r ∈ φ) := by
      intro p hp
      by_cases hpq : p = q
      · exact ⟨c, hpq ▸ hc, fun _ => hpq ▸ hφ⟩
      · obtain ⟨c', hc'⟩ := h.moves p hp
        exact ⟨c', hc', fun e => absurd e hpq⟩
    obtain ⟨σ, hσ, hgoal⟩ := exists_isStrategy hchoice
    exact ⟨hq, σ, hσ, fun π hπ => hgoal q hq rfl _ hπ.tail.1⟩
  · rintro ⟨hq, σ, hσ, hgoal⟩
    refine ⟨hq, σ q, hσ q hq, fun r hr => ?_⟩
    obtain ⟨π, hπ⟩ := h.exists_isPlay hσ (h.stays q hq _ r hr)
    have hmem : π 0 ∈ φ := hgoal _ (hπ.cons hr)
    exact hπ.1 ▸ hmem

/-! ## Staying in a set until another one releases -/

theorem Proper.isGreatest_release [Nonempty κ] (h : G.Proper) (hψ : ψ ⊆ G.states) :
    IsGreatest {X | X ⊆ ψ ∩ (φ ∪ G.force X)}
      {q | q ∈ G.states ∧ G.Enforces (fun π => ∀ k, (∀ j < k, π j ∉ φ) → π k ∈ ψ) q} := by
  constructor
  · rintro q ⟨hq, σ, hσ, hgoal⟩
    obtain ⟨π, hπ⟩ := h.exists_isPlay hσ hq
    refine ⟨hπ.1 ▸ hgoal π hπ 0 (by simp), or_iff_not_imp_left.2 fun hqφ => ?_⟩
    refine ⟨hq, σ q, hσ q hq, fun r hr => ⟨h.stays q hq _ r hr, σ, hσ, fun ρ hρ k hk => ?_⟩⟩
    refine hgoal _ (hρ.cons hr) (k + 1) fun j hj => ?_
    cases j with
    | zero => exact hqφ
    | succ j => exact hk j (by omega)
  · intro X hX q hq
    -- only at states outside `φ` does the choice matter
    have hchoice : ∀ p ∈ G.states, ∃ c, (∃ r, G.step p c r) ∧ (p ∈ X → p ∉ φ → ∀ r, G.step p c r → r ∈ X) := by
      intro p hp
      by_cases hpX : p ∈ X ∧ p ∉ φ
      · obtain ⟨-, c, hc, hcX⟩ := (hX hpX.1).2.resolve_left hpX.2
        exact ⟨c, hc, fun _ _ => hcX⟩
      · obtain ⟨c, hc⟩ := h.moves p hp
        exact ⟨c, hc, fun h1 h2 => absurd ⟨h1, h2⟩ hpX⟩
    obtain ⟨σ, hσ, hkeep⟩ := exists_isStrategy hchoice
    have hXG : X ⊆ G.states := fun p hp => hψ (hX hp).1
    refine ⟨hXG hq, σ, hσ, fun π hπ k hk => (hX ?_).1⟩
    induction k with
    | zero => exact hπ.1 ▸ hq
    | succ k ih =>
      have hin : π k ∈ X := ih fun j hj => hk j (by omega)
      exact hkeep _ (hXG hin) hin (hk k (by omega)) _ (hπ.2 k)

theorem Proper.isGreatest_globally [Nonempty κ] (h : G.Proper) (hφ : φ ⊆ G.states) :
    IsGreatest {X | X ⊆ G.force X ∩ φ} {q | q ∈ G.states ∧ G.Enforces (fun π => ∀ i, π i ∈ φ) q} := by
  simpa [Set.inter_comm] using h.isGreatest_release (φ := ∅) hφ

/-! ## Going through a set into another -/

/-- The states from which the side can go through `φ` into `ψ` within a number of steps. -/
def within (G : Game α κ) (φ ψ : Set α) : ℕ → Set α
  | 0 => ψ
  | n + 1 => within G φ ψ n ∪ G.force (within G φ ψ n) ∩ φ

theorem within_mono : Monotone (G.within φ ψ) := monotone_nat_of_le_succ fun _ => Set.subset_union_left

theorem within_subset (hψ : ψ ⊆ G.states) : ∀ n, G.within φ ψ n ⊆ G.states
  | 0 => hψ
  | n + 1 => Set.union_subset (within_subset hψ n) (Set.inter_subset_left.trans (force_subset _))

/-- The states that come in at some rank make a closed set, since a state has finitely many successors. -/
theorem Proper.within_closed (h : G.Proper) : ψ ∪ G.force (⋃ n, G.within φ ψ n) ∩ φ ⊆ ⋃ n, G.within φ ψ n := by
  rintro q (hq | ⟨⟨hq, c, hc, hX⟩, hφ⟩)
  · exact Set.mem_iUnion.2 ⟨0, hq⟩
  · have hfin : {r | G.step q c r}.Finite := h.finite.subset fun r hr => h.stays q hq c r hr
    have hranks : ∀ r, G.step q c r → ∃ n, r ∈ G.within φ ψ n := fun r hr => Set.mem_iUnion.1 (hX r hr)
    choose! rank hrank using hranks
    obtain ⟨N, hN⟩ := (hfin.image rank).bddAbove
    refine Set.mem_iUnion.2 ⟨N + 1, .inr ⟨⟨hq, c, hc, fun r hr => ?_⟩, hφ⟩⟩
    exact within_mono (hN (Set.mem_image_of_mem rank hr)) (hrank r hr)

/-- One strategy goes, from each state that comes in at some rank, to states of lower ranks. -/
theorem Proper.exists_ranked [Nonempty κ] (h : G.Proper) : ∃ σ, G.IsStrategy σ ∧ ∀ q ∈ G.states, ∀ n,
    q ∈ G.within φ ψ (n + 1) → q ∉ G.within φ ψ n → ∀ r, G.step q (σ q) r → r ∈ G.within φ ψ n := by
  have hchoice : ∀ q ∈ G.states, ∃ c, (∃ r, G.step q c r) ∧ ∀ n,
      q ∈ G.within φ ψ (n + 1) → q ∉ G.within φ ψ n → ∀ r, G.step q c r → r ∈ G.within φ ψ n := by
    intro q hq
    by_cases hn : ∃ n, q ∈ G.within φ ψ (n + 1) ∧ q ∉ G.within φ ψ n
    · obtain ⟨n, hin, hout⟩ := hn
      obtain ⟨⟨-, c, hc, hX⟩, -⟩ := hin.resolve_left hout
      refine ⟨c, hc, fun k hk hk' => ?_⟩
      -- a state comes in at one rank only
      have hkn : k = n := by
        rcases Nat.lt_trichotomy k n with hlt | heq | hgt
        · exact absurd (within_mono hlt hk) hout
        · exact heq
        · exact absurd (within_mono hgt hin) hk'
      exact hkn ▸ hX
    · obtain ⟨c, hc⟩ := h.moves q hq
      exact ⟨c, hc, fun n h1 h2 => absurd ⟨n, h1, h2⟩ hn⟩
  exact exists_isStrategy hchoice

theorem until_of_ranked (hσ : ∀ q ∈ G.states, ∀ n,
    q ∈ G.within φ ψ (n + 1) → q ∉ G.within φ ψ n → ∀ r, G.step q (σ q) r → r ∈ G.within φ ψ n) :
    ∀ (n : ℕ) (q : α) (π : ℕ → α), q ∈ G.within φ ψ n → G.IsPlay σ q π → ∃ k, (∀ i < k, π i ∈ φ) ∧ π k ∈ ψ
  | 0, q, π, hq, hπ => ⟨0, by simp, hπ.1 ▸ hq⟩
  | n + 1, q, π, hq, hπ => by
    by_cases hqn : q ∈ G.within φ ψ n
    · exact until_of_ranked hσ n q π hqn hπ
    · obtain ⟨⟨hqG, -⟩, hqφ⟩ := hq.resolve_left hqn
      have hnext := hσ q hqG n hq hqn _ hπ.tail.1
      obtain ⟨k, hk, hkψ⟩ := until_of_ranked hσ n _ _ hnext hπ.tail.2
      refine ⟨k + 1, fun i hi => ?_, hkψ⟩
      cases i with
      | zero => exact hπ.1 ▸ hqφ
      | succ i => exact hk i (by omega)

/-- Against any strategy, a play from a state outside a closed set does not meet the goal. -/
theorem Proper.enforces_until_subset (h : G.Proper) {X : Set α} (hX : ψ ∪ G.force X ∩ φ ⊆ X) :
    {q | q ∈ G.states ∧ G.Enforces (fun π => ∃ n, (∀ i < n, π i ∈ φ) ∧ π n ∈ ψ) q} ⊆ X := by
  rintro q ⟨hq, σ, hσ, hgoal⟩
  by_contra hqX
  have havoid : ∀ p ∈ G.states, p ∉ X → p ∈ φ → ∃ r ∈ G.states, G.step p (σ p) r ∧ r ∉ X := by
    intro p hp hpX hpφ
    -- otherwise the choice of the strategy would force the closed set
    by_contra hno
    refine hpX (hX (.inr ⟨⟨hp, σ p, hσ p hp, fun r hr => ?_⟩, hpφ⟩))
    by_contra hrX
    exact hno ⟨r, h.stays p hp _ r hr, hr, hrX⟩
  obtain ⟨π, hπ, hnot⟩ := exists_isPath_not_until (h.exists_step hσ) havoid (Set.subset_union_left.trans hX) hq hqX
  exact hnot (hgoal π hπ)

theorem Proper.isLeast_until [Nonempty κ] (h : G.Proper) (hψ : ψ ⊆ G.states) :
    IsLeast {X | ψ ∪ G.force X ∩ φ ⊆ X}
      {q | q ∈ G.states ∧ G.Enforces (fun π => ∃ n, (∀ i < n, π i ∈ φ) ∧ π n ∈ ψ) q} := by
  have hwithin : {q | q ∈ G.states ∧ G.Enforces (fun π => ∃ n, (∀ i < n, π i ∈ φ) ∧ π n ∈ ψ) q} =
      ⋃ n, G.within φ ψ n := by
    refine Set.Subset.antisymm (h.enforces_until_subset h.within_closed) (Set.iUnion_subset fun n q hq => ?_)
    obtain ⟨σ, hσ, hrank⟩ := h.exists_ranked (φ := φ) (ψ := ψ)
    exact ⟨within_subset hψ n hq, σ, hσ, fun π hπ => until_of_ranked hrank n q π hq hπ⟩
  refine ⟨?_, fun X hX => h.enforces_until_subset hX⟩
  rw [hwithin]
  exact h.within_closed

theorem Proper.isLeast_eventually [Nonempty κ] (h : G.Proper) (hψ : ψ ⊆ G.states) :
    IsLeast {X | ψ ∪ G.force X ⊆ X} {q | q ∈ G.states ∧ G.Enforces (fun π => ∃ n, π n ∈ ψ) q} := by
  simpa only [Set.inter_univ, Set.mem_univ, implies_true, true_and] using h.isLeast_until (φ := Set.univ) hψ

end Game

/-- A checker shows, for the temporal operators of a side and two sets, where the side can enforce them. -/
structure ShowsEnforced {κ : Type} (solve : Tree → Outcome String) (label : String → String) (G : Game String κ)
    (φ ψ : Names) : Prop where
  next : Shows (solve (.unary (label "X") (.leaf φ.print)))
    {q | q ∈ G.states ∧ G.Enforces (fun π => π 1 ∈ φ.toSet) q}
  globally : Shows (solve (.unary (label "G") (.leaf φ.print)))
    {q | q ∈ G.states ∧ G.Enforces (fun π => ∀ i, π i ∈ φ.toSet) q}
  eventually : Shows (solve (.unary (label "F") (.leaf φ.print)))
    {q | q ∈ G.states ∧ G.Enforces (fun π => ∃ i, π i ∈ φ.toSet) q}
  untl : Shows (solve (.binary (label "U") (.leaf φ.print) (.leaf ψ.print)))
    {q | q ∈ G.states ∧ G.Enforces (fun π => ∃ i, (∀ j < i, π j ∈ φ.toSet) ∧ π i ∈ ψ.toSet) q}

end Arena.Checker
