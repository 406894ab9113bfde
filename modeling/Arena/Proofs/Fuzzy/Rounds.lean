/-
The rounds of the graded operators, for exact degrees. The states whose degree reaches a threshold after a round depend
only on those that reached it before, so each threshold is decided after as many rounds as there are states. Existential
until is then a least fixpoint, existential globally a greatest one.
-/
import Arena.Fuzzy.Branching
import Arena.Proofs.Fuzzy.Structure
import Mathlib.Data.Finset.Card

namespace Arena.Fuzzy

open List Text Fuzzy.Valuation
open Degree (zero one)

variable {s : String} {S : List String}

/-! ## Exact degrees -/

/-- Degrees that are compared as the members of a linear order. -/
class ExactDegree (α : Type) [LinearOrder α] [Degree α] : Prop where
  less_iff {x y : α} : Degree.less x y = true ↔ x < y
  same_iff {x y : α} : Degree.same x y = true ↔ x = y
  zero_le_one : (zero : α) ≤ one

/-- Fractions as degrees. -/
instance : Degree ℚ where
  zero := 0
  one := 1
  complement x := 1 - x
  less x y := x < y
  same x y := x = y
  ratio a b := a / b
  parse? s := s.toInt?.map fun n => n

instance : ExactDegree ℚ where
  less_iff := decide_eq_true_iff
  same_iff := decide_eq_true_iff
  zero_le_one := Rat.num_nonneg.1 Int.one_nonneg

variable {α : Type}

namespace Degree

variable [LinearOrder α] [Degree α] [ExactDegree α]

theorem min_eq (x y : α) : min x y = Min.min x y := by
  unfold min
  simp only [ExactDegree.less_iff]
  split
  · rename_i h
    exact (min_eq_right h.le).symm
  · rename_i h
    exact (min_eq_left (not_lt.1 h)).symm

theorem max_eq (x y : α) : max x y = Max.max x y := by
  unfold max
  simp only [ExactDegree.less_iff]
  split
  · rename_i h
    exact (max_eq_right h.le).symm
  · rename_i h
    exact (max_eq_left (not_lt.1 h)).symm

theorem maxOf_eq (d : α) (xs : List α) : maxOf d xs = xs.max?.getD d := by
  cases xs with
  | nil => rfl
  | cons x xs =>
    have hmax : (max : α → α → α) = Max.max := funext₂ max_eq
    rw [maxOf, hmax]
    rfl

end Degree

/-! ## Tables -/

namespace Valuation

theorem get?_cons (e : String × α) (v : Valuation α) (s : String) :
    get? (e :: v) s = if e.1 = s then some e.2 else v.get? s := by
  unfold get?
  by_cases h : e.1 = s <;> simp [h]

theorem get?_tabulate (keys : List String) (f : String → α) (s : String) :
    (tabulate keys f).get? s = if s ∈ keys then some (f s) else none := by
  have hmem : s ∈ keys ↔ s ∈ distinct keys := mem_distinct.symm
  simp only [hmem]
  unfold tabulate
  induction distinct keys with
  | nil => rfl
  | cons t ts ih =>
    rw [map_cons, get?_cons]
    grind

theorem get?_foldl_put (f : String → α) (xs : List String) (s : String) : ∀ v : Valuation α,
    ((xs.map fun t => (t, f t)).foldl (fun v e => v.put e.1 e.2) v).get? s = if s ∈ xs then some (f s) else v.get? s := by
  induction xs with
  | nil => intro v; simp
  | cons x xs ih =>
    intro v
    rw [map_cons, foldl_cons, ih, get?_put]
    by_cases hs : s ∈ xs <;> by_cases hx : s = x <;> simp [hx]

variable [Degree α]

/-- The degree at a key, 0 where the table has none. -/
def at_ (v : Valuation α) (s : String) : α := (v.get? s).getD zero

theorem get_eq_at {v : Valuation α} (h : s ∈ v.keys) : v.get s = .ok (v.at_ s) := by
  obtain ⟨x, hx⟩ := Option.isSome_iff_exists.1 (get?_isSome.2 h)
  rw [get, at_, hx]
  rfl

theorem at_tabulate {keys : List String} (f : String → α) (h : s ∈ keys) : (tabulate keys f).at_ s = f s := by
  rw [at_, get?_tabulate, if_pos h]
  rfl

end Valuation

/-! ## Thresholds -/

section Thresholds

variable [LinearOrder α]

/-- An operator for which what reaches a threshold afterwards depends, monotonically, on what reached it before. -/
def Cuts (S : List String) (F : (String → α) → String → α) : Prop :=
  ∀ ⦃a v w⦄, (∀ s ∈ S, a ≤ v s → a ≤ w s) → ∀ s ∈ S, a ≤ F v s → a ≤ F w s

/-- The degrees are a fixpoint of an operator, and below every other one. -/
def LeastFixpoint (S : List String) (F : (String → α) → String → α) (v : String → α) : Prop :=
  (∀ s ∈ S, v s = F v s) ∧ ∀ w, (∀ s ∈ S, w s = F w s) → ∀ s ∈ S, v s ≤ w s

variable {F : (String → α) → String → α} (hF : Cuts S F) {v w : String → α}

include hF

theorem Cuts.mono (h : ∀ s ∈ S, v s ≤ w s) : ∀ s ∈ S, F v s ≤ F w s := fun s hs =>
  hF (fun t ht ha => ha.trans (h t ht)) s hs le_rfl

theorem Cuts.congr (h : ∀ s ∈ S, v s = w s) : ∀ s ∈ S, F v s = F w s := fun s hs =>
  le_antisymm (hF.mono (fun t ht => (h t ht).le) s hs) (hF.mono (fun t ht => (h t ht).ge) s hs)

theorem Cuts.iterate_mono (h : ∀ s ∈ S, v s ≤ w s) (n : Nat) : ∀ s ∈ S, F^[n] v s ≤ F^[n] w s := by
  induction n with
  | zero => exact h
  | succ n ih =>
    simp only [Function.iterate_succ_apply']
    exact hF.mono ih

theorem Cuts.iterate_congr (h : ∀ s ∈ S, v s = w s) (n : Nat) : ∀ s ∈ S, F^[n] v s = F^[n] w s := fun s hs =>
  le_antisymm (hF.iterate_mono (fun t ht => (h t ht).le) n s hs) (hF.iterate_mono (fun t ht => (h t ht).ge) n s hs)

/-- Degrees that the operator does not raise, below all others of that kind, are its least fixpoint. -/
theorem Cuts.leastFixpoint (hv : ∀ s ∈ S, F v s ≤ v s) (hleast : ∀ w, (∀ s ∈ S, F w s ≤ w s) → ∀ s ∈ S, v s ≤ w s) :
    LeastFixpoint S F v :=
  ⟨fun s hs => le_antisymm (hleast (F v) (hF.mono hv) s hs) (hv s hs),
    fun w hw => hleast w fun s hs => (hw s hs).ge⟩

omit hF [LinearOrder α] in
/-- Growing sets of states, each given by the one before, are the same after as many steps as there are states. -/
theorem chain_stops {p : Nat → String → Prop} (hp : ∀ n, ∀ s ∈ S, p n s → p (n + 1) s)
    (hnext : ∀ n, (∀ s ∈ S, p (n + 1) s → p n s) → ∀ s ∈ S, p (n + 2) s → p (n + 1) s) :
    ∀ s ∈ S, p (S.length + 1) s → p S.length s := by
  classical
  let C (n : Nat) : Finset String := S.toFinset.filter (p n)
  have hC : ∀ {n s}, s ∈ C n ↔ s ∈ S ∧ p n s := by simp [C]
  have hsub : ∀ n, C n ⊆ C (n + 1) := fun n s hs => hC.2 ⟨(hC.1 hs).1, hp n s (hC.1 hs).1 (hC.1 hs).2⟩
  have hback : ∀ n, (C n).card = (C (n + 1)).card → ∀ s ∈ S, p (n + 1) s → p n s := fun n hn s hs h =>
    (hC.1 (Finset.eq_of_subset_of_card_le (hsub n) hn.ge ▸ hC.2 ⟨hs, h⟩)).2
  refine hback _ (Nat.stabilises_of_monotone (f := fun n => (C n).card) ?_ ?_ ?_ (Nat.le_succ _)).symm
  · exact monotone_nat_of_le_succ fun n => Finset.card_le_card (hsub n)
  · exact fun n => (Finset.card_filter_le ..).trans (toFinset_card_le S)
  · intro n hn
    refine congrArg _ (Finset.Subset.antisymm (hsub _) fun s hs => ?_)
    exact hC.2 ⟨(hC.1 hs).1, hnext n (hback n hn) s (hC.1 hs).1 (hC.1 hs).2⟩

theorem Cuts.stops_above (hv : ∀ s ∈ S, v s ≤ F v s) : ∀ s ∈ S, F (F^[S.length] v) s ≤ F^[S.length] v s := by
  have hchain : ∀ n, ∀ s ∈ S, F^[n] v s ≤ F^[n + 1] v s := hF.iterate_mono hv
  intro s hs
  rw [← Function.iterate_succ_apply' F]
  refine chain_stops (p := fun n t => F^[S.length + 1] v s ≤ F^[n] v t) (fun n t ht h => h.trans (hchain n t ht)) ?_ s hs le_rfl
  intro n h
  simp only [Function.iterate_succ_apply'] at h ⊢
  exact hF h

theorem Cuts.stops_below (hv : ∀ s ∈ S, F v s ≤ v s) : ∀ s ∈ S, F (F^[S.length] v) s = F^[S.length] v s := by
  have hchain : ∀ n, ∀ s ∈ S, F^[n + 1] v s ≤ F^[n] v s := hF.iterate_mono hv
  intro s hs
  rw [← Function.iterate_succ_apply' F]
  refine le_antisymm (hchain _ s hs) (not_imp_not.1 (chain_stops (p := fun n t => ¬ F^[S.length] v s ≤ F^[n] v t)
    (fun n t ht h h' => h (h'.trans (hchain n t ht))) ?_ s hs) le_rfl)
  intro n h t ht
  simp only [Function.iterate_succ_apply', not_imp_not] at h ⊢
  exact hF h t ht

end Thresholds

namespace Branching

variable [LinearOrder α] [Degree α] {k : Kripke α} {phi psi v : String → α}

/-! ## Existential until -/

/-- The best degree of a successor, 0 without successors. -/
def bestNext (k : Kripke α) (v : String → α) (s : String) : α :=
  ((k.post s).map fun e => min e.2 (v e.1)).max?.getD zero

def untilSome (k : Kripke α) (phi psi v : String → α) (s : String) : α := max (psi s) (min (phi s) (bestNext k v s))

def globallySome (k : Kripke α) (phi v : String → α) (s : String) : α := min (phi s) (bestNext k v s)

/-- Some finite path has this value: the least of the first degrees before its end, the degrees of its edges, and the
second degree at its end. -/
inductive PathValue (k : Kripke α) (phi psi : String → α) : String → α → Prop
  | stop (s : String) : PathValue k phi psi s (psi s)
  | step {s : String} {e : String × α} {x : α} (he : e ∈ k.post s) (h : PathValue k phi psi e.1 x) :
    PathValue k phi psi s (min (phi s) (min e.2 x))

theorem le_bestNext {a : α} :
    a ≤ bestNext k v s ↔ (∃ e ∈ k.post s, a ≤ min e.2 (v e.1)) ∨ k.post s = [] ∧ a ≤ zero := by
  unfold bestNext
  cases hmax : ((k.post s).map fun e => min e.2 (v e.1)).max? with
  | none => simp [map_eq_nil_iff.1 (max?_eq_none_iff.1 hmax)]
  | some x =>
    obtain ⟨hx, hle⟩ := max?_eq_some_iff.1 hmax
    obtain ⟨e, he, rfl⟩ := mem_map.1 hx
    rw [or_iff_left fun h => ne_nil_of_mem he h.1]
    exact ⟨fun h => ⟨e, he, h⟩, fun ⟨d, hd, h⟩ => h.trans (hle _ (mem_map_of_mem hd))⟩

section Closed

variable (hk : ∀ s ∈ k.states, ∀ e ∈ k.post s, e.1 ∈ k.states)

include hk

theorem cuts_bestNext : Cuts k.states (bestNext k) := by
  intro a v w h s hs ha
  rcases le_bestNext.1 ha with ⟨e, he, hae⟩ | hend
  · obtain ⟨hr, hv⟩ := le_min_iff.1 hae
    exact le_bestNext.2 (.inl ⟨e, he, le_min hr (h e.1 (hk s hs e he) hv)⟩)
  · exact le_bestNext.2 (.inr hend)

theorem cuts_untilSome (phi psi : String → α) : Cuts k.states (untilSome k phi psi) := by
  intro a v w h s hs ha
  refine le_max_iff.2 ((le_max_iff.1 ha).imp_right fun hmin => ?_)
  obtain ⟨hphi, hbest⟩ := le_min_iff.1 hmin
  exact le_min hphi (cuts_bestNext hk h s hs hbest)

theorem cuts_globallySome (phi : String → α) : Cuts k.states (globallySome k phi) := by
  intro a v w h s hs ha
  obtain ⟨hphi, hbest⟩ := le_min_iff.1 ha
  exact le_min hphi (cuts_bestNext hk h s hs hbest)

theorem cuts_round (phi : String → α) : Cuts k.states fun v => untilSome k phi v v := by
  intro a v w h s hs ha
  rcases le_max_iff.1 ha with hv | hmin
  · exact le_max_of_le_left (h s hs hv)
  · obtain ⟨hphi, hbest⟩ := le_min_iff.1 hmin
    exact le_max_of_le_right (le_min hphi (cuts_bestNext hk h s hs hbest))

/-- As many rounds as states reach degrees that the operator does not raise. -/
theorem untilSome_rounds_le (phi psi : String → α) : ∀ s ∈ k.states,
    untilSome k phi psi ((fun v => untilSome k phi v v)^[k.states.length] psi) s ≤
      (fun v => untilSome k phi v v)^[k.states.length] psi s := by
  have hstart : ∀ n s, psi s ≤ (fun v => untilSome k phi v v)^[n] psi s := by
    intro n s
    induction n with
    | zero => exact le_rfl
    | succ n ih =>
      rw [Function.iterate_succ_apply']
      exact ih.trans (le_max_left ..)
  intro s hs
  have hstop := (cuts_round hk phi).stops_above (v := psi) (fun s _ => le_max_left ..) s hs
  exact max_le (hstart _ s) ((le_max_right ..).trans hstop)

theorem rounds_le (hv : ∀ s ∈ k.states, untilSome k phi psi v s ≤ v s) (n : Nat) :
    ∀ s ∈ k.states, (fun v => untilSome k phi v v)^[n] psi s ≤ v s := by
  induction n with
  | zero => exact fun s hs => (le_max_left ..).trans (hv s hs)
  | succ n ih =>
    intro s hs
    rw [Function.iterate_succ_apply']
    refine max_le (ih s hs) (le_trans ?_ ((le_max_right ..).trans (hv s hs)))
    exact min_le_min_left _ ((cuts_bestNext hk).mono ih s hs)

theorem PathValue.le {x : α} (h : PathValue k phi psi s x) (hv : ∀ s ∈ k.states, untilSome k phi psi v s ≤ v s)
    (hs : s ∈ k.states) : x ≤ v s := by
  induction h with
  | stop s => exact (le_max_left ..).trans (hv s hs)
  | @step s e x he _ ih =>
    have hbest : min e.2 x ≤ bestNext k v s :=
      le_bestNext.2 (.inl ⟨e, he, min_le_min_left _ (ih (hk s hs e he))⟩)
    exact (min_le_min_left _ hbest).trans ((le_max_right ..).trans (hv s hs))

/-- Where no degree is negative, what the rounds have found is the value of a path. -/
theorem pathValue_rounds (hpsi : ∀ s ∈ k.states, zero ≤ psi s) (n : Nat) :
    ∀ s ∈ k.states, PathValue k phi psi s ((fun v => untilSome k phi v v)^[n] psi s) ∧
      zero ≤ (fun v => untilSome k phi v v)^[n] psi s := by
  induction n with
  | zero => exact fun s hs => ⟨.stop s, hpsi s hs⟩
  | succ n ih =>
    intro s hs
    rw [Function.iterate_succ_apply']
    generalize (fun v => untilSome k phi v v)^[n] psi = v at ih ⊢
    obtain ⟨hpath, hzero⟩ := ih s hs
    refine ⟨?_, hzero.trans (le_max_left ..)⟩
    rcases le_bestNext.1 (le_refl (bestNext k v s)) with ⟨e, he, hle⟩ | ⟨-, hle⟩
    · have hbest := le_antisymm hle (le_bestNext.2 (.inl ⟨e, he, le_rfl⟩))
      rw [untilSome, hbest]
      rcases max_choice (v s) (min (phi s) (min e.2 (v e.1))) with h | h
      · rw [h]
        exact hpath
      · rw [h]
        exact .step he (ih e.1 (hk s hs e he)).1
    · rw [untilSome, max_eq_left ((min_le_right ..).trans (hle.trans hzero))]
      exact hpath

variable [ExactDegree α] {phi psi : Valuation α}

theorem untilAt_eq {v : Valuation α} (hv : ∀ s ∈ k.states, s ∈ v.keys) (hs : s ∈ k.states) :
    untilAt k phi v s = .ok (untilSome k phi.at_ v.at_ v.at_ s) := by
  have hnext : (k.post s).mapM (fun e => do return Degree.min e.2 (← v.get e.1)) =
      .ok ((k.post s).map fun e => min e.2 (v.at_ e.1)) := mapM_eq_map fun e he => by
    rw [get_eq_at (hv _ (hk s hs e he)), ← Degree.min_eq]
    rfl
  refine bind_eq_ok.2 ⟨_, hnext, bind_eq_ok.2 ⟨_, get_eq_at (hv s hs), ?_⟩⟩
  rw [Degree.max_eq, Degree.min_eq, Degree.maxOf_eq]
  rfl

theorem untilRounds_eq (phi : Valuation α) (n : Nat) {v : Valuation α} (hv : ∀ s ∈ k.states, s ∈ v.keys) :
    ∃ v', untilRounds k phi n v = .ok v' ∧ (∀ s ∈ k.states, s ∈ v'.keys) ∧
      ∀ s ∈ k.states, v'.at_ s = (fun w => untilSome k phi.at_ w w)^[n] v.at_ s := by
  induction n generalizing v with
  | zero => exact ⟨v, rfl, hv, fun _ _ => rfl⟩
  | succ n ih =>
    let f := untilSome k phi.at_ v.at_ v.at_
    have hnew : k.states.mapM (fun s => do return (s, ← untilAt k phi v s)) = .ok (k.states.map fun s => (s, f s)) :=
      mapM_eq_map fun s hs => by rw [untilAt_eq hk hv hs]; rfl
    have hget := get?_foldl_put f k.states
    obtain ⟨v', hv', hkeys, hat⟩ := ih (v := (k.states.map fun s => (s, f s)).foldl (fun v e => v.put e.1 e.2) v)
      fun s hs => get?_isSome.1 (by rw [hget, if_pos hs]; rfl)
    refine ⟨v', bind_eq_ok.2 ⟨_, bind_eq_ok.2 ⟨_, hnew, rfl⟩, hv'⟩, hkeys, fun s hs => ?_⟩
    rw [hat s hs]
    refine (cuts_round hk _).iterate_congr (fun t ht => ?_) n s hs
    rw [at_, hget, if_pos ht]
    rfl

/-- Existential until is a least fixpoint, and the best value of a finite path where no degree is negative. -/
theorem someUntil_leastFixpoint (phi psi : Valuation α) (hpsi : ∀ s ∈ k.states, s ∈ psi.keys) :
    ∃ v, someUntil k phi psi = .ok v ∧ (∀ s ∈ k.states, s ∈ v.keys) ∧
      LeastFixpoint k.states (untilSome k phi.at_ psi.at_) v.at_ ∧
      ((∀ s ∈ k.states, zero ≤ psi.at_ s) →
        ∀ s ∈ k.states, IsGreatest {x | PathValue k phi.at_ psi.at_ s x} (v.at_ s)) := by
  obtain ⟨v, hv, hkeys, hat⟩ := untilRounds_eq hk phi k.states.length hpsi
  have hpre : ∀ s ∈ k.states, untilSome k phi.at_ psi.at_ v.at_ s ≤ v.at_ s := fun s hs => by
    rw [(cuts_untilSome hk _ _).congr hat s hs, hat s hs]
    exact untilSome_rounds_le hk _ _ s hs
  refine ⟨v, hv, hkeys, (cuts_untilSome hk _ _).leastFixpoint hpre fun w hw s hs => ?_, fun hzero s hs => ?_⟩
  · rw [hat s hs]
    exact rounds_le hk hw _ s hs
  · refine ⟨?_, fun x hx => PathValue.le hk hx hpre hs⟩
    rw [hat s hs]
    exact (pathValue_rounds hk hzero _ s hs).1

/-! ## Existential globally -/

theorem globallyRound_tabulate (f : String → α) :
    globallyRound k phi (.tabulate k.states f) = .tabulate k.states (globallySome k phi.at_ f) := by
  refine map_congr_left fun s hs => congrArg (s, ·) ?_
  have hnext : ∀ v : Valuation α, ((someNext k v).get? s).getD zero = bestNext k v.at_ s := by
    intro v
    rw [someNext, get?_tabulate, if_pos (mem_distinct.1 hs), Degree.maxOf_eq]
    simp only [Degree.min_eq]
    rfl
  dsimp only
  rw [hnext, Degree.min_eq]
  exact (cuts_globallySome hk phi.at_).congr (fun t ht => at_tabulate f ht) s (mem_distinct.1 hs)

omit hk in
theorem sameValues_tabulate {f g : String → α} :
    sameValues (.tabulate S f) (.tabulate S g) = true ↔ ∀ s ∈ S, f s = g s := by
  have hall : ∀ s ∈ S, (((tabulate S g).get? s).map (Degree.same (f s))).getD false = true ↔ f s = g s := by
    intro s hs
    rw [get?_tabulate, if_pos hs]
    exact ExactDegree.same_iff
  rw [sameValues, Bool.and_eq_true, and_iff_right (by simp [tabulate]), all_eq_true, tabulate, forall_mem_map]
  simp only [mem_distinct]
  exact forall₂_congr hall

/-- The loop ends at the first degrees that a round keeps, however many rounds it may take. -/
theorem globallyRounds_eq (i : Nat) : ∀ f : String → α,
    (∀ s ∈ k.states, globallySome k phi.at_ ((globallySome k phi.at_)^[i] f) s = (globallySome k phi.at_)^[i] f s) →
    ∃ j, (∀ s ∈ k.states, globallySome k phi.at_ ((globallySome k phi.at_)^[j] f) s = (globallySome k phi.at_)^[j] f s) ∧
      ∀ n > i, globallyRounds k phi n (.tabulate k.states f) = .ok (.tabulate k.states ((globallySome k phi.at_)^[j] f)) := by
  have hstop : ∀ {f : String → α}, (∀ s ∈ k.states, globallySome k phi.at_ f s = f s) → ∀ n > 0,
      globallyRounds k phi n (.tabulate k.states f) = .ok (.tabulate k.states f)
    | f, hf, n + 1, _ => by
      simp only [globallyRounds, globallyRound_tabulate hk]
      rw [if_pos (sameValues_tabulate.2 hf)]
  induction i with
  | zero => exact fun f hf => ⟨0, hf, hstop hf⟩
  | succ i ih =>
    intro f hf
    by_cases hsame : ∀ s ∈ k.states, globallySome k phi.at_ f s = f s
    · exact ⟨0, hsame, fun n hn => hstop hsame n (by omega)⟩
    · obtain ⟨j, hj, hall⟩ := ih (globallySome k phi.at_ f) hf
      refine ⟨j + 1, hj, fun n hn => ?_⟩
      obtain ⟨n, rfl⟩ : ∃ l, n = l + 1 := ⟨n - 1, by omega⟩
      simp only [globallyRounds, globallyRound_tabulate hk]
      rw [if_neg (mt sameValues_tabulate.1 hsame)]
      exact hall n (by omega)

/-- The loop of existential globally ends after at most one round more than there are states, at the greatest
fixpoint below 1. -/
theorem someGlobally_greatestFixpoint (hdegree : ∀ s ∈ k.states, ∀ e ∈ k.post s, e.2 ≤ one) (phi : Valuation α) :
    ∃ v, (∀ n > k.states.length, globallyRounds k phi n (.tabulate k.states fun _ => one) = .ok v) ∧
      someGlobally k phi = .ok v ∧ (∀ s ∈ k.states, s ∈ v.keys) ∧
      (∀ s ∈ k.states, v.at_ s ≤ one ∧ v.at_ s = globallySome k phi.at_ v.at_ s) ∧
      ∀ w : String → α, (∀ s ∈ k.states, w s ≤ one ∧ w s = globallySome k phi.at_ w s) →
        ∀ s ∈ k.states, w s ≤ v.at_ s := by
  have hdown : ∀ v : String → α, ∀ s ∈ k.states, globallySome k phi.at_ v s ≤ one := by
    intro v s hs
    refine (min_le_right ..).trans ?_
    rcases le_bestNext.1 (le_refl (bestNext k v s)) with ⟨e, he, hle⟩ | ⟨-, hle⟩
    · exact (hle.trans (min_le_left ..)).trans (hdegree s hs e he)
    · exact hle.trans ExactDegree.zero_le_one
  have hcuts := cuts_globallySome hk phi.at_
  obtain ⟨j, hj, hend⟩ := globallyRounds_eq hk k.states.length _ (hcuts.stops_below (hdown fun _ => one))
  have hgreatest : ∀ w : String → α, (∀ s ∈ k.states, w s ≤ one ∧ w s = globallySome k phi.at_ w s) →
      ∀ n, ∀ s ∈ k.states, w s ≤ (globallySome k phi.at_)^[n] (fun _ => one) s := by
    intro w hw n
    induction n with
    | zero => exact fun s hs => (hw s hs).1
    | succ n ih =>
      intro s hs
      rw [Function.iterate_succ_apply', (hw s hs).2]
      exact hcuts.mono ih s hs
  have hat : ∀ s ∈ k.states, (tabulate k.states ((globallySome k phi.at_)^[j] fun _ => one)).at_ s =
      (globallySome k phi.at_)^[j] (fun _ => one) s := fun s hs => at_tabulate _ hs
  refine ⟨_, hend, hend _ ?_, fun s hs => ?_, fun s hs => ?_, fun w hw s hs => ?_⟩
  · exact Nat.lt_add_right 2 (Nat.le_mul_of_pos_right _ (Nat.succ_pos _))
  · exact get?_isSome.1 (by rw [get?_tabulate, if_pos hs]; rfl)
  · rw [hcuts.congr hat s hs, hat s hs, hj s hs]
    exact ⟨hj s hs ▸ hdown _ s hs, rfl⟩
  · rw [hat s hs]
    exact hgreatest w hw j s hs

end Closed

/-- Two states that lead to each other, and from one of them to a third. -/
def detour : Kripke ℚ where
  states := ["s0", "s1", "s2"]
  initial := "s0"
  edges := [("s0", [("s1", 1 / 2)]), ("s1", [("s0", 2 / 3), ("s2", 1 / 3)])]
  labels := []

theorem someUntil_leastFixpoint_detour : ∃ v, someUntil detour [("s1", 3 / 4)] [("s0", 0), ("s1", 0), ("s2", 1)] = .ok v ∧
    LeastFixpoint detour.states (untilSome detour (at_ [("s1", 3 / 4)])
      (at_ [("s0", 0), ("s1", 0), ("s2", 1)])) v.at_ ∧
    ∀ s ∈ detour.states, IsGreatest {x | PathValue detour (at_ [("s1", 3 / 4)])
      (at_ [("s0", 0), ("s1", 0), ("s2", 1)]) s x} (v.at_ s) := by
  obtain ⟨v, hv, -, hleast, hpath⟩ := someUntil_leastFixpoint (k := detour) (by decide) [("s1", 3 / 4)]
    [("s0", 0), ("s1", 0), ("s2", 1)] (by decide)
  exact ⟨v, hv, hleast, hpath (by decide +kernel)⟩

theorem someGlobally_greatestFixpoint_detour : ∃ v, someGlobally detour [("s0", 1), ("s1", 3 / 4)] = .ok v ∧
    (∀ s ∈ detour.states, v.at_ s = globallySome detour (at_ [("s0", 1), ("s1", 3 / 4)]) v.at_ s) ∧
    ∀ w : String → ℚ, (∀ s ∈ detour.states, w s ≤ 1 ∧
      w s = globallySome detour (at_ [("s0", 1), ("s1", 3 / 4)]) w s) → ∀ s ∈ detour.states, w s ≤ v.at_ s := by
  obtain ⟨v, -, hv, -, hfix, hgreatest⟩ := someGlobally_greatestFixpoint (k := detour) (by decide)
    (by decide +kernel) [("s0", 1), ("s1", 3 / 4)]
  exact ⟨v, hv, fun s hs => (hfix s hs).2, hgreatest⟩

end Branching

end Arena.Fuzzy
