/-
Globally on all paths of a graded structure, for exact degrees. It is computed as the complement of an until whose
second formula has degree 1 everywhere, so it has degree 0 everywhere. This is the complement of eventually on some path
only where some path leads to degree 1 at once.
-/
import Arena.Proofs.Fuzzy.Rounds

namespace Arena.Fuzzy

open List
open Degree (zero one complement)

/-- Exact degrees whose complement undoes itself and exchanges 0 and 1. -/
class DualDegree (α : Type) [LinearOrder α] [Degree α] : Prop extends ExactDegree α where
  zero_lt_one : (zero : α) < one
  complement_zero : complement (zero : α) = one
  involutive : Function.Involutive (complement : α → α)

instance : DualDegree ℚ where
  zero_lt_one := Rat.num_pos.1 Int.one_pos
  complement_zero := sub_zero 1
  involutive := sub_sub_cancel 1

namespace Branching

variable {α : Type} [Degree α] {k : Kripke α} {phi f : String → α}

/-! ## Complements -/

def negate (k : Kripke α) (v : Valuation α) : Outcome (Valuation α) :=
  Valuation.tabulateM k.states fun s => do return complement (← v.get s)

theorem negate_eq {v : Valuation α} (hv : ∀ s ∈ k.states, s ∈ v.keys) :
    negate k v = .ok (.tabulate k.states fun s => complement (v.at_ s)) :=
  mapM_eq_map fun s hs => by
    simp only [Valuation.get_eq_at (hv s (Text.mem_distinct.1 hs))]
    rfl

theorem keys_of_negate {v w : Valuation α} (h : negate k v = .ok w) : ∀ s ∈ k.states, s ∈ v.keys := by
  intro s hs
  obtain ⟨e, -, he⟩ := exists_of_mem_forall₂ (mapM_eq_ok.1 h).flip (Text.mem_distinct.2 hs)
  obtain ⟨_, hget, -⟩ := bind_eq_ok.1 he
  obtain ⟨x, hx, -⟩ := bind_eq_ok.1 hget
  unfold Valuation.get at hx
  refine Valuation.get?_isSome.1 (Option.isSome_iff_ne_none.2 fun h => ?_)
  rw [h] at hx
  cases hx

theorem solve_not (k : Kripke α) (t : Term) : solve k (.node "NOT" t .absent) = solve k t >>= negate k := rfl

theorem solve_everyGlobally (k : Kripke α) (t : Term) : solve k (.node "AG" t .absent) =
    solve k (.node "NOT" t .absent) >>= fun v => someUntil k v (.tabulate k.states fun _ => one) >>= negate k := by
  rw [solve_not, bind_assoc]
  rfl

theorem solve_someEventually (k : Kripke α) (t : Term) :
    solve k (.node "EF" t .absent) = solve k t >>= someUntil k (.tabulate k.states fun _ => one) := rfl

variable [LinearOrder α] [DualDegree α]

/-! ## Rounds -/

/-- Where the degrees of the edges are less than 1, no round brings a state to degree 1. -/
theorem rounds_eq_one_iff (hdegree : ∀ s ∈ k.states, ∀ e ∈ k.post s, e.2 < one) (n : Nat) : ∀ s ∈ k.states,
    (fun v => untilSome k phi v v)^[n] f s = one ↔ f s = one := by
  induction n with
  | zero => exact fun s _ => Iff.rfl
  | succ n ih =>
    intro s hs
    rw [Function.iterate_succ_apply', ← ih s hs]
    generalize (fun v => untilSome k phi v v)^[n] f = v
    have hbest : bestNext k v s < one := by
      rcases le_bestNext.1 (le_refl (bestNext k v s)) with ⟨e, he, hle⟩ | ⟨-, hle⟩
      · exact (hle.trans (min_le_left ..)).trans_lt (hdegree s hs e he)
      · exact hle.trans_lt DualDegree.zero_lt_one
    have hright := (min_le_right (phi s) _).trans_lt hbest
    constructor
    · intro h
      exact (max_choice (v s) _).elim (fun hl => hl ▸ h) fun hr => absurd (hr ▸ h) hright.ne
    · intro h
      rw [untilSome, h, max_eq_left hright.le]

theorem rounds_one (hk : ∀ s ∈ k.states, ∀ e ∈ k.post s, e.1 ∈ k.states) (hf : ∀ s ∈ k.states, f s = one) (n : Nat) :
    ∀ s ∈ k.states, (fun v => untilSome k phi v v)^[n] f s = one := by
  induction n with
  | zero => exact hf
  | succ n ih =>
    intro s hs
    rw [Function.iterate_succ_apply']
    generalize (fun v => untilSome k phi v v)^[n] f = v at ih ⊢
    have hbest : bestNext k v s ≤ one := by
      rcases le_bestNext.1 (le_refl (bestNext k v s)) with ⟨e, he, hle⟩ | ⟨-, hle⟩
      · exact (hle.trans (min_le_right ..)).trans (ih e.1 (hk s hs e he)).le
      · exact hle.trans ExactDegree.zero_le_one
    rw [untilSome, ih s hs, max_eq_left ((min_le_right ..).trans hbest)]

/-- Globally on all paths has degree 0 in every state, whatever the formula, unless the formula has no degrees at all.
So it is the complement of eventually not on some path just where that has degree 1, and where no edge has degree 1
just where the formula has degree 0. -/
theorem everyGlobally_eq_zero (hk : ∀ s ∈ k.states, ∀ e ∈ k.post s, e.1 ∈ k.states) (t : Term) :
    (∃ f, solve k (.node "NOT" t .absent) = .error f ∧ solve k (.node "AG" t .absent) = .error f ∧
      solve k (.node "EF" (.node "NOT" t .absent) .absent) = .error f) ∨
    ∃ v a e, solve k t = .ok v ∧ solve k (.node "AG" t .absent) = .ok a ∧
      solve k (.node "EF" (.node "NOT" t .absent) .absent) = .ok e ∧ ∀ s ∈ k.states, a.get s = .ok zero ∧
        (a.get s = .ok (complement (e.at_ s)) ↔ e.get s = .ok one) ∧
        ((∀ s ∈ k.states, ∀ e ∈ k.post s, e.2 < one) → (e.get s = .ok one ↔ v.get s = .ok zero)) := by
  have hzero : complement (one : α) = zero := by
    rw [← DualDegree.complement_zero, DualDegree.involutive zero]
  have hone : ∀ {x : α}, complement x = one ↔ x = zero := by
    rw [← DualDegree.complement_zero]
    exact DualDegree.involutive.injective.eq_iff
  rw [solve_everyGlobally, solve_someEventually]
  cases hn : solve k (.node "NOT" t .absent) with
  | error f => exact .inl ⟨f, rfl, rfl, rfl⟩
  | ok n =>
    obtain ⟨v, hv, hn⟩ := bind_eq_ok.1 hn
    have hkeys := keys_of_negate hn
    cases (negate_eq hkeys).symm.trans hn
    have htab : ∀ (f : String → α), ∀ s ∈ k.states, s ∈ (Valuation.tabulate k.states f).keys := fun f s hs =>
      Valuation.get?_isSome.1 (by rw [Valuation.get?_tabulate, if_pos hs]; rfl)
    obtain ⟨w, hw, hwkeys, hwat⟩ := untilRounds_eq hk (.tabulate k.states fun s => complement (v.at_ s)) k.states.length
      (htab fun _ => one)
    obtain ⟨e, he, hekeys, heat⟩ := untilRounds_eq hk (.tabulate k.states fun _ => one) k.states.length
      (htab fun s => complement (v.at_ s))
    refine .inr ⟨v, _, e, hv, bind_eq_ok.2 ⟨_, rfl, bind_eq_ok.2 ⟨w, hw, negate_eq hwkeys⟩⟩, he, fun s hs => ?_⟩
    have ha : (Valuation.tabulate k.states fun s => complement (w.at_ s)).get s = .ok zero := by
      rw [Valuation.get_eq_at (htab _ s hs), Valuation.at_tabulate _ hs, hwat s hs,
        rounds_one hk (fun s hs => Valuation.at_tabulate _ hs) _ s hs, hzero]
    rw [ha, Valuation.get_eq_at (hekeys s hs), Valuation.get_eq_at (hkeys s hs)]
    simp only [Except.ok.injEq]
    refine ⟨trivial, ?_, fun hdegree => ?_⟩
    · rw [← hzero, DualDegree.involutive.injective.eq_iff, eq_comm]
    · rw [heat s hs, rounds_eq_one_iff hdegree _ s hs, Valuation.at_tabulate _ hs, hone]

/-- One state that stays as it is; a formula holds there. -/
def still : Kripke ℚ where
  states := ["s0"]
  initial := "s0"
  edges := [("s0", [("s0", 1 / 2)])]
  labels := [("s0", [("p", 1)])]

theorem everyGlobally_eq_zero_still : ∃ a, solve still (.node "AG" (.atom "p") .absent) = .ok a ∧ a.get "s0" = .ok 0 := by
  obtain ⟨f, hf, -⟩ | ⟨v, a, e, -, ha, -, hall⟩ := everyGlobally_eq_zero (k := still) (by decide) (.atom "p")
  · cases hf
  · exact ⟨a, ha, (hall "s0" (by decide)).1⟩

/-- The formula has degree 1 in every state, and eventually not has degree 0, but globally has degree 0 too. -/
theorem everyGlobally_not_dual : solve still (.atom "p") = .ok [("s0", 1)] ∧
    solve still (.node "EF" (.node "NOT" (.atom "p") .absent) .absent) = .ok [("s0", 0)] ∧
    solve still (.node "AG" (.atom "p") .absent) = .ok [("s0", 0)] := by
  exact ⟨rfl, by decide +kernel, by decide +kernel⟩

end Branching

end Arena.Fuzzy
