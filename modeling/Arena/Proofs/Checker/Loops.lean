/-
The loops of the checkers compute fixpoints of a monotone operator `F` on sets of states. A loop that adds new states
ends with the least closed set above the first one, a loop that keeps the states still in `F` with the greatest covered
set below it, and a loop from a set to `F` of it does either, by where it starts. Each round changes a state, so the
bound on the rounds is never met.
-/
import Arena.Proofs.Model.Transitions
import Mathlib.Data.Set.Lattice
import Mathlib.Order.FixedPoints
import Mathlib.Order.CompletePartialOrder

namespace Arena

open Names

variable {a b s t p : Names} {X : Set String} {f : Names → Names} {n : Nat} {step : Names → Outcome Names}
  {K : Names → Prop}

def Names.toSet (a : Names) : Set String := {q | q ∈ a}

namespace Names

@[simp] theorem mem_toSet {q : String} : q ∈ a.toSet ↔ q ∈ a := Iff.rfl

@[simp] theorem toSet_nil : toSet [] = ∅ := by ext q; simp

@[simp] theorem toSet_union (a b : Names) : (a.union b).toSet = a.toSet ∪ b.toSet := by ext q; simp

@[simp] theorem toSet_inter (a b : Names) : (a.inter b).toSet = a.toSet ∩ b.toSet := by ext q; simp

@[simp] theorem toSet_diff (a b : Names) : (a.diff b).toSet = a.toSet \ b.toSet := by ext q; simp

@[simp] theorem toSet_ofList (xs : List String) : (ofList xs).toSet = toSet xs := by ext q; simp

@[simp] theorem toSet_sorted (a : Names) : toSet (Text.sorted a) = a.toSet := by ext q; simp

theorem subset_iff_toSet : a.subset b = true ↔ a.toSet ⊆ b.toSet := subset_iff

theorem same_iff_toSet : a.same b = true ↔ a.toSet = b.toSet := by
  rw [same_iff, Set.ext_iff]; rfl

theorem length_lt_of_toSet (ha : a.Nodup) (h : a.toSet ⊆ b.toSet) (hne : ¬ b.toSet ⊆ a.toSet) :
    a.length < b.length := by
  obtain ⟨x, hx, hxa⟩ := Set.not_subset.1 hne
  exact length_lt ha h hx hxa

end Names

namespace Checker

variable {A : Set String}

/-- A computation gives a set, listed without repetition. -/
def Yields (x : Outcome Names) (X : Set String) : Prop := ∃ T : Names, x = .ok T ∧ T.Nodup ∧ T.toSet = X

theorem yields_ok {T : Names} : Yields (.ok T) X ↔ T.Nodup ∧ T.toSet = X := by
  constructor
  · rintro ⟨T', h, hT⟩
    cases h
    exact hT
  · intro hT
    exact ⟨T, rfl, hT⟩

/-- A step computes an operator on the sets of states inside `U`. -/
structure Computes (U : Names) (step : Names → Outcome Names) (F : Set String → Set String) : Prop where
  mono : Monotone F
  inside : ∀ X, F X ⊆ U.toSet
  value : ∀ p : Names, p.toSet ⊆ U.toSet → Yields (step p) (F p.toSet)

variable {U : Names} {F : Set String → Set String}

theorem Computes.inter (h : Computes U step F) (s : Names) :
    Computes U (fun p => do return (← step p).inter s) fun X => F X ∩ s.toSet where
  mono X Y hXY := Set.inter_subset_inter_left _ (h.mono hXY)
  inside X := Set.inter_subset_left.trans (h.inside X)
  value p hp := by
    obtain ⟨t, ht, hn, hset⟩ := h.value p hp
    exact ⟨t.inter s, by simp only [ht]; rfl, nodup_inter hn, by rw [toSet_inter, hset]⟩

/-! ## Fixpoints -/

theorem exists_isLeast {f : Set String → Set String} (hf : ∀ X Y, X ⊆ Y → f X ⊆ f Y) (s : Set String) :
    ∃ X, IsLeast {X | s ∪ f X ⊆ X} X :=
  ⟨_, OrderHom.isLeast_lfp_le ⟨fun X => s ∪ f X, fun X Y h => Set.union_subset_union_right s (hf X Y h)⟩⟩

theorem exists_isGreatest {f : Set String → Set String} (hf : ∀ X Y, X ⊆ Y → f X ⊆ f Y) :
    ∃ X, IsGreatest {X | X ⊆ f X} X :=
  ⟨_, OrderHom.isGreatest_gfp_le ⟨f, fun X Y h => hf X Y h⟩⟩

/-! ## Loops whose steps may fail -/

theorem grow_keeps (hunion : ∀ S T, K S → K T → K (S.union T)) (hstep : ∀ S T, step S = .ok T → K T) :
    ∀ (n : Nat) {S T R : Names}, K S → K T → grow step n S T = .ok R → K R
  | 0, _, _, _, _, _, h => by cases h
  | n + 1, S, T, R, hS, hT, h => by
    unfold grow at h
    split at h
    · cases h
      exact hS
    · obtain ⟨r, hr, h⟩ := bind_eq_ok.1 h
      exact grow_keeps hunion hstep n (hunion S T hS hT) (hstep _ _ hr) h

theorem shrink_keeps (hstep : ∀ S T, step S = .ok T → K T) :
    ∀ (n : Nat) {S T R : Names}, K S → K T → shrink step n S T = .ok R → K R
  | 0, _, _, _, _, _, h => by cases h
  | n + 1, S, T, R, hS, hT, h => by
    unfold shrink at h
    split at h
    · cases h
      exact hS
    · obtain ⟨r, hr, h⟩ := bind_eq_ok.1 h
      exact shrink_keeps hstep n hT (hstep _ _ hr) h

/-- The invariant of a shrinking loop: `t` is what a step leaves of `p`, and no covered set was cut. -/
structure Shrinking (U : Names) (F : Set String → Set String) (p t : Names) : Prop where
  nodup : p.Nodup ∧ t.Nodup
  inside : p.toSet ⊆ U.toSet
  less : t.toSet ⊆ p.toSet
  step : t.toSet = F p.toSet
  greatest : ∀ X, X ⊆ F X → X ⊆ p.toSet

section Loops

variable (hF : Computes U step F)

include hF

theorem shrinking_step (h : Shrinking U F p t) : ∃ r, step t = .ok r ∧ Shrinking U F t r := by
  obtain ⟨hn, hU, hless, hs, hg⟩ := h
  obtain ⟨r, hr, hrn, hrF⟩ := hF.value t (hless.trans hU)
  refine ⟨r, hr, ⟨hn.2, hrn⟩, hless.trans hU, ?_, hrF, fun X hX => ?_⟩
  · rw [hrF]; exact (hF.mono hless).trans hs.ge
  · rw [hs]; exact hX.trans (hF.mono (hg X hX))

/-- A shrinking loop ends with the greatest covered set. To go on until nothing changes is the same, as what a step
leaves is the same just if nothing is lost. -/
theorem shrink_spec (hX : IsGreatest {X | X ⊆ F X} X) :
    ∀ (n : Nat) (p t : Names), Shrinking U F p t → p.length < n →
      Yields (shrink step n p t) X ∧ converge step n p t = shrink step n p t
  | 0, p, t, _, hn => by omega
  | n + 1, p, t, h, hn => by
    have hsame : t.same p = p.subset t := by
      rw [Bool.eq_iff_iff, same_iff_toSet, subset_iff_toSet]
      exact ⟨fun heq => heq.ge, h.less.antisymm⟩
    unfold converge shrink
    rw [hsame]
    by_cases hsub : p.subset t = true
    · rw [if_pos hsub, if_pos hsub]
      refine ⟨⟨p, rfl, h.nodup.1, Set.Subset.antisymm (hX.2 ?_) (h.greatest X hX.1)⟩, rfl⟩
      exact (subset_iff_toSet.1 hsub).trans h.step.le
    · rw [if_neg hsub, if_neg hsub]
      obtain ⟨r, hr, hg⟩ := shrinking_step hF h
      have hlt := length_lt_of_toSet h.nodup.2 h.less fun hle => hsub (subset_iff_toSet.2 hle)
      simp only [hr]
      exact shrink_spec hX n t r hg (by omega)

/-- A shrinking loop from all states ends with the greatest set that `F` covers, if its first step
leaves `s`. -/
theorem yields_shrink (hU : U.Nodup) (hs : s.Nodup) (hfirst : F U.toSet = s.toSet)
    (hn : U.length < n) (hX : IsGreatest {X | X ⊆ F X} X) :
    Yields (shrink step n U s) X ∧ converge step n U s = shrink step n U s :=
  shrink_spec hF hX n U s ⟨⟨hU, hs⟩, subset_rfl, hfirst ▸ hF.inside _, hfirst.symm,
    fun X hX => hX.trans (hF.inside X)⟩ hn

/-- So does one that begins with a set inside which every step stays, unless the set holds all states. -/
theorem yields_shrink_within (hs : s.Nodup) (hsU : s.toSet ⊆ U.toSet)
    (hFs : ∀ X, F X ⊆ s.toSet) (hn : s.length + 1 < n) (hne : ¬ U.toSet ⊆ s.toSet) (hX : IsGreatest {X | X ⊆ F X} X) :
    Yields (shrink step n U s) X ∧ converge step n U s = shrink step n U s := by
  obtain ⟨n, rfl⟩ := Nat.exists_eq_succ_of_ne_zero (by omega : n ≠ 0)
  obtain ⟨r, hr, hrn, hrF⟩ := hF.value s hsU
  unfold converge shrink
  rw [if_neg (mt subset_iff_toSet.1 hne), if_neg fun h => hne (same_iff_toSet.1 h).ge]
  simp only [hr]
  exact shrink_spec hF hX n s r ⟨⟨hs, hrn⟩, hsU, hrF ▸ hFs _, hrF, fun Y hY => hY.trans (hFs Y)⟩ (by omega)

/-! ## Loops that go on until nothing changes -/

/-- The invariant of a rising loop: a step makes more of `t`, which holds the first set `A` and what a step makes of
`p`, and nothing that a closed set need not hold. -/
structure Rising (U : Names) (F : Set String → Set String) (A : Set String) (p t : Names) : Prop where
  nodup : p.Nodup ∧ t.Nodup
  inside : t.toSet ⊆ U.toSet
  more : p.toSet ⊆ t.toSet
  up : t.toSet ⊆ F t.toSet
  first : A ⊆ t.toSet
  step : F p.toSet ⊆ t.toSet
  least : ∀ X, A ∪ F X ⊆ X → t.toSet ⊆ X

theorem rising_step (h : Rising U F A p t) : ∃ r, step t = .ok r ∧ Rising U F A t r := by
  obtain ⟨r, hr, hrn, hrF⟩ := hF.value t h.inside
  refine ⟨r, hr, ⟨h.nodup.2, hrn⟩, ?_, ?_, ?_, ?_, ?_, fun X hX => ?_⟩ <;> rw [hrF]
  · exact hF.inside _
  · exact h.up
  · exact hF.mono h.up
  · exact h.first.trans h.up
  · exact (hF.mono (h.least X hX)).trans (Set.subset_union_right.trans hX)

omit hF in
theorem converge_rising (hnext : ∀ {p t}, Rising U F A p t → ∃ r, step t = .ok r ∧ Rising U F A t r)
    (hX : IsLeast {X | A ∪ F X ⊆ X} X) :
    ∀ (n : Nat) (p t : Names), Rising U F A p t → U.length < n + p.length → Yields (converge step n p t) X
  | 0, p, t, h, hn => by
    have := length_le h.nodup.1 (h.more.trans h.inside)
    omega
  | n + 1, p, t, h, hn => by
    unfold converge
    by_cases hsame : t.same p = true
    · rw [if_pos hsame]
      have heq := same_iff_toSet.1 hsame
      refine ⟨p, rfl, h.nodup.1, Set.Subset.antisymm (h.more.trans (h.least X hX.1)) (hX.2 ?_)⟩
      exact Set.union_subset (heq ▸ h.first) (heq ▸ h.step)
    · -- the round adds a state, so fewer rounds than states remain
      rw [if_neg hsame]
      obtain ⟨r, hr, hrise⟩ := hnext h
      have hlt := length_lt_of_toSet h.nodup.1 h.more fun hle =>
        hsame (same_iff_toSet.2 (hle.antisymm h.more))
      simp only [hr]
      exact converge_rising hnext hX n t r hrise (by omega)

/-- A loop that starts with the empty set and what a step makes of it ends with the least set that is closed
under `F`. -/
theorem yields_converge_least (hs : s.Nodup) (hfirst : F ∅ = s.toSet) (hn : U.length < n)
    (hX : IsLeast {X | F X ⊆ X} X) : Yields (converge step n [] s) X := by
  have hclosed : {X | F X ⊆ X} = {X | ∅ ∪ F X ⊆ X} := by simp only [Set.empty_union]
  rw [hclosed] at hX
  refine converge_rising (rising_step hF) hX n [] s ⟨⟨List.nodup_nil, hs⟩, ?_, ?_, ?_, Set.empty_subset _, ?_, ?_⟩ hn
  · exact hfirst ▸ hF.inside _
  · exact toSet_nil ▸ Set.empty_subset _
  · exact hfirst ▸ hF.mono (Set.empty_subset _)
  · rw [toSet_nil, hfirst]
  · exact fun X hX => hfirst ▸ (hF.mono (Set.empty_subset X)).trans (Set.subset_union_right.trans hX)

/-! ## Loops that add to a set -/

theorem adding_step (h : Rising U (fun X => X ∪ F X) A p t) :
    ∃ r, (do return t.union (← step t)) = Except.ok (ε := Fault) r ∧ Rising U (fun X => X ∪ F X) A t r := by
  obtain ⟨r, hr, hrn, hrF⟩ := hF.value t h.inside
  refine ⟨t.union r, by simp only [hr]; rfl, ⟨h.nodup.2, nodup_union h.nodup.2 hrn⟩, ?_, ?_, Set.subset_union_left, ?_,
    ?_, fun X hX => ?_⟩ <;> rw [toSet_union, hrF]
  · exact Set.union_subset h.inside (hF.inside _)
  · exact Set.subset_union_left
  · exact h.first.trans Set.subset_union_left
  · have hle := h.least X hX
    exact Set.union_subset hle ((hF.mono hle).trans (Set.subset_union_right.trans (Set.subset_union_right.trans hX)))

theorem yields_adding (hp : p.Nodup ∧ p.toSet ⊆ U.toSet) (ht : t.Nodup ∧ t.toSet ⊆ U.toSet) (hn : U.length < n)
    (hA : A ⊆ p.toSet ∪ t.toSet) (hFp : F p.toSet ⊆ p.toSet ∪ t.toSet)
    (hleast : ∀ X, A ∪ F X ⊆ X → p.toSet ∪ t.toSet ⊆ X) (hX : IsLeast {X | A ∪ F X ⊆ X} X) :
    Yields (converge (fun q => do return q.union (← step q)) n p (p.union t)) X := by
  have hclosed : ∀ X, A ∪ (X ∪ F X) ⊆ X ↔ A ∪ F X ⊆ X := by simp [Set.union_subset_iff]
  simp only [← hclosed, ← toSet_union] at hX hleast hA hFp
  have hmore : p.toSet ⊆ (p.union t).toSet := by simp
  refine converge_rising (adding_step hF) hX n p _ ⟨⟨hp.1, nodup_union hp.1 ht.1⟩, ?_, hmore, Set.subset_union_left, hA,
    Set.union_subset hmore hFp, hleast⟩ (by omega)
  exact toSet_union p t ▸ Set.union_subset hp.2 ht.2

omit hF in
theorem grow_eq_converge : ∀ (n : Nat) (p t : Names),
    grow step n p t = converge (fun q => do return q.union (← step q)) n p (p.union t)
  | 0, _, _ => rfl
  | n + 1, p, t => by
    have hsame : (p.union t).same p = t.subset p := by
      rw [Bool.eq_iff_iff, same_iff_toSet, subset_iff_toSet, toSet_union]
      exact Set.union_eq_left
    unfold grow converge
    rw [hsame]
    split
    · rfl
    · cases hr : step (p.union t) with
      | error e => simp only [hr]; rfl
      | ok r => simp only [hr]; exact grow_eq_converge n (p.union t) r

/-- A growing loop that goes on from a set that is closed already, with new states `t`, ends with the least set
that holds those as well. -/
theorem yields_grow_more (hp : p.Nodup) (hpU : p.toSet ⊆ U.toSet) (ht : t.Nodup)
    (htU : t.toSet ⊆ U.toSet) (hn : U.length < n) (hleast : IsLeast {X | A ∪ F X ⊆ X} p.toSet)
    (hX : IsLeast {X | A ∪ t.toSet ∪ F X ⊆ X} X) : Yields (grow step n p t) X := by
  obtain ⟨hA, hFp⟩ := Set.union_subset_iff.1 hleast.1
  rw [grow_eq_converge]
  refine yields_adding hF ⟨hp, hpU⟩ ⟨ht, htU⟩ hn (Set.union_subset_union_left _ hA) (hFp.trans Set.subset_union_left) ?_ hX
  intro Y hY
  obtain ⟨hAt, hFY⟩ := Set.union_subset_iff.1 hY
  obtain ⟨hAY, htY⟩ := Set.union_subset_iff.1 hAt
  exact Set.union_subset (hleast.2 (Set.union_subset hAY hFY)) htY

theorem yields_grow (hempty : F ∅ = ∅) (hs : s.Nodup) (hsU : s.toSet ⊆ U.toSet) (hn : U.length < n)
    (hX : IsLeast {X | s.toSet ∪ F X ⊆ X} X) : Yields (grow step n [] s) X := by
  refine yields_grow_more hF (A := ∅) List.nodup_nil ?_ hs hsU hn ?_ ?_
  · exact toSet_nil ▸ Set.empty_subset _
  · rw [toSet_nil]
    exact ⟨by simp [hempty], fun X _ => Set.empty_subset X⟩
  · rwa [Set.empty_union]

/-- A loop from all states that begins with a set inside which every step stays ends with the greatest set that `F`
covers, or at once if the set holds all states. -/
theorem yields_converge_within (hU : U.Nodup) (hs : s.Nodup) (hsU : s.toSet ⊆ U.toSet)
    (hFs : ∀ X, F X ⊆ s.toSet) (hn : s.length + 1 < n) (hall : U.toSet ⊆ s.toSet → X = U.toSet)
    (hX : ¬ U.toSet ⊆ s.toSet → IsGreatest {X | X ⊆ F X} X) : Yields (converge step n U s) X := by
  by_cases hsub : U.toSet ⊆ s.toSet
  · obtain ⟨n, rfl⟩ := Nat.exists_eq_succ_of_ne_zero (by omega : n ≠ 0)
    rw [converge, if_pos (same_iff_toSet.2 (hsU.antisymm hsub))]
    exact ⟨U, rfl, hU, (hall hsub).symm⟩
  · obtain ⟨hend, heq⟩ := yields_shrink_within hF hs hsU hFs hn hsub (hX hsub)
    rwa [heq]

/-! ## Loops without faults -/

end Loops

/-- A loop that looks at the next set first gives what the loop gives that looks at the last one. -/
theorem yields_stable {step : Names → Names} : ∀ {n : Nat} {t : Names},
    Yields (converge (fun p => .ok (step p)) n t (step t)) X → Yields (.ok (stable step n t)) X
  | 0, _, h => by
    obtain ⟨_, h, -⟩ := h
    cases h
  | n + 1, t, h => by
    unfold converge at h
    unfold stable
    simp only
    split
    · rename_i hsame
      rwa [if_pos hsame] at h
    · rename_i hsame
      rw [if_neg hsame] at h
      exact yields_stable h

theorem yields_stable_union (hf : Computes U (fun t => .ok (f t)) F) (hs : s.Nodup) (hsU : s.toSet ⊆ U.toSet)
    (hn : U.length < n) (hX : IsLeast {X | s.toSet ∪ F X ⊆ X} X) :
    Yields (.ok (stable (fun t => t.union (f t)) n s)) X := by
  obtain ⟨hfn, hfs⟩ := yields_ok.1 (hf.value s hsU)
  refine yields_stable (yields_adding hf ⟨hs, hsU⟩ ⟨hfn, hfs ▸ hf.inside _⟩ hn Set.subset_union_left ?_ ?_ hX) <;> rw [hfs]
  · exact Set.subset_union_right
  · intro X hX
    obtain ⟨hsX, hFX⟩ := Set.union_subset_iff.1 hX
    exact Set.union_subset hsX ((hf.mono hsX).trans hFX)

theorem yields_stable_inter (hf : Computes U (fun t => .ok (f t)) F) (hU : U.Nodup) (hs : s.Nodup)
    (hsU : s.toSet ⊆ U.toSet) (hn : U.length < n) (hX : IsGreatest {X | X ⊆ s.toSet ∩ F X} X) :
    Yields (.ok (stable (fun t => s.inter (f t)) n U)) X := by
  have hset : ∀ p : Names, p.toSet ⊆ U.toSet → (s.inter (f p)).toSet = s.toSet ∩ F p.toSet := fun p hp => by
    rw [toSet_inter, (yields_ok.1 (hf.value p hp)).2]
  have hcut : Computes U (fun t => .ok (s.inter (f t))) fun X => s.toSet ∩ F X :=
    ⟨fun X Y h => Set.inter_subset_inter_right _ (hf.mono h), fun X => Set.inter_subset_left.trans hsU,
      fun p hp => yields_ok.2 ⟨nodup_inter hs, hset p hp⟩⟩
  obtain ⟨hend, heq⟩ := yields_shrink hcut hU (nodup_inter hs) (hset U subset_rfl).symm hn hX
  exact yields_stable (heq ▸ hend)

end Checker

end Arena
