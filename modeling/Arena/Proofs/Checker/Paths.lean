/-
Path semantics of the branching-time operators over any relation, and their fixpoints. What some path reaches is a least
fixpoint, what some path never leaves a greatest one; over every path the same holds with the states all of whose
successors are in a set.
-/
import Arena.Checker.Branching
import Mathlib.Data.Set.Lattice
import Mathlib.Order.CompletePartialOrder

namespace Arena.Checker

variable {α : Type} {R : α → α → Prop} {π : ℕ → α} {q : α} {P : α → Prop} {U X φ ψ : Set α} {n : ℕ}

/-! ## Paths -/

/-- The first `n` steps of a sequence are a finite path from `q`. -/
def IsRun (R : α → α → Prop) (n : ℕ) (q : α) (π : ℕ → α) : Prop := π 0 = q ∧ ∀ i < n, R (π i) (π (i + 1))

/-- A sequence is an infinite path from `q`. -/
def IsPath (R : α → α → Prop) (q : α) (π : ℕ → α) : Prop := π 0 = q ∧ ∀ i, R (π i) (π (i + 1))

/-- The sequence that begins with `q` and goes on as `π`. -/
def cons (q : α) (π : ℕ → α) : ℕ → α
  | 0 => q
  | n + 1 => π n

@[simp] theorem cons_succ (q : α) (π : ℕ → α) (n : ℕ) : cons q π (n + 1) = π n := rfl

theorem IsRun.cons {q r : α} (h : IsRun R n r π) (hqr : R q r) : IsRun R (n + 1) q (cons q π) := by
  refine ⟨rfl, fun i hi => ?_⟩
  cases i with
  | zero => rw [cons_succ, h.1]; exact hqr
  | succ i => exact h.2 i (by omega)

theorem IsRun.tail (h : IsRun R (n + 1) q π) : R q (π 1) ∧ IsRun R n (π 1) fun i => π (i + 1) := by
  refine ⟨?_, rfl, fun i hi => h.2 (i + 1) (by omega)⟩
  rw [← h.1]
  exact h.2 0 (by omega)

theorem IsPath.cons {q r : α} (h : IsPath R r π) (hqr : R q r) : IsPath R q (cons q π) := by
  refine ⟨rfl, fun i => ?_⟩
  cases i with
  | zero => rw [cons_succ, h.1]; exact hqr
  | succ i => exact h.2 i

theorem IsPath.tail (h : IsPath R q π) : R q (π 1) ∧ IsPath R (π 1) fun i => π (i + 1) := by
  refine ⟨?_, rfl, fun i => h.2 (i + 1)⟩
  rw [← h.1]
  exact h.2 0

theorem IsRun.mem (hU : ∀ p ∈ U, ∀ r, R p r → r ∈ U) (h : IsRun R n q π)
    (hq : q ∈ U) : ∀ i ≤ n, π i ∈ U
  | 0, _ => by rw [h.1]; exact hq
  | i + 1, hi => hU _ (h.mem hU hq i (by omega)) _ (h.2 i hi)

theorem IsPath.isRun (h : IsPath R q π) (n : ℕ) : IsRun R n q π := ⟨h.1, fun i _ => h.2 i⟩

theorem IsPath.mem (hU : ∀ p ∈ U, ∀ r, R p r → r ∈ U) (h : IsPath R q π)
    (hq : q ∈ U) (i : ℕ) : π i ∈ U := (h.isRun i).mem hU hq i le_rfl

/-- From each state of a set in which every state has a successor, an infinite path stays in the set. -/
theorem exists_isPath (h : ∀ q ∈ X, ∃ r ∈ X, R q r) (hq : q ∈ X) : ∃ π, IsPath R q π ∧ ∀ i, π i ∈ X := by
  choose next hmem hstep using h
  let π : ℕ → X := Nat.rec ⟨q, hq⟩ fun _ p => ⟨next p p.2, hmem p p.2⟩
  refine ⟨fun i => (π i).1, ⟨rfl, fun i => ?_⟩, fun i => (π i).2⟩
  exact hstep (π i).1 (π i).2

/-! ## Operators -/

/-- An operator on one set holds at a state: those that can be refuted or met within finitely many steps
speak of finite paths, the other two of infinite ones. -/
def Branching.Unary.Holds (R : α → α → Prop) : Unary → (α → Prop) → α → Prop
  | .not, P, q => ¬ P q
  | .someNext, P, q => ∃ r, R q r ∧ P r
  | .everyNext, P, q => ∀ r, R q r → P r
  | .someEventually, P, q => ∃ n π, IsRun R n q π ∧ P (π n)
  | .everyEventually, P, q => ∀ π, IsPath R q π → ∃ i, P (π i)
  | .someGlobally, P, q => ∃ π, IsPath R q π ∧ ∀ i, P (π i)
  | .everyGlobally, P, q => ∀ n π, IsRun R n q π → P (π n)

def Branching.Binary.Holds (R : α → α → Prop) : Binary → (α → Prop) → (α → Prop) → α → Prop
  | .or, P, Q, q => P q ∨ Q q
  | .and, P, Q, q => P q ∧ Q q
  | .implies, P, Q, q => P q → Q q
  | .someUntil, P, Q, q => ∃ n π, IsRun R n q π ∧ (∀ i < n, P (π i)) ∧ Q (π n)
  | .everyUntil, P, Q, q => ∀ π, IsPath R q π → ∃ n, (∀ i < n, P (π i)) ∧ Q (π n)

open Branching

theorem someEventually_iff_until :
    Unary.Holds R .someEventually P q ↔ Binary.Holds R .someUntil (fun _ => True) P q := by
  simp only [Unary.Holds, Binary.Holds, implies_true, true_and]

theorem everyEventually_iff_until :
    Unary.Holds R .everyEventually P q ↔ Binary.Holds R .everyUntil (fun _ => True) P q := by
  simp only [Unary.Holds, Binary.Holds, implies_true, true_and]

theorem everyEventually_iff_not :
    Unary.Holds R .everyEventually P q ↔ ¬ Unary.Holds R .someGlobally (fun r => ¬ P r) q := by
  simp only [Unary.Holds, not_exists, not_and, not_forall, not_not]

theorem everyGlobally_iff_not :
    Unary.Holds R .everyGlobally P q ↔ ¬ Unary.Holds R .someEventually (fun r => ¬ P r) q := by
  simp only [Unary.Holds, not_exists, not_and, not_not]

/-- In a set that no step leaves, the operators over some path see only the set. -/
theorem someEventually_within (hU : ∀ p ∈ U, ∀ r, R p r → r ∈ U) (hq : q ∈ U) :
    Unary.Holds R .someEventually (fun r => r ∈ U ∧ P r) q ↔ Unary.Holds R .someEventually P q := by
  refine exists_congr fun n => exists_congr fun π => and_congr_right fun hπ => ?_
  exact and_iff_right (hπ.mem hU hq n le_rfl)

theorem someGlobally_within (hU : ∀ p ∈ U, ∀ r, R p r → r ∈ U) (hq : q ∈ U) :
    Unary.Holds R .someGlobally (fun r => r ∈ U ∧ P r) q ↔ Unary.Holds R .someGlobally P q := by
  refine exists_congr fun π => and_congr_right fun hπ => forall_congr' fun i => ?_
  exact and_iff_right (hπ.mem hU hq i)

/-! ## Fixpoints -/

def somePred (R : α → α → Prop) (X : Set α) : Set α := {q | ∃ r, R q r ∧ r ∈ X}

def everyPred (R : α → α → Prop) (X : Set α) : Set α := {q | ∀ r, R q r → r ∈ X}

theorem somePred_mono : Monotone (somePred R) := fun _ _ h _ ⟨r, hr, hx⟩ => ⟨r, hr, h hx⟩

theorem isLeast_someUntil (φ ψ : Set α) :
    IsLeast {X | ψ ∪ φ ∩ somePred R X ⊆ X} {q | Binary.Holds R .someUntil (· ∈ φ) (· ∈ ψ) q} := by
  constructor
  · rintro q (hq | ⟨hq, r, hqr, n, π, hπ, hφ, hψ⟩)
    · exact ⟨0, fun _ => q, ⟨rfl, by simp⟩, by simp, hq⟩
    · refine ⟨n + 1, cons q π, hπ.cons hqr, fun i hi => ?_, hψ⟩
      cases i with
      | zero => exact hq
      | succ i => exact hφ i (by omega)
  · -- a state of the path is in a closed set if the next one is
    rintro X hX q ⟨n, π, hπ, hφ, hψ⟩
    induction n generalizing q π with
    | zero => rw [← hπ.1]; exact hX (.inl hψ)
    | succ n ih =>
      have hφ0 := hφ 0 (by omega)
      rw [hπ.1] at hφ0
      have hmem := ih _ hπ.tail.2 (fun i hi => hφ (i + 1) (by omega)) hψ
      exact hX (.inr ⟨hφ0, π 1, hπ.tail.1, hmem⟩)

theorem isLeast_someEventually (φ : Set α) :
    IsLeast {X | φ ∪ somePred R X ⊆ X} {q | Unary.Holds R .someEventually (· ∈ φ) q} := by
  simpa [someEventually_iff_until] using isLeast_someUntil (R := R) Set.univ φ

theorem isGreatest_someGlobally (φ : Set α) :
    IsGreatest {X | X ⊆ φ ∩ somePred R X} {q | Unary.Holds R .someGlobally (· ∈ φ) q} := by
  constructor
  · rintro q ⟨π, hπ, hφ⟩
    refine ⟨hπ.1 ▸ hφ 0, π 1, hπ.tail.1, ?_⟩
    exact ⟨fun i => π (i + 1), hπ.tail.2, fun i => hφ (i + 1)⟩
  · intro X hX q hq
    have hnext : ∀ p ∈ X, ∃ r ∈ X, R p r := fun p hp => by
      obtain ⟨r, hr, hrX⟩ := (hX hp).2
      exact ⟨r, hrX, hr⟩
    obtain ⟨π, hπ, hmem⟩ := exists_isPath hnext hq
    exact ⟨π, hπ, fun i => (hX (hmem i)).1⟩

theorem exists_isPath_not_until (htotal : ∀ p ∈ U, ∃ r ∈ U, R p r)
    (havoid : ∀ p ∈ U, p ∉ X → p ∈ φ → ∃ r ∈ U, R p r ∧ r ∉ X) (hψ : ψ ⊆ X) (hq : q ∈ U) (hqX : q ∉ X) :
    ∃ π, IsPath R q π ∧ ¬ ∃ n, (∀ i < n, π i ∈ φ) ∧ π n ∈ ψ := by
  -- the path has to avoid `X` only as long as it has been in `φ`; then it goes on anyhow
  have hnext : ∀ p ∈ U, ∃ r ∈ U, R p r ∧ (p ∉ X → p ∈ φ → r ∉ X) := by
    intro p hp
    by_cases h : p ∉ X ∧ p ∈ φ
    · obtain ⟨r, hrU, hr, hrX⟩ := havoid p hp h.1 h.2
      exact ⟨r, hrU, hr, fun _ _ => hrX⟩
    · obtain ⟨r, hrU, hr⟩ := htotal p hp
      exact ⟨r, hrU, hr, fun h1 h2 => absurd ⟨h1, h2⟩ h⟩
  obtain ⟨π, hπ, -⟩ := exists_isPath hnext hq
  refine ⟨π, ⟨hπ.1, fun i => (hπ.2 i).1⟩, ?_⟩
  rintro ⟨n, hφ, hn⟩
  have hout : ∀ i ≤ n, π i ∉ X := by
    intro i
    induction i with
    | zero => intro _; rw [hπ.1]; exact hqX
    | succ i ih => intro hi; exact (hπ.2 i).2 (ih (by omega)) (hφ i (by omega))
  exact hout n le_rfl (hψ hn)

/-- Among the states of a set in which every state has a successor and that no step leaves. -/
theorem isLeast_everyUntil (hU : ∀ q ∈ U, ∀ r, R q r → r ∈ U) (htotal : ∀ q ∈ U, ∃ r, R q r) (hψ : ψ ⊆ U) :
    IsLeast {X | ψ ∪ U ∩ (φ ∩ everyPred R X) ⊆ X}
      {q | q ∈ U ∧ Binary.Holds R .everyUntil (· ∈ φ) (· ∈ ψ) q} := by
  constructor
  · rintro q (hq | ⟨hqU, hqφ, hq⟩)
    · exact ⟨hψ hq, fun π hπ => ⟨0, by simp, hπ.1 ▸ hq⟩⟩
    · refine ⟨hqU, fun π hπ => ?_⟩
      obtain ⟨n, hφ, hn⟩ := (hq _ hπ.tail.1).2 _ hπ.tail.2
      refine ⟨n + 1, fun i hi => ?_, hn⟩
      cases i with
      | zero => rw [hπ.1]; exact hqφ
      | succ i => exact hφ i (by omega)
  · rintro X hX q ⟨hqU, hq⟩
    by_contra hqX
    have hstep : ∀ p ∈ U, ∃ r ∈ U, R p r := fun p hp => by
      obtain ⟨r, hr⟩ := htotal p hp
      exact ⟨r, hU p hp r hr, hr⟩
    have havoid : ∀ p ∈ U, p ∉ X → p ∈ φ → ∃ r ∈ U, R p r ∧ r ∉ X := by
      intro p hp hpX hpφ
      by_contra hno
      refine hpX (hX (.inr ⟨hp, hpφ, fun r hr => ?_⟩))
      by_contra hrX
      exact hno ⟨r, hU p hp r hr, hr, hrX⟩
    obtain ⟨π, hπ, hnot⟩ := exists_isPath_not_until hstep havoid (Set.subset_union_left.trans hX) hqU hqX
    exact hnot (hq π hπ)

theorem isLeast_everyEventually (hU : ∀ q ∈ U, ∀ r, R q r → r ∈ U) (htotal : ∀ q ∈ U, ∃ r, R q r) (hφ : φ ⊆ U) :
    IsLeast {X | φ ∪ U ∩ everyPred R X ⊆ X} {q | q ∈ U ∧ Unary.Holds R .everyEventually (· ∈ φ) q} := by
  simpa [everyEventually_iff_until] using isLeast_everyUntil (R := R) (φ := Set.univ) hU htotal hφ

theorem isGreatest_everyGlobally (φ : Set α) :
    IsGreatest {X | X ⊆ φ ∩ everyPred R X} {q | Unary.Holds R .everyGlobally (· ∈ φ) q} := by
  constructor
  · intro q hq
    refine ⟨hq 0 (fun _ => q) ⟨rfl, by simp⟩, fun r hr n π hπ => ?_⟩
    exact hq (n + 1) (cons q π) (hπ.cons hr)
  · intro X hX q hq n π hπ
    induction n generalizing q π with
    | zero => rw [hπ.1]; exact (hX hq).1
    | succ n ih => exact ih ((hX hq).2 _ hπ.tail.1) _ hπ.tail.2

end Arena.Checker
