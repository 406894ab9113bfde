/-
Laws of sets of names: what belongs to the results of the operations, that they have no repetitions, and how their sizes
compare. Sets with the same names have the same text.
-/
import Arena.Data.Names
import Mathlib.Data.List.Nodup
import Mathlib.Data.List.Perm.Subperm

namespace Arena

open List

variable {α β : Type} {f : α → Outcome β} {xs : List String} {x : α}

/-! ## Places in a list -/

theorem lt_of_getElem? {xs : List α} {i : Nat} (h : xs[i]? = some x) : i < xs.length :=
  (List.getElem?_eq_some_iff.1 h).1

theorem index_inj {xs : List α} (hn : xs.Nodup) {i j : Nat} (hi : xs[i]? = some x) (hj : xs[j]? = some x) :
    i = j := (getElem?_inj (lt_of_getElem? hi) hn).1 (hi.trans hj.symm)

/-! ## Sequences -/

theorem ok_bind (a : α) (f : α → Outcome β) : (.ok a >>= f) = f a := rfl

theorem map_bind_outcome {γ : Type} (f : β → γ) (x : Outcome α) (k : α → Outcome β) :
    (x >>= k).map f = x >>= fun a => (k a).map f := by
  cases x <;> rfl

theorem bind_eq_ok {x : Outcome α} {b : β} : (x >>= f) = .ok b ↔ ∃ a, x = .ok a ∧ f a = .ok b := by
  cases x <;> simp [bind, Except.bind]

theorem mapM_eq_ok : ∀ {xs : List α} {ys : List β}, xs.mapM f = .ok ys ↔ Forall₂ (fun x y => f x = .ok y) xs ys
  | [], ys => by
    simp [pure, Except.pure, eq_comm]
  | x :: xs, ys => by
    simp only [mapM_cons, bind_eq_ok, mapM_eq_ok, forall₂_cons_left_iff, pure, Except.pure, Except.ok.injEq]
    grind

theorem mapM_map_eq {f : β → Outcome α} {g : α → β} {xs : List α} (h : ∀ x ∈ xs, f (g x) = .ok x) :
    (xs.map g).mapM f = .ok xs :=
  mapM_eq_ok.2 (forall₂_map_left_iff.2 (forall₂_same.2 h))

/-! ## Outcomes side by side -/

section Agree

variable {γ δ : Type}

/-- Two outcomes with related values, or with the same cause. -/
inductive Agree (R : α → β → Prop) : Outcome α → Outcome β → Prop
  | ok {a : α} {b : β} (h : R a b) : Agree R (.ok a) (.ok b)
  | error (e : Fault) : Agree R (.error e) (.error e)

theorem agree_refl (x : Outcome α) : Agree (fun a b => a = b ∧ x = .ok a) x x := by
  cases x with
  | ok a => exact .ok ⟨rfl, rfl⟩
  | error e => exact .error e

variable {R : α → β → Prop} {Q : γ → δ → Prop} {x : Outcome α} {y : Outcome β} {f : α → Outcome γ} {g : β → Outcome δ}

theorem Agree.exists_ok {a : α} (h : Agree R x y) (hx : x = .ok a) : ∃ b, y = .ok b ∧ R a b := by
  cases h with
  | ok h =>
    cases hx
    exact ⟨_, rfl, h⟩
  | error e => cases hx

theorem Agree.mono {Q : α → β → Prop} (h : Agree R x y) (hRQ : ∀ a b, R a b → Q a b) : Agree Q x y := by
  cases h with
  | ok h => exact .ok (hRQ _ _ h)
  | error e => exact .error e

theorem Agree.bind (h : Agree R x y) (hfg : ∀ a b, R a b → Agree Q (f a) (g b)) : Agree Q (x >>= f) (y >>= g) := by
  cases h with
  | ok h => exact hfg _ _ h
  | error e => exact .error e

theorem Agree.eq {R : α → α → Prop} {x y : Outcome α} (h : Agree R x y) (hR : ∀ a b, R a b → b = a) : x = y := by
  cases h with
  | ok h => rw [hR _ _ h]
  | error e => rfl

/-- Two outcomes that agree, unless the first fails for a reason that is known. -/
def AgreeUnless (reason : Prop) (R : α → β → Prop) (x : Outcome α) (y : Outcome β) : Prop :=
  Agree R x y ∨ reason ∧ ∀ a, x ≠ .ok a

theorem AgreeUnless.bind {reason : Prop} (h : AgreeUnless reason R x y)
    (hfg : ∀ a b, R a b → AgreeUnless reason Q (f a) (g b)) : AgreeUnless reason Q (x >>= f) (y >>= g) := by
  rcases h with h | ⟨hreason, hno⟩
  · cases h with
    | ok h => exact hfg _ _ h
    | error e => exact .inl (.error e)
  · refine .inr ⟨hreason, fun c hc => ?_⟩
    obtain ⟨a, ha, -⟩ := bind_eq_ok.1 hc
    exact hno a ha

end Agree

/-! ## Tables -/

theorem find?_put {κ ν : Type} [BEq κ] {k k' : κ} (hk : ∀ l : κ, (l == k) = true ↔ l = k)
    (hk' : ∀ l : κ, (l == k') = true ↔ l = k') (t : List (κ × ν)) (v : ν) :
    ((if t.any (·.1 == k) then t.map fun e => if e.1 == k then (k, v) else e else t ++ [(k, v)]).find? (·.1 == k')).map (·.2) =
      if k' == k then some v else (t.find? (·.1 == k')).map (·.2) := by
  have hmap : ((t.map fun e => if e.1 == k then (k, v) else e).find? (·.1 == k')).map (·.2) =
      if k' == k then (t.find? (·.1 == k')).map fun _ => v else (t.find? (·.1 == k')).map (·.2) := by
    induction t with
    | nil => simp
    | cons e t ih => grind
  split
  · rename_i hany
    obtain ⟨e, he⟩ := Option.isSome_iff_exists.1 (find?_isSome.2 (any_eq_true.1 hany))
    rw [hmap]
    split
    · rename_i heq
      rw [(hk k').1 heq, he]
      rfl
    · rfl
  · grind

/-! ## Lists without repetitions -/

namespace Text

section Distinct

variable [BEq α] [LawfulBEq α]

/-- The fold behind `distinct`: what was seen stays, and what is new is added once. -/
theorem distinct_fold (xs : List α) : ∀ (seen : List α), seen.Nodup →
    (xs.foldl (fun seen x => if seen.contains x then seen else seen ++ [x]) seen).Nodup ∧
      ∀ a, a ∈ xs.foldl (fun seen x => if seen.contains x then seen else seen ++ [x]) seen ↔
        a ∈ seen ∨ a ∈ xs := by
  induction xs with
  | nil => intro seen h; exact ⟨h, fun a => by simp⟩
  | cons x xs ih =>
    intro seen h
    simp only [foldl_cons]
    split
    · rename_i hx
      obtain ⟨h1, h2⟩ := ih seen h
      refine ⟨h1, fun a => ?_⟩
      rw [h2, mem_cons]
      have hx : x ∈ seen := by simpa using hx
      constructor
      · rintro (ha | ha); exact .inl ha; exact .inr (.inr ha)
      · rintro (ha | rfl | ha); exacts [.inl ha, .inl hx, .inr ha]
    · rename_i hx
      have hx : x ∉ seen := by simpa using hx
      have hn : (seen ++ [x]).Nodup := nodup_append.2 ⟨h, nodup_singleton _, fun a ha b hb => by
        rw [mem_singleton] at hb; subst hb; rintro rfl; exact hx ha⟩
      obtain ⟨h1, h2⟩ := ih (seen ++ [x]) hn
      refine ⟨h1, fun a => ?_⟩
      rw [h2, mem_append, mem_singleton, mem_cons, or_assoc]

theorem nodup_distinct (xs : List α) : (distinct xs).Nodup := (distinct_fold xs [] nodup_nil).1

@[simp] theorem mem_distinct {xs : List α} {a : α} : a ∈ distinct xs ↔ a ∈ xs := by
  unfold distinct
  rw [(distinct_fold xs [] nodup_nil).2 a]; simp

theorem distinct_of_nodup {xs : List α} (h : xs.Nodup) : distinct xs = xs := by
  have hfold : ∀ (ys seen : List α), (seen ++ ys).Nodup →
      ys.foldl (fun seen x => if seen.contains x then seen else seen ++ [x]) seen = seen ++ ys := by
    intro ys
    induction ys with
    | nil => intro seen _; simp
    | cons y ys ih =>
      intro seen hn
      have hy : y ∉ seen := fun hmem => (nodup_append.1 hn).2.2 y hmem y mem_cons_self rfl
      rw [foldl_cons, if_neg (by simpa using hy), ih _ (by simpa using hn)]
      simp
  exact hfold xs [] h

end Distinct

/-! ## Texts in order -/

theorem sorted_perm (xs : List String) : (sorted xs).Perm xs := mergeSort_perm xs precedes

@[simp] theorem mem_sorted {a : String} : a ∈ sorted xs ↔ a ∈ xs :=
  (sorted_perm xs).mem_iff

theorem nodup_sorted (h : xs.Nodup) : (sorted xs).Nodup :=
  (sorted_perm xs).nodup_iff.2 h

theorem precedes_iff {a b : String} : precedes a b = true ↔ a ≤ b := by
  rw [precedes, Bool.not_eq_true', decide_eq_false_iff_not, String.not_lt]

theorem sorted_pairwise (xs : List String) : (sorted xs).Pairwise (· ≤ ·) := by
  have trans : ∀ a b c, precedes a b = true → precedes b c = true → precedes a c = true := by
    intro a b c h1 h2
    rw [precedes_iff] at *
    exact String.le_trans h1 h2
  have total : ∀ a b, (precedes a b || precedes b a) = true := by
    intro a b
    rw [Bool.or_eq_true, precedes_iff, precedes_iff]
    exact String.le_total a b
  exact (pairwise_mergeSort trans total xs).imp precedes_iff.1

theorem sorted_congr {ys : List String} (h : xs.Perm ys) : sorted xs = sorted ys := by
  have hp : (sorted xs).Perm (sorted ys) := (sorted_perm xs).trans (h.trans (sorted_perm ys).symm)
  exact Perm.eq_of_pairwise (fun _ _ _ _ h1 h2 => String.le_antisymm h1 h2) (sorted_pairwise xs)
    (sorted_pairwise ys) hp

end Text

/-! ## Sets of names -/

namespace Names

variable {a b : Names} {x : String}

@[simp] theorem mem_ofList : x ∈ ofList xs ↔ x ∈ xs := Text.mem_distinct

theorem nodup_ofList (xs : List String) : (ofList xs).Nodup := Text.nodup_distinct xs

@[simp] theorem mem_union : x ∈ a.union b ↔ x ∈ a ∨ x ∈ b := by
  unfold union
  by_cases h : x ∈ a <;> simp [h]

theorem nodup_union (ha : a.Nodup) (hb : b.Nodup) : (a.union b).Nodup := by
  refine nodup_append.2 ⟨ha, hb.filter _, fun x hx y hy => ?_⟩
  rintro rfl
  simp only [mem_filter, contains_eq_mem, Bool.not_eq_true', decide_eq_false_iff_not] at hy
  exact hy.2 hx

@[simp] theorem mem_inter : x ∈ a.inter b ↔ x ∈ a ∧ x ∈ b := by
  unfold inter; simp

theorem nodup_inter (ha : a.Nodup) : (a.inter b).Nodup := ha.filter _

@[simp] theorem mem_diff : x ∈ a.diff b ↔ x ∈ a ∧ x ∉ b := by
  unfold diff; simp

theorem nodup_diff (ha : a.Nodup) : (a.diff b).Nodup := ha.filter _

theorem subset_iff : a.subset b = true ↔ ∀ x ∈ a, x ∈ b := by
  unfold subset; simp

theorem same_iff : a.same b = true ↔ ∀ x, x ∈ a ↔ x ∈ b := by
  unfold same
  rw [Bool.and_eq_true, subset_iff, subset_iff]
  exact ⟨fun h x => ⟨h.1 x, h.2 x⟩, fun h => ⟨fun x => (h x).1, fun x => (h x).2⟩⟩

/-! ## Sizes -/

theorem length_le (ha : a.Nodup) (h : ∀ x ∈ a, x ∈ b) : a.length ≤ b.length :=
  (ha.subperm h).length_le

theorem length_lt (ha : a.Nodup) (h : ∀ x ∈ a, x ∈ b) (hx : x ∈ b) (hxa : x ∉ a) : a.length < b.length := by
  have hc : (x :: a).Nodup := nodup_cons.2 ⟨hxa, ha⟩
  have hs : ∀ y ∈ x :: a, y ∈ b := by
    intro y hy
    rcases mem_cons.1 hy with rfl | hy
    · exact hx
    · exact h y hy
  exact length_le hc hs

/-! ## Texts -/

theorem print_congr (ha : a.Nodup) (hb : b.Nodup) (h : ∀ x, x ∈ a ↔ x ∈ b) : a.print = b.print := by
  have hp : a.Perm b := (perm_ext_iff_of_nodup ha hb).2 h
  unfold print
  rw [Text.sorted_congr hp, hp.isEmpty_eq]

end Names

end Arena
