/-
Operators with a bound. The operator of a label depends on neither coalition nor bound, and labels for lower bounds are
read back as written. Reaching a target is solved bound by bound, from the target only if the bound allows nothing;
keeping to a target gives no state if the bound allows something.
-/
import Arena.Proofs.Checker.History
import Arena.Proofs.Checker.Spending

namespace Arena

open Formula Lexicon Text Names List

def Coalition.boundedLabel (agents bound : List Nat) (operator : String) : String := label agents (label bound operator)

namespace Checker.Bounded

open Coalition Unary
open Branching (Renames)

variable {p : Pricing} {m : Model} {n r : Nat} {A B : List Char} {agents : List Nat} {spent bound bound' : Bound}
  {operator letter l : String} {X U : Set String} {step : Bound → Set String → Set String} {target φ ψ : Names}
  {a b : Tree} {x : Solving Tree}

/-! ## Labels -/

theorem kindsIn_headed (hA : Numerals A) (hB : Numerals B) (O : List Char) :
    kindsIn p.logic (headed A B O) = .boundedCoalition :: kindsIn p.logic (String.ofList O) := by
  have hopen : ∀ s, literal "<" ('<' :: s) = some (['<'], s) := fun _ => rfl
  have hclose : ∀ s, literal ">" ('>' :: s) = some (['>'], s) := fun _ => rfl
  have hreads : boundedCoalition.reads ('<' :: (A ++ '>' :: '<' :: (B ++ '>' :: O))) =
      some ('<' :: (A ++ '>' :: '<' :: (B ++ ['>'])), O) := by
    simp only [boundedCoalition, Formula.sequence, hopen, hA.reads, hB.reads, hclose]
    simp
  have hfront : p.logic.lexicon.front? ('<' :: (A ++ '>' :: '<' :: (B ++ '>' :: O))) =
      some (.boundedCoalition, '<' :: (A ++ '>' :: '<' :: (B ++ ['>']))) := by
    cases p <;> simp only [Pricing.logic, Logic.lexicon, rbatl, rabatl, front?, hreads] <;> rfl
  unfold kindsIn tokens headed
  rw [String.toList_ofList]
  exact congrArg (map _) (tokensFrom_front (cons_ne_nil _ _) (by simp) hfront)

theorem of?_headed (hA : Numerals A) (hB : Numerals B) (O : List Char) :
    of? p (headed A B O) = of? p (headed ['0'] ['0'] O) ∧
      Binary.of? p (headed A B O) = Binary.of? p (headed ['0'] ['0'] O) := by
  have hkinds : kindsIn p.logic (headed A B O) = kindsIn p.logic (headed ['0'] ['0'] O) := by
    have hzero : Numerals ['0'] := rfl
    rw [kindsIn_headed hA hB, kindsIn_headed hzero hzero]
  unfold of? Binary.of?
  rw [hkinds]
  exact ⟨rfl, rfl⟩

theorem of?_letters (p : Pricing) : of? p (headed ['0'] ['0'] "X".toList) = some .next ∧
    of? p (headed ['0'] ['0'] "F".toList) = some .eventually ∧
    of? p (headed ['0'] ['0'] "G".toList) = some .globally ∧
    Binary.of? p (headed ['0'] ['0'] "U".toList) = some .untl := by cases p <;> decide

theorem numerals_text (hne : agents ≠ []) : Numerals (text agents).toList := by
  obtain ⟨a, agents, rfl⟩ := exists_cons_of_ne_nil hne
  rw [toList_text]
  exact numerals_of_reads (numeralList_chars a agents [])

theorem numeralsOf_eq (h : ∀ b ∈ bound, 0 ≤ b) : numeralsOf bound = (text (bound.map Int.toNat)).toList := by
  rw [text, map_map]
  exact congrArg (fun xs => (join "," xs).toList) (map_congr_left fun b hb => toString_ofNonneg (h b hb))

theorem boundedLabel_eq_headed (agents bound : List Nat) (operator : String) :
    boundedLabel agents bound operator =
      headed (text agents).toList (numeralsOf (bound.map Nat.cast)) operator.toList := by
  have htext : numeralsOf (bound.map Nat.cast) = (text bound).toList := by
    rw [numeralsOf_eq (by simp), map_map, show Int.toNat ∘ Nat.cast = id from rfl, map_id]
  apply String.toList_injective
  simp [htext, boundedLabel, label, headed]

/-- A label with a coalition, a bound for `r` resources and an operator. -/
structure Bears (r : Nat) (A : List Char) (bound : Bound) (operator l : String) : Prop where
  written : ∃ B, Numerals B ∧ l = headed A B operator.toList
  read : readLabel l = .ok (String.ofList A, bound)
  length : bound.length = r

section Labels

variable (hA : Numerals A)

include hA

theorem bears_headed (hr : r ≠ 0) (hlen : bound.length = r) (hrange : ∀ b ∈ bound, 0 ≤ b ∧ b < 10 ^ maxDigits)
    (operator : String) : Bears r A bound operator (headed A (numeralsOf bound) operator.toList) := by
  have hne : bound ≠ [] := length_pos_iff.1 (by omega)
  refine ⟨⟨_, ?_, rfl⟩, readLabel_numeralsOf hA.numeric hne hrange _, hlen⟩
  rw [numeralsOf_eq fun b hb => (hrange b hb).1]
  exact numerals_text (by simpa using hne)

omit hA in
theorem bears_boundedLabel (hne : agents ≠ []) (hr : r ≠ 0) {bound : List Nat} (hlen : bound.length = r)
    (hlt : ∀ b ∈ bound, b < 10 ^ maxDigits) (operator : String) :
    Bears r (text agents).toList (bound.map Nat.cast) operator (boundedLabel agents bound operator) := by
  rw [boundedLabel_eq_headed]
  refine bears_headed (numerals_text hne) hr ((length_map ..).trans hlen) (fun b hb => ?_) operator
  obtain ⟨c, hc, rfl⟩ := mem_map.1 hb
  exact ⟨Int.natCast_nonneg c, by exact_mod_cast hlt c hc⟩

omit hA in
theorem bears_free (hne : agents ≠ []) (hr : r ≠ 0) (operator : String) :
    Bears r (text agents).toList (replicate r 0) operator (boundedLabel agents (replicate r 0) operator) := by
  have hbears := bears_boundedLabel hne hr length_replicate
    (fun b hb => eq_of_mem_replicate hb ▸ Nat.pow_pos (by decide)) operator
  rwa [map_replicate] at hbears

variable (hl : Bears r A bound operator l)

include hl

theorem Bears.known : Known l := by
  obtain ⟨B, hB, rfl⟩ := hl.written
  exact .headed hA.numeric hB.numeric _

theorem Bears.range : ∀ b ∈ bound, 0 ≤ b ∧ b < 10 ^ maxDigits := by
  obtain ⟨B, hB, rfl⟩ := hl.written
  exact nonneg_of_readLabel hA.numeric hB.numeric hl.read

theorem Bears.of?_eq : of? p l = of? p (headed ['0'] ['0'] operator.toList) ∧
    Binary.of? p l = Binary.of? p (headed ['0'] ['0'] operator.toList) := by
  obtain ⟨B, hB, rfl⟩ := hl.written
  exact of?_headed hA hB _

theorem Bears.lower (hr : r ≠ 0) (hbelow : Below spent bound) (letter : String) :
    ∃ lower, relabel l spent letter = .ok lower ∧ Bears r A spent letter lower := by
  have hrange := hl.range hA
  have hlimit := hbelow.lt fun b hb => (hrange b hb).2
  obtain ⟨B, hB, rfl⟩ := hl.written
  exact ⟨_, relabel_headed hA.numeric .., bears_headed hA hr (hbelow.length_eq.trans hl.length)
    (fun s hs => ⟨hbelow.nonneg s hs, hlimit s hs⟩) letter⟩

end Labels

/-! ## Fixpoints -/

section Reach

variable (step : Bound → Set String → Set String) (target : Set String)

/-- The states from which a target is reached within a bound. A bound that allows nothing starts from the target;
another one starts from the states whose first step, paid by a part of the bound, leads to where the rest of the bound
suffices. From there on steps are free. -/
def reach (bound : Bound) : Set String :=
  sInf {X | (if isZero bound then target else {q | ∃ spent, ∃ _h : Below spent bound ∧ spent ≠ bound,
    q ∈ step (zipWith (· - ·) bound spent) (reach spent)}) ∪ step (zeros bound) X ⊆ X}
termination_by total bound
decreasing_by exact _h.1.total_lt _h.2

/-- The states from which the first step leads to where one of the bounds with a property suffices. -/
def firstSteps (bound : Bound) (P : Bound → Prop) : Set String :=
  {q | ∃ spent, Below spent bound ∧ P spent ∧ q ∈ step (zipWith (· - ·) bound spent) (reach step target spent)}

variable {step}

theorem isLeast_reach (bound : Bound) (hmono : ∀ ⦃X Y⦄, X ⊆ Y → step (zeros bound) X ⊆ step (zeros bound) Y) :
    IsLeast {X | (if isZero bound then target else firstSteps step target bound (· ≠ bound)) ∪ step (zeros bound) X ⊆ X}
      (reach step target bound) := by
  have hleast := OrderHom.isLeast_lfp_le (⟨fun X => (if isZero bound then target else
    firstSteps step target bound (· ≠ bound)) ∪ step (zeros bound) X, fun X Y h => Set.union_subset_union_right _ (hmono h)⟩ :
      Set String →o Set String)
  have heq : reach step target bound = sInf {X | (if isZero bound then target else
      firstSteps step target bound (· ≠ bound)) ∪ step (zeros bound) X ⊆ X} := by
    rw [reach]
    simp only [firstSteps, exists_prop, and_assoc]
  rw [heq]
  exact hleast

variable {target}

theorem isZero_free (r : Nat) : isZero (List.replicate r 0) = true :=
  all_eq_true.2 fun _ hb => beq_iff_eq.2 (eq_of_mem_replicate hb)

theorem zeros_eq (bound : Bound) : zeros bound = replicate bound.length 0 := map_const' ..

theorem length_zeros (bound : Bound) : (zeros bound).length = bound.length := length_map ..

theorem zeros_eq_self (h : isZero bound = true) : zeros bound = bound := by
  refine (map_congr_left fun b hb => ?_).trans (map_id bound)
  exact (beq_iff_eq.1 (all_eq_true.1 h b hb)).symm

theorem Below.length_left (h : Below spent bound) : (zipWith (· - ·) bound spent).length = bound.length := by
  rw [length_zipWith, h.length_eq, Nat.min_self]

theorem Below.nonneg_left (h : Below spent bound) : ∀ b ∈ zipWith (· - ·) bound spent, 0 ≤ b := by
  induction h with
  | nil => simp
  | cons hs _ ih => exact forall_mem_cons.2 ⟨sub_nonneg.2 hs.2, ih⟩

theorem firstSteps_subset (hU : ∀ b X, step b X ⊆ U) {P : Bound → Prop} : firstSteps step target bound P ⊆ U := by
  rintro q ⟨spent, -, -, hq⟩
  exact hU _ _ hq

theorem reach_subset (htarget : target ⊆ U) (hmono : ∀ b ⦃X Y⦄, X ⊆ Y → step b X ⊆ step b Y) (hU : ∀ b X, step b X ⊆ U)
    (bound : Bound) : reach step target bound ⊆ U := by
  refine (isLeast_reach target bound (hmono _)).2 (Set.union_subset ?_ (hU _ _))
  split
  · exact htarget
  · exact firstSteps_subset hU

theorem firstSteps_succ (h : Below spent bound) :
    firstSteps step target bound (rank · bound < rank spent bound + 1) =
      firstSteps step target bound (rank · bound < rank spent bound) ∪
        step (zipWith (· - ·) bound spent) (reach step target spent) := by
  ext q
  constructor
  · rintro ⟨s, hs, hlt, hq⟩
    rcases Nat.lt_succ_iff_lt_or_eq.1 hlt with hlt | heq
    · exact .inl ⟨s, hs, hlt, hq⟩
    · rw [rank_inj hs h heq] at hq
      exact .inr hq
  · rintro (⟨s, hs, hlt, hq⟩ | hq)
    · exact ⟨s, hs, Nat.lt_succ_of_lt hlt, hq⟩
    · exact ⟨spent, h, Nat.lt_succ_self _, hq⟩

theorem firstSteps_all (h : ∀ b ∈ bound, 0 ≤ b) :
    firstSteps step target bound (rank · bound < rank bound bound) = firstSteps step target bound (· ≠ bound) := by
  ext q
  refine exists_congr fun s => and_congr_right fun hs => and_congr_left fun _ => ?_
  constructor
  · rintro hlt rfl
    exact lt_irrefl _ hlt
  · intro hne
    exact lt_of_le_of_ne hs.rank_le fun heq => hne (rank_inj hs (below_self h) heq)

end Reach

/-! ## Solving bound by bound -/

theorem eachBound_run (hpos : ∀ b ∈ bound, 0 ≤ b) (hz : isZero bound = false) {step extend again label letter} {base : Tree}
    {I : Nat → Names → Prop} (hinit : I 0 []) (hround : ∀ v, Below v bound → v ≠ bound → ∀ found x,
      I (rank v bound) found → ∃ found' y, I (rank v bound + 1) found' ∧
        solveLower step extend again label letter bound (found, base.withText x) v = pure (found', base.withText y)) :
    ∃ S, I (rank bound bound) S ∧ (do
      let (S, node) ← eachBound step extend again label letter bound (vectors bound) (zeros bound) [] base
      return node.withText S.print) = pure (base.withText S.print) := by
  obtain ⟨before, -, hfold, hrun⟩ := eachBound_fold hpos hz
  obtain ⟨_, hS, S, x, rfl, hI⟩ := hrun (f := solveLower step extend again label letter bound)
    (I := fun k s => ∃ S x, s = (S, base.withText x) ∧ I k S) (fun v hv hne s hs => by
      obtain ⟨found, x, rfl, hI⟩ := hs
      obtain ⟨found', y, hI', hround⟩ := hround v hv hne found x hI
      exact ⟨_, hround, found', y, rfl, hI'⟩)
    ([], base) ⟨[], _, congrArg _ (withText_text base).symm, hinit⟩
  refine ⟨S, hI, ?_⟩
  rw [hfold, hS, pure_bind]
  exact congrArg pure (withText_withText ..)

/-! ## Operators -/

/-- A computation gives a tree whose root has the text of a set. -/
def Prints (x : Solving Tree) (base : Tree) (X : Set String) : Prop :=
  ∃ S : Names, x = pure (base.withText S.print) ∧ S.Nodup ∧ S.toSet = X

/-- The predecessors that a coalition has under bounds for `r` resources, as functions of sets. -/
structure Engine (p : Pricing) (m : Model) (r : Nat) (A : List Char) (step : Bound → Set String → Set String) : Prop where
  resources : r ≠ 0
  numerals : Numerals A
  empty : ∀ bound, step bound ∅ = ∅
  mono : ∀ bound ⦃X Y⦄, X ⊆ Y → step bound X ⊆ step bound Y
  inside : ∀ bound X, step bound X ⊆ toSet m.stateSet
  value : ∀ {bound : Bound}, bound.length = r → (∀ b ∈ bound, 0 ≤ b) → ∀ s : Names, s.toSet ⊆ toSet m.stateSet →
    Yields (pre p m (String.ofList A) s bound) (step bound s.toSet)

/-- Where the costs of all joint actions are known, the states that are admitted with the ones that can be paid. -/
theorem engine_of_priced (h : m.Square) (hr : r ≠ 0) (hne : agents ≠ []) (hlt : ∀ a ∈ agents, a < 10 ^ maxDigits)
    (hpriced : ∀ bound, bound.length = r → (∀ b ∈ bound, 0 ≤ b) → Priced p m (names (text agents)) bound) :
    ∃ is, (∀ i, i ∈ is ↔ ∃ a ∈ agents, i = (a : Int) - 1) ∧ Engine p m r (text agents).toList fun bound =>
      admittedBy m is (isAffordable p m (names (text agents)) bound · · = .ok true) := by
  obtain ⟨is, his, hmem⟩ := positions_text hne hlt
  obtain ⟨a, ha⟩ := exists_mem_of_ne_nil _ hne
  refine ⟨is, hmem, hr, numerals_text hne, fun _ => ?_, fun _ _ _ => ?_, fun _ X => ?_, fun hlen hpos s hs => ?_⟩
  · exact Set.subset_empty_iff.1 fun _ ⟨_, _, _, _, ⟨_, _, _, ⟨_, hr, _⟩, _⟩, _⟩ => hr
  · exact admittedBy_mono fun _ _ _ _ _ _ h => h
  · rw [toSet_stateSet]
    exact admittedBy_subset _ X
  · rw [toSet_stateSet] at hs
    rw [String.ofList_toList]
    exact yields_pre h (hpriced _ hlen hpos) his (ne_nil_of_mem ((hmem _).2 ⟨a, ha, rfl⟩)) hs

/-- The states of a set from which a step leads to another one. -/
def stepThrough (step : Bound → Set String → Set String) (through : Set String) (bound : Bound) (X : Set String) :
    Set String := step bound X ∩ through

section Operators

variable (e : Engine p m r A step) {again : Tree → Solving Tree} {base : Tree}

include e

theorem Engine.mono_through (through : Set String) (bound : Bound) ⦃X Y : Set String⦄ (h : X ⊆ Y) :
    stepThrough step through bound X ⊆ stepThrough step through bound Y :=
  Set.inter_subset_inter_left _ (e.mono bound h)

theorem Engine.inside_through (through : Set String) (bound : Bound) (X : Set String) :
    stepThrough step through bound X ⊆ toSet m.stateSet := Set.inter_subset_left.trans (e.inside bound X)

theorem Engine.empty_through (through : Set String) (bound : Bound) : stepThrough step through bound ∅ = ∅ := by
  rw [stepThrough, e.empty, Set.empty_inter]

theorem Engine.computes (hlen : bound.length = r) (hpos : ∀ b ∈ bound, 0 ≤ b) (through : Names) :
    Computes m.stateSet (fun s => do return (← pre p m (String.ofList A) s bound).inter through)
      (stepThrough step through.toSet bound) :=
  Computes.inter ⟨e.mono bound, e.inside bound, e.value hlen hpos⟩ through

theorem Engine.computes_zeros (hl : Bears r A bound operator l) (through : Names) :
    Computes m.stateSet (fun s => do return (← pre p m (String.ofList A) s (zeros bound)).inter through)
      (stepThrough step through.toSet (zeros bound)) :=
  e.computes ((length_zeros bound).trans hl.length)
    (below_zeros fun b hb => (hl.range e.numerals b hb).1).nonneg through

/-- With nothing to spend, what reaches a set through another one is the least set that the steps ask for. -/
theorem Engine.isLeast_free (hz : isZero bound = true) (through target : Set String) :
    IsLeast {X | target ∪ step bound X ∩ through ⊆ X} (reach (stepThrough step through) target bound) := by
  have hleast := isLeast_reach target bound (e.mono_through through _)
  rwa [if_pos hz, zeros_eq_self hz] at hleast

variable (again) (base) (hl : Bears r A bound operator base.text) (through : Names)

include hl in
/-- What is done for a lower bound whose tree is solved: the first steps are added that its states allow. -/
theorem Engine.exists_round (hbelow : Below spent bound) {lower : String}
    (hlower : relabel base.text spent letter = .ok lower) {Y : Set String} (hY : Y ⊆ toSet m.stateSet)
    (hprints : Prints (again (base.withText lower)) base Y) :
    ∃ (first : Names) (y : String), first.Nodup ∧
      first.toSet = stepThrough step through.toSet (zipWith (· - ·) bound spent) Y ∧
      ∀ {extend : Names → Names → Outcome Names} {found found' : Names} (x : String), extend found first = .ok found' →
        solveLower (fun s b => do return (← pre p m (String.ofList A) s b).inter through) extend again base.text letter
          bound (found, base.withText x) spent = pure (found', base.withText y) := by
  obtain ⟨S, hS, hn, hset⟩ := hprints
  obtain ⟨first, hfirst, hfn, hfset⟩ := (e.computes (hbelow.length_left.trans hl.length) hbelow.nonneg_left through).value
    (sorted S) (by rwa [toSet_sorted, hset])
  rw [toSet_sorted, hset] at hfset
  refine ⟨first, S.print, hfn, hfset, fun x hextend => ?_⟩
  have hspend : (do pure ((← pre p m (String.ofList A) (sorted S) (← difference bound spent)).inter through)) =
      Except.ok first := by
    rw [difference_eq hbelow]
    exact hfirst
  simp only [solveLower, hlower, lift_ok, pure_bind, withText_withText, hS, text_withText, read_print hn, hspend, hextend]

variable (ht : Within m target)
  (hlower : isZero bound = false → ∀ {spent lower}, Below spent bound → spent ≠ bound → Bears r A spent letter lower →
    Prints (again (base.withText lower)) base (reach (stepThrough step through.toSet) target.toSet spent))

include hl ht hlower

theorem Engine.prints_rounds (hz : isZero bound = false) :
    Prints (solveReach p m again base letter (String.ofList A) bound through target) base
      (reach (stepThrough step through.toSet) target.toSet bound) := by
  have hlen := length_stateSet m
  have hpos : ∀ b ∈ bound, 0 ≤ b := fun b hb => (hl.range e.numerals b hb).1
  have hcomp := e.computes_zeros hl through
  have hleast := isLeast_reach target.toSet bound hcomp.mono
  rw [if_neg (by simpa using hz), ← firstSteps_all hpos] at hleast
  -- after some vectors, what was found is what their first steps lead to
  let I (k : Nat) (found : Names) : Prop := found.Nodup ∧ IsLeast {X | firstSteps (stepThrough step through.toSet)
    target.toSet bound (rank · bound < k) ∪ stepThrough step through.toSet (zeros bound) X ⊆ X} found.toSet
  have hinit : I 0 [] := by
    refine ⟨nodup_nil, ?_, fun X _ => by simp⟩
    rw [toSet_nil]
    rintro q (⟨_, -, hlt, -⟩ | hq)
    · exact absurd hlt (Nat.not_lt_zero _)
    · rwa [e.empty_through] at hq
  unfold solveReach
  simp only [hz]
  refine (eachBound_run hpos hz hinit fun spent hbelow hne found x ⟨hfn, hfound⟩ => ?_).imp
    fun S ⟨⟨hn, hS⟩, hrun⟩ => ⟨hrun, hn, hS.unique hleast⟩
  obtain ⟨lower, hrelabel, hlow⟩ := hl.lower e.numerals e.resources hbelow letter
  obtain ⟨first, y, hfirstn, hfset, hround⟩ := e.exists_round again base hl through hbelow hrelabel
    (reach_subset ht.toSet_subset (e.mono_through _) (e.inside_through _) spent) (hlower hz hbelow hne hlow)
  have hfirstU : first.toSet ⊆ toSet m.stateSet := hfset ▸ e.inside_through ..
  have hfoundU : found.toSet ⊆ toSet m.stateSet :=
    hfound.2 (Set.union_subset (firstSteps_subset (e.inside_through _)) (e.inside_through ..))
  obtain ⟨X, hX⟩ := exists_isLeast (fun _ _ h => hcomp.mono h)
    (firstSteps (stepThrough step through.toSet) target.toSet bound (rank · bound < rank spent bound) ∪ first.toSet)
  obtain ⟨found', hgrow, hn, hset⟩ := yields_grow_more hcomp hfn hfoundU hfirstn hfirstU
    (show length m.stateSet < rounds m first by unfold rounds; omega) hfound hX
  refine ⟨found', y, ⟨hn, ?_⟩, hround x hgrow⟩
  rw [firstSteps_succ hbelow, ← hfset, hset]
  exact hX

theorem Engine.prints_reach : Prints (solveReach p m again base letter (String.ofList A) bound through target) base
    (reach (stepThrough step through.toSet) target.toSet bound) := by
  have hlen := length_stateSet m
  by_cases hz : isZero bound = true
  · have hcomp := e.computes_zeros hl through
    have hleast := isLeast_reach target.toSet bound hcomp.mono
    rw [if_pos hz] at hleast
    obtain ⟨S, hS, hn, hset⟩ := yields_grow hcomp (e.empty_through ..) ht.1 ht.toSet_subset
      (show length m.stateSet < rounds m target by unfold rounds; omega) hleast
    rw [zeros_eq_self hz] at hS
    refine ⟨S, ?_, hn, hset⟩
    unfold solveReach
    simp only [if_pos hz, hS]
    rfl
  · exact e.prints_rounds again base hl through ht hlower (by simpa using hz)

end Operators

section Keep

variable (e : Engine p m r A step) (again : Tree → Solving Tree) (base : Tree) (hl : Bears r A bound operator base.text)
  (ht : Within m target)
  (hlower : isZero bound = false → ∀ {spent lower}, Below spent bound → spent ≠ bound → Bears r A spent "G" lower →
    ∃ X ⊆ toSet m.stateSet, Prints (again (base.withText lower)) base X)

include e hl ht hlower

theorem Engine.prints_keep : ∃ X ⊆ toSet m.stateSet,
    Prints (solveKeep p m again base (String.ofList A) bound target) base X ∧ (isZero bound = false → X = ∅) ∧
      (isZero bound = true → (toSet m.stateSet ⊆ target.toSet → step bound (toSet m.stateSet) = toSet m.stateSet) →
        IsGreatest {X | X ⊆ stepThrough step target.toSet bound X} X) := by
  by_cases hz : isZero bound = true
  · have hcomp := e.computes_zeros hl target
    rw [zeros_eq_self hz] at hcomp
    have hshrink : ∃ S : Names, shrink (fun s => do return (← pre p m (String.ofList A) s bound).inter target)
        (rounds m target) m.stateSet target = .ok S ∧ S.Nodup ∧ S.toSet ⊆ toSet m.stateSet ∧
          ((toSet m.stateSet ⊆ target.toSet → step bound (toSet m.stateSet) = toSet m.stateSet) →
            IsGreatest {X | X ⊆ stepThrough step target.toSet bound X} S.toSet) := by
      by_cases hall : toSet m.stateSet ⊆ target.toSet
      · refine ⟨m.stateSet, ?_, nodup_stateSet m, subset_rfl, fun hstep => ⟨?_, fun X hX => hX.trans (hcomp.inside X)⟩⟩
        · rw [rounds, shrink, if_pos (subset_iff_toSet.2 hall)]
          rfl
        · exact Set.subset_inter (hstep hall).ge hall
      · obtain ⟨X, hX⟩ := exists_isGreatest fun _ _ h => hcomp.mono h
        obtain ⟨⟨S, hS, hn, hset⟩, -⟩ := yields_shrink_within hcomp ht.1 ht.toSet_subset
          (fun _ => Set.inter_subset_right) (show target.length + 1 < rounds m target by unfold rounds; omega) hall hX
        exact ⟨S, hS, hn, hset ▸ hX.1.trans (hcomp.inside X), fun _ => hset ▸ hX⟩
    obtain ⟨S, hS, hn, hU, hgreatest⟩ := hshrink
    refine ⟨S.toSet, hU, ⟨S, ?_, hn, rfl⟩, fun h => absurd hz (by simp [h]), fun _ => hgreatest⟩
    unfold solveKeep
    simp only [if_pos hz, hS]
    rfl
  · rw [Bool.not_eq_true] at hz
    have hpos : ∀ b ∈ bound, 0 ≤ b := fun b hb => (hl.range e.numerals b hb).1
    -- the loop begins with the empty set, which every set holds already
    refine ⟨∅, Set.empty_subset _, ?_, fun _ => rfl, fun h => absurd h (by simp [hz])⟩
    unfold solveKeep
    simp only [hz]
    refine (eachBound_run hpos hz (I := fun _ found => found = []) rfl fun spent hbelow hne _ x hfound => ?_).imp
      fun S h => ⟨h.2, by rw [h.1]; exact nodup_nil, by rw [h.1, toSet_nil]⟩
    obtain ⟨lower, hrelabel, hlow⟩ := hl.lower e.numerals e.resources hbelow "G"
    obtain ⟨X, hXU, hX⟩ := hlower hz hbelow hne hlow
    obtain ⟨first, y, -, -, hround⟩ := e.exists_round again base hl target hbelow hrelabel hXU hX
    exact ⟨[], y, rfl, hround x (by rw [hfound]; rfl)⟩

end Keep

theorem argument_print (hφ : φ.Nodup) : argument (some φ.print) = .ok (sorted φ) := read_print hφ

section Nodes

variable (e : Engine p m r A step) (again : Tree → Solving Tree) (hl : Bears r A bound operator l) (hφ : Within m φ)
  (hψ : Within m ψ)

include e hl hφ

theorem Engine.prints_next (hop : of? p l = some .next) (a : Tree) :
    Prints (solveOne p m again (.unary l a) (some φ.print)) (.unary l a) (step bound φ.toSet) := by
  obtain ⟨S, hS, hn, hset⟩ := e.value hl.length (fun b hb => (hl.range e.numerals b hb).1) (sorted φ)
    hφ.sorted.toSet_subset
  rw [toSet_sorted] at hset
  refine ⟨S, ?_, hn, hset⟩
  unfold solveOne
  simp only [Tree.text, hop, hl.read, argument_print hφ.1, lift_ok, pure_bind, hS]

theorem Engine.prints_eventually (hop : of? p l = some .eventually)
    (hlower : isZero bound = false → ∀ {spent lower}, Below spent bound → spent ≠ bound → Bears r A spent "F" lower →
      Prints (again (.unary lower a)) (.unary l a) (reach (stepThrough step (toSet m.stateSet)) φ.toSet spent)) :
    Prints (solveOne p m again (.unary l a) (some φ.print)) (.unary l a)
      (reach (stepThrough step (toSet m.stateSet)) φ.toSet bound) := by
  rw [← toSet_sorted φ] at hlower ⊢
  unfold solveOne
  simp only [Tree.text, hop, hl.read, argument_print hφ.1, lift_ok]
  exact e.prints_reach again (.unary l a) hl m.stateSet hφ.sorted hlower

theorem Engine.prints_globally (hop : of? p l = some .globally) (hp : p = .joint)
    (hlower : isZero bound = false → ∀ {spent lower}, Below spent bound → spent ≠ bound → Bears r A spent "G" lower →
      ∃ X ⊆ toSet m.stateSet, Prints (again (.unary lower a)) (.unary l a) X) :
    ∃ X ⊆ toSet m.stateSet, Prints (solveOne p m again (.unary l a) (some φ.print)) (.unary l a) X ∧
      (isZero bound = false → X = ∅) ∧ (isZero bound = true →
        (toSet m.stateSet ⊆ φ.toSet → step bound (toSet m.stateSet) = toSet m.stateSet) →
          IsGreatest {X | X ⊆ stepThrough step φ.toSet bound X} X) := by
  have hkeep := e.prints_keep again (.unary l a) hl hφ.sorted hlower
  rw [toSet_sorted] at hkeep
  have hnot : ¬ p = .perAgent := by simp [hp]
  unfold solveOne
  simp only [Tree.text, hop, hl.read, argument_print hφ.1, lift_ok, if_neg hnot]
  exact hkeep

include hψ

theorem Engine.prints_untl (hop : Binary.of? p l = some .untl)
    (hlower : isZero bound = false → ∀ {spent lower}, Below spent bound → spent ≠ bound → Bears r A spent "U" lower →
      Prints (again (.binary lower a b)) (.binary l a b) (reach (stepThrough step φ.toSet) ψ.toSet spent)) :
    Prints (solveTwo p m again (.binary l a b) φ.print ψ.print) (.binary l a b)
      (reach (stepThrough step φ.toSet) ψ.toSet bound) := by
  rw [← toSet_sorted φ, ← toSet_sorted ψ] at hlower ⊢
  unfold solveTwo
  simp only [Tree.text, hop, hl.read, read_print hφ.1, read_print hψ.1, lift_ok]
  exact e.prints_reach again (.binary l a b) hl (sorted φ) hψ.sorted hlower

end Nodes

/-! ## Solutions -/

/-- The answer for a tree when nothing is remembered. -/
def answerOf (p : Pricing) (m : Model) (t : Tree) : Outcome String :=
  ((solve p m (depth t + 1) t).run.run []).1.map Tree.text

theorem prints_withText {base : Tree} {y : String} : Prints x (base.withText y) X ↔ Prints x base X := by
  simp only [Prints, withText_withText]

/-- A tree that is solved, with the text of a set of states. -/
structure Rests (p : Pricing) (m : Model) (a : Tree) (φ : Names) : Prop where
  names : Renames id m.states φ φ
  fit : Fit m a
  text : a.text = φ.print
  rests : solution p m a = .ok a

theorem Rests.within (h : Rests p m a φ) : Within m φ := ⟨h.names.nodup, h.names.inside⟩

section Solutions

variable (hcalm : ∀ q ∈ m.states, Calm p q) (ha : Rests p m a φ) (hb : Rests p m b ψ)

include hcalm

theorem rests_leaf (hφ : Renames id m.states φ φ) : Rests p m (.leaf φ.print) φ := by
  refine ⟨hφ, .leaf hφ, rfl, ?_⟩
  rw [solution_eq hcalm (.leaf hφ), solveNode,
    solveOne_rests (.leaf φ.print) ((quiet_refl hcalm).of?_print hφ).1.1]
  rfl

include ha

theorem solution_unary (hl : Known l) : solution p m (.unary l a) =
    value (solveOne p m (fun t => lift (solution p m t)) (.unary l a) (some φ.print)) := by
  rw [solution_eq hcalm (.unary (.label hl) ha.fit), solveNode, ha.rests, ← ha.text]
  rfl

include hb

theorem solution_binary (hl : Known l) : solution p m (.binary l a b) =
    value (solveTwo p m (fun t => lift (solution p m t)) (.binary l a b) φ.print ψ.print) := by
  rw [solution_eq hcalm (.binary (.label hl) ha.fit hb.fit), solveNode, ha.rests, hb.rests, ← ha.text, ← hb.text]
  rfl

end Solutions

theorem Prints.lift_value {base : Tree} (h : Prints x base X) : Prints (lift (value x)) base X := by
  obtain ⟨S, rfl, hS⟩ := h
  exact ⟨S, rfl, hS⟩

section Answers

variable (e : Engine p m r A step) (hcalm : ∀ q ∈ m.states, Calm p q) (hl : Bears r A bound operator l)
  (ha : Rests p m a φ) (hb : Rests p m b ψ)

include e hcalm hl ha

theorem Engine.solution_next (hop : of? p l = some .next) :
    Prints (lift (solution p m (.unary l a))) (.unary l a) (step bound φ.toSet) := by
  rw [solution_unary hcalm ha (hl.known e.numerals)]
  exact (e.prints_next _ hl ha.within hop a).lift_value

/-- Each bound is solved by way of the lower ones, so all of them reach the target. -/
theorem Engine.solution_eventually (hop : of? p l = some .eventually) :
    Prints (lift (solution p m (.unary l a))) (.unary l a)
      (reach (stepThrough step (toSet m.stateSet)) φ.toSet bound) := by
  induction hw : total bound using Nat.strong_induction_on generalizing bound operator l with
  | _ w ih =>
    rw [solution_unary hcalm ha (hl.known e.numerals)]
    refine (e.prints_eventually _ hl ha.within hop fun _ spent lower hbelow hne hlow => ?_).lift_value
    refine (prints_withText (y := lower)).1 (ih _ (hw ▸ hbelow.total_lt hne) hlow ?_ rfl)
    rw [(hlow.of?_eq e.numerals).1]
    cases p <;> decide

theorem Engine.solution_globally (hop : of? p l = some .globally) (hp : p = .joint) :
    ∃ X ⊆ toSet m.stateSet, Prints (lift (solution p m (.unary l a))) (.unary l a) X ∧ (isZero bound = false → X = ∅) := by
  induction hw : total bound using Nat.strong_induction_on generalizing bound operator l with
  | _ w ih =>
    rw [solution_unary hcalm ha (hl.known e.numerals)]
    obtain ⟨X, hXU, hX, hzero, -⟩ := e.prints_globally (fun t => lift (solution p m t)) hl ha.within
        hop hp fun _ spent lower hbelow hne hlow => by
      obtain ⟨X, hXU, hX, -⟩ := ih _ (hw ▸ hbelow.total_lt hne) hlow
        (by rw [(hlow.of?_eq e.numerals).1, hp]; decide) rfl
      exact ⟨X, hXU, (prints_withText (y := lower)).1 hX⟩
    exact ⟨X, hXU, hX.lift_value, hzero⟩

include hb

theorem Engine.solution_untl (hop : Binary.of? p l = some .untl) :
    Prints (lift (solution p m (.binary l a b))) (.binary l a b) (reach (stepThrough step φ.toSet) ψ.toSet bound) := by
  induction hw : total bound using Nat.strong_induction_on generalizing bound operator l with
  | _ w ih =>
    rw [solution_binary hcalm ha hb (hl.known e.numerals)]
    refine (e.prints_untl _ hl ha.within hb.within hop
      fun _ spent lower hbelow hne hlow => ?_).lift_value
    refine (prints_withText (y := lower)).1 (ih _ (hw ▸ hbelow.total_lt hne) hlow ?_ rfl)
    rw [(hlow.of?_eq e.numerals).2]
    cases p <;> decide

end Answers

end Checker.Bounded

end Arena
